import Mathlib
import Renumber.Kind

/-!
# Sets of kinds

What may stand next in a text is a set of kinds. A set is one number: its bit at the number of a kind
says whether the kind is in it, so the grammar can be gone through for all kinds at once. Membership in
what the operations build is membership in what they build it from (`has_inter` and its like).
-/

namespace Renumber

theorem Kind.raw_lt (k : Kind) : k.raw < 256 := by
  cases k <;> decide

/-- A set of kinds, as the bits of a number. -/
structure KindSet where
  bits : Nat
deriving DecidableEq

namespace KindSet

/-- The kind is in the set. -/
def has (s : KindSet) (k : Kind) : Bool := s.bits.testBit k.raw

/-- The set of all kinds. -/
def every : KindSet := ⟨2 ^ 256 - 1⟩

/-- The set of the kinds of a list. -/
def of : List Kind → KindSet
  | [] => ⟨0⟩
  | k :: ks => ⟨2 ^ k.raw ||| (of ks).bits⟩

instance : Inter KindSet := ⟨fun s t => ⟨s.bits &&& t.bits⟩⟩

instance : Union KindSet := ⟨fun s t => ⟨s.bits ||| t.bits⟩⟩

instance : SDiff KindSet := ⟨fun s t => ⟨s.bits ^^^ (s.bits &&& t.bits)⟩⟩

/-- No kind is in the set. -/
def isEmpty (s : KindSet) : Bool := s.bits == 0

/-- Every kind of the set is in another one. -/
def within (s t : KindSet) : Bool := (s \ t).isEmpty

@[simp] theorem has_every (k : Kind) : every.has k = true := by
  rw [has, every, Nat.testBit_two_pow_sub_one]
  exact decide_eq_true k.raw_lt

@[simp] theorem has_of (ks : List Kind) (k : Kind) : (of ks).has k = ks.contains k := by
  induction ks with
  | nil => simp [of, has]
  | cons j ks ih =>
    have hj : decide (j.raw = k.raw) = (k == j) := by
      rw [Bool.eq_iff_iff, decide_eq_true_eq, beq_iff_eq]
      exact ⟨fun h => (Kind.raw_injective h).symm, fun h => by rw [h]⟩
    rw [has] at ih
    rw [of, has, Nat.testBit_or, Nat.testBit_two_pow, ih, hj, List.contains_cons]

@[simp] theorem has_inter (s t : KindSet) (k : Kind) : (s ∩ t).has k = (s.has k && t.has k) :=
  Nat.testBit_and ..

@[simp] theorem has_union (s t : KindSet) (k : Kind) : (s ∪ t).has k = (s.has k || t.has k) :=
  Nat.testBit_or ..

@[simp] theorem has_diff (s t : KindSet) (k : Kind) : (s \ t).has k = (s.has k && !t.has k) := by
  show (s.bits ^^^ (s.bits &&& t.bits)).testBit k.raw = _
  rw [Nat.testBit_xor, Nat.testBit_and]
  unfold has
  cases s.bits.testBit k.raw <;> cases t.bits.testBit k.raw <;> rfl

theorem not_has_of_isEmpty {s : KindSet} (h : s.isEmpty = true) (k : Kind) : s.has k = false := by
  rw [has, beq_iff_eq.1 h, Nat.zero_testBit]

theorem not_isEmpty_of_has {s : KindSet} {k : Kind} (h : s.has k = true) : s.isEmpty = false := by
  rw [← Bool.not_eq_true]
  intro he
  rw [not_has_of_isEmpty he] at h
  cases h

theorem has_of_within {s t : KindSet} (h : s.within t = true) {k : Kind} (hk : s.has k = true) :
    t.has k = true := by
  have := not_has_of_isEmpty h k
  simpa [hk] using this

end KindSet

end Renumber
