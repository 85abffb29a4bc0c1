import Mathlib.Data.List.Basic
import Renumber.Diff.Hunk

/-!
# What a script does

A script leads from one place in two texts to a later one (`Leads`) if its runs follow each other in both
texts and the lines that stay are the same in both. Where a run is in a text that it has no lines of is
not asked. The script of two texts leads from their first lines to their ends (`leads_scriptFrom`): what
both begin and end with stays, and each part between is dealt with by a script of its own, wherever the
texts were cut.
-/

namespace Renumber.Diff

variable {α : Type}

/-! ## Lines of a text -/

theorem lines_eq (i n : Nat) (text : List α) : Range.lines ⟨i, n⟩ text = (text.drop i).take n := rfl

@[simp] theorem lines_zero (i : Nat) (text : List α) : Range.lines ⟨i, 0⟩ text = [] := by
  rw [lines_eq, List.take_zero]

theorem lines_all (text : List α) : Range.lines ⟨0, text.length⟩ text = text := by
  rw [lines_eq, List.drop_zero, List.take_length]

theorem length_lines {i n : Nat} {text : List α} (h : i + n ≤ text.length) :
    (Range.lines ⟨i, n⟩ text).length = n := by
  rw [lines_eq, List.length_take, List.length_drop]
  omega

theorem lines_to_end {i n : Nat} {text : List α} (h : i + n = text.length) :
    Range.lines ⟨i, n⟩ text = text.drop i := by
  rw [lines_eq, List.take_of_length_le (by rw [List.length_drop]; omega)]

/-- Lines of some lines of a text. -/
theorem lines_lines {i m a b : Nat} (h : a + b ≤ m) (text : List α) :
    Range.lines ⟨a, b⟩ (Range.lines ⟨i, m⟩ text) = Range.lines ⟨i + a, b⟩ text := by
  rw [lines_eq, lines_eq, lines_eq, List.drop_take, List.drop_drop, List.take_take, Nat.min_eq_left (by omega)]

theorem lines_append (i m n : Nat) (text : List α) :
    Range.lines ⟨i, m⟩ text ++ Range.lines ⟨i + m, n⟩ text = Range.lines ⟨i, m + n⟩ text := by
  rw [lines_eq, lines_eq, lines_eq, List.take_add, List.drop_drop]

theorem lines_append_drop (i n : Nat) (text : List α) :
    Range.lines ⟨i, n⟩ text ++ text.drop (i + n) = text.drop i := by
  rw [lines_eq, ← List.drop_drop, List.take_append_drop]

/-- Texts that agree in some lines agree in all lines among these. -/
theorem lines_congr {i j m a b : Nat} {old new : List α}
    (h : Range.lines ⟨i, m⟩ old = Range.lines ⟨j, m⟩ new) (hab : a + b ≤ m) :
    Range.lines ⟨i + a, b⟩ old = Range.lines ⟨j + a, b⟩ new := by
  rw [← lines_lines hab, h, lines_lines hab]

/-- The text has some lines from a line on. -/
structure Has (text : List α) (i : Nat) (part : List α) : Prop where
  le : i + part.length ≤ text.length
  eq : Range.lines ⟨i, part.length⟩ text = part

theorem Has.refl (text : List α) : Has text 0 text := ⟨by omega, lines_all text⟩

theorem Has.lines {text part : List α} {i a b : Nat} (h : Has text i part) (hab : a + b ≤ part.length) :
    Has text (i + a) (Range.lines ⟨a, b⟩ part) := by
  have hle := h.le
  have hlength := length_lines hab
  refine ⟨by omega, ?_⟩
  rw [hlength, ← lines_lines hab, h.eq]

theorem Has.take {text part : List α} {i a : Nat} (h : Has text i part) (ha : a ≤ part.length) :
    Has text i (part.take a) := h.lines (a := 0) (b := a) (by omega)

theorem Has.drop {text part : List α} {i a : Nat} (h : Has text i part) (ha : a ≤ part.length) :
    Has text (i + a) (part.drop a) := by
  rw [← lines_to_end (Nat.add_sub_cancel' ha)]
  exact h.lines (by omega)

/-! ## Runs in their places -/

/-- The runs of the script follow each other, from some lines of the texts to later ones. -/
inductive Leads (old new : List α) : Nat → Nat → Script → Nat → Nat → Prop
  | nil {i j : Nat} (hold : i ≤ old.length) (hnew : j ≤ new.length) : Leads old new i j [] i j
  | keep {i j n i' j' : Nat} {s : Script}
      (same : Range.lines ⟨i, n⟩ old = Range.lines ⟨j, n⟩ new)
      (rest : Leads old new (i + n) (j + n) s i' j') : Leads old new i j (⟨.keep, i, j, n⟩ :: s) i' j'
  | delete {i j n i' j' : Nat} (b : Nat) {s : Script} (rest : Leads old new (i + n) j s i' j') :
      Leads old new i j (⟨.delete, i, b, n⟩ :: s) i' j'
  | insert {i j n i' j' : Nat} (a : Nat) {s : Script} (rest : Leads old new i (j + n) s i' j') :
      Leads old new i j (⟨.insert, a, j, n⟩ :: s) i' j'

variable {old new : List α} {i j i' j' a b n : Nat} {s t : Script}

/-- The lines between two places of a text that a script leads from and to. -/
theorem Leads.bounds (h : Leads old new i j s i' j') :
    i ≤ i' ∧ i' ≤ old.length ∧ j ≤ j' ∧ j' ≤ new.length := by
  induction h with
  | nil hold hnew => exact ⟨Nat.le_refl _, hold, Nat.le_refl _, hnew⟩
  | keep same rest ih => omega
  | delete b rest ih => omega
  | insert a rest ih => omega

theorem leads_nil : Leads old new i j [] i' j' ↔
    i = i' ∧ j = j' ∧ i ≤ old.length ∧ j ≤ new.length := by
  constructor
  · intro h
    cases h with
    | nil hold hnew => exact ⟨rfl, rfl, hold, hnew⟩
  · rintro ⟨rfl, rfl, hold, hnew⟩
    exact .nil hold hnew

theorem leads_keep : Leads old new i j (⟨.keep, a, b, n⟩ :: s) i' j' ↔ a = i ∧ b = j ∧
    Range.lines ⟨i, n⟩ old = Range.lines ⟨j, n⟩ new ∧ Leads old new (i + n) (j + n) s i' j' := by
  constructor
  · intro h
    cases h with
    | keep same rest => exact ⟨rfl, rfl, same, rest⟩
  · rintro ⟨rfl, rfl, same, rest⟩
    exact .keep same rest

theorem leads_delete : Leads old new i j (⟨.delete, a, b, n⟩ :: s) i' j' ↔
    a = i ∧ Leads old new (i + n) j s i' j' := by
  constructor
  · intro h
    cases h with
    | delete b rest => exact ⟨rfl, rest⟩
  · rintro ⟨rfl, rest⟩
    exact .delete b rest

theorem leads_insert : Leads old new i j (⟨.insert, a, b, n⟩ :: s) i' j' ↔
    b = j ∧ Leads old new i (j + n) s i' j' := by
  constructor
  · intro h
    cases h with
    | insert a rest => exact ⟨rfl, rest⟩
  · rintro ⟨rfl, rest⟩
    exact .insert a rest

theorem leads_append : Leads old new i j (s ++ t) i' j' ↔
    ∃ i₁ j₁, Leads old new i j s i₁ j₁ ∧ Leads old new i₁ j₁ t i' j' := by
  constructor
  · intro h
    induction s generalizing i j with
    | nil =>
      have hbounds := h.bounds
      exact ⟨i, j, .nil (by omega) (by omega), h⟩
    | cons r s ih =>
      rw [List.cons_append] at h
      cases h with
      | keep same rest =>
        obtain ⟨i₁, j₁, hs, ht⟩ := ih rest
        exact ⟨i₁, j₁, .keep same hs, ht⟩
      | delete b rest =>
        obtain ⟨i₁, j₁, hs, ht⟩ := ih rest
        exact ⟨i₁, j₁, .delete b hs, ht⟩
      | insert a rest =>
        obtain ⟨i₁, j₁, hs, ht⟩ := ih rest
        exact ⟨i₁, j₁, .insert a hs, ht⟩
  · rintro ⟨i₁, j₁, hs, ht⟩
    induction hs with
    | nil => exact ht
    | keep same rest ih => exact .keep same (ih ht)
    | delete b rest ih => exact .delete b (ih ht)
    | insert a rest ih => exact .insert a (ih ht)

theorem leads_runOf_keep (hold : i + n ≤ old.length) (hnew : j + n ≤ new.length)
    (same : Range.lines ⟨i, n⟩ old = Range.lines ⟨j, n⟩ new) :
    Leads old new i j (runOf .keep i j n) (i + n) (j + n) := by
  unfold runOf
  split
  · rename_i hn
    exact leads_nil.2 ⟨by omega, by omega, by omega, by omega⟩
  · exact .keep same (.nil hold hnew)

/-- All old lines go, and all new lines come. -/
theorem leads_exchange {m n : Nat} (hold : i + m ≤ old.length) (hnew : j + n ≤ new.length) :
    Leads old new i j (runOf .delete i j m ++ runOf .insert i j n) (i + m) (j + n) := by
  refine leads_append.2 ⟨i + m, j, ?_, ?_⟩
  · unfold runOf
    split
    · exact leads_nil.2 ⟨by omega, rfl, by omega, by omega⟩
    · exact .delete j (.nil hold (by omega))
  · unfold runOf
    split
    · exact leads_nil.2 ⟨rfl, by omega, hold, by omega⟩
    · exact .insert i (.nil hold hnew)

/-! ## What two texts have in common at both ends -/

section
variable [DecidableEq α]

theorem drop_commonEnd (as bs : List α) :
    as.drop (as.length - commonEnd as bs) = bs.drop (bs.length - commonEnd as bs) := by
  have h := congrArg List.reverse (take_commonLength as.reverse bs.reverse)
  rwa [List.take_reverse, List.take_reverse, List.reverse_reverse, List.reverse_reverse] at h

/-- The texts are what they begin with, a core of each, and what they end with. -/
structure Core.Parts (c : Core α) (old new : List α) : Prop where
  length_old : old.length = c.head + c.old.length + c.tail
  length_new : new.length = c.head + c.new.length + c.tail
  old_eq : c.old = Range.lines ⟨c.head, c.old.length⟩ old
  new_eq : c.new = Range.lines ⟨c.head, c.new.length⟩ new
  head : Range.lines ⟨0, c.head⟩ old = Range.lines ⟨0, c.head⟩ new
  tail : Range.lines ⟨c.head + c.old.length, c.tail⟩ old =
    Range.lines ⟨c.head + c.new.length, c.tail⟩ new

theorem Core.parts_of (old new : List α) : (Core.of old new).Parts old new := by
  have hold := commonLength_le_left old new
  have hnew := commonLength_le_right old new
  have hold' := commonEnd_le_left (old.drop (commonLength old new)) (new.drop (commonLength old new))
  have hnew' := commonEnd_le_right (old.drop (commonLength old new)) (new.drop (commonLength old new))
  have htail := drop_commonEnd (old.drop (commonLength old new)) (new.drop (commonLength old new))
  simp only [List.length_drop, List.drop_drop] at hold' hnew' htail
  have hlength : (Core.of old new).old.length + (Core.of old new).tail =
      old.length - (Core.of old new).head := by
    simp only [Core.of, List.length_take, List.length_drop]
    omega
  have hlength' : (Core.of old new).new.length + (Core.of old new).tail =
      new.length - (Core.of old new).head := by
    simp only [Core.of, List.length_take, List.length_drop]
    omega
  have hhead : (Core.of old new).head = commonLength old new := rfl
  refine ⟨by omega, by omega, ?_, ?_, ?_, ?_⟩
  · simp [Core.of, Range.lines]
  · simp [Core.of, Range.lines]
  · simpa [Core.of, Range.lines] using take_commonLength old new
  · rw [lines_to_end (by omega), lines_to_end (by omega)]
    have hold_eq : (Core.of old new).head + (Core.of old new).old.length =
        commonLength old new + (old.length - commonLength old new - (Core.of old new).tail) := by
      omega
    have hnew_eq : (Core.of old new).head + (Core.of old new).new.length =
        commonLength old new + (new.length - commonLength old new - (Core.of old new).tail) := by
      omega
    rw [hold_eq, hnew_eq]
    exact htail

/-- The script of a part of each text leads from where the parts begin to where they end. -/
theorem leads_scriptFrom {o n : List α} (ho : Has old i o) (hn : Has new j n) :
    Leads old new i j (scriptFrom i j o n) (i + o.length) (j + n.length) := by
  induction hsize : o.length + n.length using Nat.strongRecOn generalizing i j o n with
  | _ size ih =>
    subst hsize
    rw [scriptFrom]
    have parts := Core.parts_of o n
    generalize Core.of o n = c at parts ⊢
    have hlength := parts.length_old
    have hlength' := parts.length_new
    have hold_le := ho.le
    have hnew_le := hn.le
    have hcore : Has old (i + c.head) c.old := by
      rw [parts.old_eq]
      exact ho.lines (by omega)
    have hcore' : Has new (j + c.head) c.new := by
      rw [parts.new_eq]
      exact hn.lines (by omega)
    -- The lines that stay at both ends are lines of the parts, and these are lines of the texts.
    have hsame {a b k : Nat} (h : Range.lines ⟨a, k⟩ o = Range.lines ⟨b, k⟩ n)
        (ha : a + k ≤ o.length) (hb : b + k ≤ n.length) :
        Range.lines ⟨i + a, k⟩ old = Range.lines ⟨j + b, k⟩ new := by
      rw [← ho.eq, ← hn.eq, lines_lines ha, lines_lines hb] at h
      exact h
    have hhead : Leads old new i j (runOf .keep i j c.head) (i + c.head) (j + c.head) :=
      leads_runOf_keep (by omega) (by omega) (hsame parts.head (by omega) (by omega))
    have htail : Leads old new (i + c.head + c.old.length) (j + c.head + c.new.length)
        (runOf .keep (i + c.head + c.old.length) (j + c.head + c.new.length) c.tail)
        (i + o.length) (j + n.length) := by
      have hi : i + o.length = i + c.head + c.old.length + c.tail := by omega
      have hj : j + n.length = j + c.head + c.new.length + c.tail := by omega
      rw [hi, hj]
      refine leads_runOf_keep (by omega) (by omega) ?_
      rw [Nat.add_assoc i, Nat.add_assoc j]
      exact hsame parts.tail (by omega) (by omega)
    have hexchange := leads_exchange hcore.le hcore'.le
    refine leads_append.2 ⟨_, _, leads_append.2 ⟨_, _, hhead, ?_⟩, htail⟩
    split
    · exact hexchange
    · split
      · rename_i p _
        split
        · rename_i hp
          have hupper := ih _ (by simp only [List.length_take]; omega)
            (hcore.take hp.2.1) (hcore'.take hp.2.2.1) rfl
          have hlower := ih _ (by simp only [List.length_drop]; omega)
            (hcore.drop hp.2.1) (hcore'.drop hp.2.2.1) rfl
          rw [List.length_take, List.length_take, Nat.min_eq_left hp.2.1,
            Nat.min_eq_left hp.2.2.1] at hupper
          rw [List.length_drop, List.length_drop, Nat.add_assoc _ p.old, Nat.add_assoc _ p.new,
            Nat.add_sub_cancel' hp.2.1, Nat.add_sub_cancel' hp.2.2.1] at hlower
          exact leads_append.2 ⟨_, _, hupper, hlower⟩
        · exact hexchange
      · exact hexchange

end

end Renumber.Diff
