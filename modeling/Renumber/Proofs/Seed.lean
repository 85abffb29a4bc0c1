import Mathlib.Data.List.DropRight
import Mathlib.Data.Nat.Digits.Lemmas
import Renumber.Seed

/-!
# Default seeds are codes of five digits

The seed that a path gets by default depends on nothing but the sum of the bytes of its file name without
the extension, and so not on their order. It is made of the first three digits of the sum
(`Seed.firstDigits`), so that it has five digits and is a multiple of 100, whatever the sum is
(`Seed.ofPath_eq`). The digits of the seed are the ones it is made of (`Seed.digits_firstDigits`), as the
first digit of a number is not zero; the bounds follow from that.
-/

namespace Renumber.Seed

/-- The number of five digits that starts with the first three digits of another one, and goes on with
zeros. The lists of digits have the last one in front. -/
def firstDigits (n : Nat) : Nat := Nat.ofDigits 10 (((Nat.digits 10 n).rtake 3).leftpad 5 0)

/-! ## Digits as text -/

theorem toDigits_eq_digits {n : Nat} (hn : 0 < n) :
    Nat.toDigits 10 n = (Nat.digits 10 n).reverse.map Nat.digitChar := by
  induction n using Nat.strong_induction_on with
  | h n ih =>
    rw [Nat.toDigits_eq_if (by decide), Nat.digits_def' (by decide) hn]
    split
    · rename_i hlt
      rw [Nat.mod_eq_of_lt hlt, Nat.div_eq_of_lt hlt]
      rfl
    · rw [ih (n / 10) (by omega) (by omega), List.reverse_cons, List.map_append, List.map_singleton]

theorem ofDigitChars_eq_ofDigits {ds : List Nat} (h : ∀ d ∈ ds, d < 10) :
    Nat.ofDigitChars 10 (ds.reverse.map Nat.digitChar) 0 = Nat.ofDigits 10 ds := by
  induction ds with
  | nil => rfl
  | cons d ds ih =>
    rw [List.reverse_cons, List.map_append, List.map_singleton, Nat.ofDigitChars_append,
      ih fun e he => h e (List.mem_cons_of_mem _ he),
      Nat.ofDigitChars_cons_digitChar_of_lt_ten (h d List.mem_cons_self), Nat.ofDigitChars_nil,
      Nat.ofDigits_cons, Nat.add_comm]

theorem lt_ten_of_mem_leading {n d : Nat} (h : d ∈ ((Nat.digits 10 n).rtake 3).leftpad 5 0) : d < 10 := by
  rw [List.leftpad, List.mem_append] at h
  rcases h with h | h
  · rw [List.eq_of_mem_replicate h]
    decide
  · exact Nat.digits_lt_base (by decide) (List.mem_of_mem_drop h)

/-- Printing, cutting off, filling up and reading gives the first digits. -/
theorem lead_eq_firstDigits (n : Nat) : lead n = firstDigits n := by
  rcases Nat.eq_zero_or_pos n with rfl | hn
  · decide
  · have htake : (Nat.toDigits 10 n).take 3 =
        ((Nat.digits 10 n).rtake 3).reverse.map Nat.digitChar := by
      rw [toDigits_eq_digits hn, List.rtake_eq_reverse_take_reverse, List.reverse_reverse,
        List.map_take]
    rw [firstDigits, ← ofDigitChars_eq_ofDigits fun d => lt_ten_of_mem_leading, List.leftpad,
      List.reverse_append, List.map_append, ← htake, List.reverse_replicate, List.map_replicate,
      ← List.length_reverse, ← List.length_map (f := Nat.digitChar), ← htake]
    rfl

/-! ## Bounds -/

theorem length_rtake_le {α : Type} (k : Nat) (xs : List α) : (xs.rtake k).length ≤ k := by
  rw [List.rtake, List.length_drop]
  omega

theorem dvd_firstDigits (n : Nat) : 100 ∣ firstDigits n := by
  have hlength := length_rtake_le 3 (Nat.digits 10 n)
  rw [firstDigits, List.leftpad, Nat.ofDigits_append, Nat.ofDigits_replicate_zero, Nat.zero_add,
    List.length_replicate]
  exact ((pow_dvd_pow 10 (by omega) : 10 ^ 2 ∣ 10 ^ (5 - _))).mul_right _

/-- The digits of the number are the ones it is made of. -/
theorem digits_firstDigits {n : Nat} (hn : n ≠ 0) :
    Nat.digits 10 (firstDigits n) = ((Nat.digits 10 n).rtake 3).leftpad 5 0 := by
  have hdigits : Nat.digits 10 n ≠ [] := Nat.digits_ne_nil_iff_ne_zero.2 hn
  have hlength := List.length_pos_iff.2 hdigits
  have hne : (Nat.digits 10 n).rtake 3 ≠ [] := by
    rw [List.rtake, List.ne_nil_iff_length_pos, List.length_drop]
    omega
  refine Nat.digits_ofDigits 10 (by decide) _ (fun d => lt_ten_of_mem_leading) fun h => ?_
  have hlast : (((Nat.digits 10 n).rtake 3).leftpad 5 0).getLast h = (Nat.digits 10 n).getLast hdigits := by
    have hend : ((Nat.digits 10 n).rtake 3).getLast hne = (Nat.digits 10 n).getLast hdigits :=
      List.getLast_drop hne
    rw [← hend]
    exact List.getLast_append_of_ne_nil h hne
  rw [hlast]
  exact Nat.getLast_digit_ne_zero 10 hn

theorem length_digits_firstDigits {n : Nat} (hn : n ≠ 0) : (Nat.digits 10 (firstDigits n)).length = 5 := by
  have hlength := length_rtake_le 3 (Nat.digits 10 n)
  rw [digits_firstDigits hn, List.length_leftpad]
  omega

theorem firstDigits_bounds {n : Nat} (hn : n ≠ 0) : 10000 ≤ firstDigits n ∧ firstDigits n ≤ 99900 := by
  have hlength := length_digits_firstDigits hn
  have hlow : 10 ^ 4 ≤ firstDigits n := (Nat.lt_digits_length_iff (by decide) _).1 (by omega)
  have hhigh : firstDigits n < 10 ^ 5 := (Nat.digits_length_le_iff (by decide) _).1 (by omega)
  have hdvd := dvd_firstDigits n
  omega

/-! ## The sum of a name -/

theorem sumOf_eq_sum (bs : List UInt8) : sumOf bs = (bs.map fun b => (b.toNat : Int) - 64).sum := by
  induction bs with
  | nil => rfl
  | cons b bs ih => rw [sumOf, ih, List.map_cons, List.sum_cons]

theorem weight_of_perm {s t : String} (h : s.toUTF8.toList.Perm t.toUTF8.toList) : weight s = weight t := by
  rw [weight, weight, sumOf_eq_sum, sumOf_eq_sum]
  exact (h.map _).sum_eq

/-- One extension goes off the end, if it is there. -/
theorem withoutExtension_cases (name ext : String) :
    name = withoutExtension name ext ++ "." ++ ext ∨
      withoutExtension name ext = name ∧ ∀ stem, name ≠ stem ++ "." ++ ext := by
  unfold withoutExtension
  dsimp only
  split
  · rename_i h
    obtain ⟨stem, hstem⟩ := List.isSuffixOf_iff_suffix.1 h
    refine .inl (String.toList_inj.1 ?_)
    rw [← hstem]
    simp
  · rename_i h
    refine .inr ⟨rfl, fun stem hstem => h (List.isSuffixOf_iff_suffix.2 ⟨stem.toList, ?_⟩)⟩
    rw [hstem]
    simp

theorem ofName_eq (name : String) :
    (ofName name).toNat = if weight name = 0 then 10000 else firstDigits (weight name).natAbs := by
  unfold ofName
  rw [lead_eq_firstDigits]
  by_cases hzero : weight name = 0
  · rw [if_pos hzero, hzero]
    rfl
  · rw [if_neg hzero]
    obtain ⟨hlow, hhigh⟩ := firstDigits_bounds (Int.natAbs_ne_zero.2 hzero)
    split
    · omega
    · exact UInt64.toNat_ofNat_of_lt' (Nat.lt_of_le_of_lt hhigh (by decide))

/-- The default seed of a path is made of the first digits of the sum of its file name without one
extension, or 10000 if the sum is zero. It is a multiple of 100 of five digits, and the same for every file
name with these bytes in another order. -/
theorem ofPath_eq (path : Path) (ext : String) :
    let name := path.fileName?.getD ""
    let stem := withoutExtension name ext
    let sum := (stem.toUTF8.toList.map fun b => (b.toNat : Int) - 64).sum
    let seed := (ofPath path ext).toNat
    (name = stem ++ "." ++ ext ∨ stem = name ∧ ∀ s, name ≠ s ++ "." ++ ext) ∧
      (seed = if sum = 0 then 10000 else firstDigits sum.natAbs) ∧
      (100 ∣ seed ∧ 10000 ≤ seed ∧ seed ≤ 99900 ∧ (Nat.digits 10 seed).length = 5) ∧
      ∀ (path' : Path) (ext' : String),
        (withoutExtension (path'.fileName?.getD "") ext').toUTF8.toList.Perm stem.toUTF8.toList →
          ofPath path' ext' = ofPath path ext := by
  intro name stem sum seed
  have hsum : weight stem = sum := sumOf_eq_sum _
  have hseed : seed = if sum = 0 then 10000 else firstDigits sum.natAbs := hsum ▸ ofName_eq stem
  refine ⟨withoutExtension_cases name ext, hseed, ?_, fun path' ext' h => ?_⟩
  · rw [hseed]
    split
    · decide
    · rename_i hne
      have hne := Int.natAbs_ne_zero.2 hne
      have ⟨hlow, hhigh⟩ := firstDigits_bounds hne
      exact ⟨dvd_firstDigits _, hlow, hhigh, length_digits_firstDigits hne⟩
  · rw [ofPath, ofPath, ofName, ofName, weight_of_perm h]

/-- The sum of a long name has more than three digits. -/
example : ofPath ⟨"plugins/zzzzzzzzzzzzzzzzzzzzzzzzzzzzzzzzzzzzzzzz.py"⟩ "py" = 23200 := by
  decide +kernel

end Renumber.Seed
