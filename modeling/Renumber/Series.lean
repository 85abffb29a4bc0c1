import Renumber.Failure

/-!
# Series of codes

A series hands out consecutive codes. Each draw moves the counter on by one and gives its new value,
so the first code of a series is one more than its seed. After the greatest number of 64 bits there is
no code: the draw fails and the counter stays.

A series of its own for each text and a series that runs on over several texts are the same thing; they
differ in which counter the next text starts from.
-/

namespace Renumber

/-- A counter: the last code handed out, or the seed. -/
structure Series where
  current : UInt64
deriving DecidableEq, Repr

namespace Series

/-- The greatest code. -/
def last : UInt64 := 0xffffffffffffffff

/-- The next code and the counter after it. -/
def next (s : Series) : Except Failure (UInt64 × Series) :=
  if s.current = last then .error (.seriesExhausted s.current)
  else .ok (s.current + 1, ⟨s.current + 1⟩)

theorem next_eq_error_iff {s : Series} {e : Failure} :
    s.next = .error e ↔ s.current = last ∧ e = .seriesExhausted last := by
  unfold next
  split <;> simp_all [eq_comm]

theorem toNat_next {s : Series} {code : UInt64} {s' : Series} (h : s.next = .ok (code, s')) :
    code.toNat = s.current.toNat + 1 ∧ s'.current = code := by
  unfold next at h
  split at h
  · cases h
  · rename_i hne
    simp only [Except.ok.injEq, Prod.mk.injEq] at h
    obtain ⟨rfl, rfl⟩ := h
    refine ⟨?_, rfl⟩
    have hlt := s.current.toNat_lt
    have hne' : s.current.toNat ≠ 0xffffffffffffffff := fun h =>
      hne (UInt64.toNat_inj.1 (by rw [h]; rfl))
    rw [UInt64.toNat_add]
    simp only [UInt64.toNat_one]
    omega

end Series

end Renumber
