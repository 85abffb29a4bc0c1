import Renumber.Proofs.Grammar.Regular
import Renumber.Proofs.Numbering.Kept

/-!
# Trees without calls

What a call has beside its arguments holds no call: trivia, brackets and commas are tokens, and a callee
consists of names and attributes (`powersOf_callee`). The walk leaves such trees as they are
(`coded_quiet_iff`), and there is none of the calls of a node among them (`callsFrom_inside`,
`callsFrom_among`).
-/

namespace Renumber.Tree

/-! ## Regular trees -/

theorem Regular.of_mem {t : Tree} (h : t.Regular) {c : Tree} (hc : c ∈ t.children) :
    c.Regular := by
  cases h with
  | token => cases hc
  | node _ _ hcs => exact hcs c hc

/-- The parts of an argument list and of what is around it are regular if everything is. -/
theorem regular_among {xs bs ys : List Tree} {k : Kind}
    (h : ∀ t ∈ xs ++ node k bs :: ys, t.Regular) :
    (∀ t ∈ xs, t.Regular) ∧ (∀ t ∈ bs, t.Regular) ∧ ∀ t ∈ ys, t.Regular :=
  ⟨fun t ht => h t (List.mem_append_left _ ht),
    fun _ ht => (h _ (List.mem_append_right _ List.mem_cons_self)).of_mem ht,
    fun t ht => h t (List.mem_append_right _ (List.mem_cons_of_mem _ ht))⟩

/-- Regular trees hold no call if those that are not trivia hold none. -/
theorem powersOf_eq_zero {ts : List Tree} (h : ∀ t ∈ ts, t.Regular)
    (hsolid : ∀ t ∈ solid ts, t.powers = 0) : powersOf ts = 0 := by
  induction ts with
  | nil => simp
  | cons t ts ih =>
    have hts := ih fun u hu => h u (List.mem_cons_of_mem _ hu)
    cases ht : t.kind.isTrivia with
    | true =>
      rw [solid_cons_of_trivia ht] at hsolid
      cases h t List.mem_cons_self with
      | token => simpa using hts hsolid
      | node hk => rw [kind_node, Kind.isTrivia_of_isNode hk] at ht; cases ht
    | false =>
      rw [solid_cons_of_not_trivia ht] at hsolid
      rw [powersOf_cons, hsolid t List.mem_cons_self,
        hts fun u hu => hsolid u (List.mem_cons_of_mem _ hu)]

theorem powersOf_eq_zero_of_solid {ts : List Tree} (h : ∀ t ∈ ts, t.Regular)
    (hsolid : solid ts = []) : powersOf ts = 0 := by
  refine powersOf_eq_zero h fun t ht => ?_
  rw [hsolid] at ht
  cases ht

theorem powersOf_tokens {ts : List Tree} (h : ∀ t ∈ ts, ∃ u, t = token u) : powersOf ts = 0 := by
  induction ts with
  | nil => simp
  | cons t ts ih =>
    obtain ⟨u, rfl⟩ := h t List.mem_cons_self
    simpa using ih fun v hv => h v (List.mem_cons_of_mem _ hv)

/-- A regular tree of a kind that is not one of nodes is a token. -/
theorem Regular.powers_of_kind {t : Tree} (h : t.Regular) (hk : t.kind.isNode = false) :
    t.powers = 0 := by
  cases h with
  | token => simp
  | node hnode => rw [kind_node, hnode] at hk; cases hk

theorem Regular.powers_of_isFlat {t : Tree} (h : t.Regular) (hk : t.kind.isFlat = true) :
    t.powers = 0 := by
  cases h with
  | token => simp
  | @node k cs _ hflat _ =>
    have hne : k ≠ .powerExpr := by
      rintro rfl
      cases hk
    rw [powers_node, if_neg hne, powersOf_tokens (hflat hk)]

theorem powersOf_bracket {k : Kind} {ts : List Tree} (h : ∀ t ∈ ts, t.Regular)
    (hts : Bracket k ts) (hk : k.isNode = false) : powersOf ts = 0 := by
  obtain ⟨t, hsolid, rfl⟩ := hts
  refine powersOf_eq_zero h fun u hu => ?_
  have hmem : u ∈ ts := (List.mem_filter.1 hu).1
  rw [hsolid, List.mem_singleton] at hu
  subst hu
  exact (h u hmem).powers_of_kind hk

theorem kind_of_isNameOf {s : String} {t : Tree} (h : t.isNameOf s = true) :
    t.kind.isFlat = true := by
  simp only [isNameOf, Bool.and_eq_true, beq_iff_eq] at h
  rw [h.1.2]
  rfl

theorem kind_of_attribute? {s : String} {t : Tree} (h : t.attribute? = some s) :
    t.kind.isFlat = true := by
  unfold attribute? at h
  split at h
  · rfl
  · cases h

/-- There is no call in a callee. -/
theorem powersOf_callee {shape : Shape} {ts : List Tree} (h : ∀ t ∈ ts, t.Regular)
    (hts : Callee shape ts) : powersOf ts = 0 := by
  refine powersOf_eq_zero h fun u hu => ?_
  have hmem : u ∈ ts := (List.mem_filter.1 hu).1
  refine (h u hmem).powers_of_isFlat ?_
  cases shape with
  | result =>
    obtain ⟨r, a, hsolid, hr, ha⟩ := hts
    rw [hsolid] at hu
    simp only [List.mem_cons, List.not_mem_nil, or_false] at hu
    rcases hu with rfl | rfl
    · exact kind_of_isNameOf hr
    · exact kind_of_attribute? ha
  | logger m =>
    obtain ⟨r, l, a, hsolid, hr, hl, ha⟩ := hts
    rw [hsolid] at hu
    simp only [List.mem_cons, List.not_mem_nil, or_false] at hu
    rcases hu with rfl | rfl | rfl
    · exact kind_of_isNameOf hr
    · exact kind_of_attribute? hl
    · exact kind_of_attribute? ha

/-! ## The walk and the calls -/

/-- The walk leaves trees without calls alone. -/
theorem coded_self {ts : List Tree} (h : powersOf ts = 0) (s : UInt64) : Coded s ts ts [] s := by
  induction ts using forest_induction generalizing s with
  | nil => exact .nil
  | token t => exact .token .nil
  | append ts us hts hus =>
    rw [powersOf_append] at h
    exact (hts (by omega) s).append (hus (by omega) s)
  | plain k cs hcall ih =>
    rw [powersOf_cons, powers_node] at h
    exact .plain hcall (ih (by omega) s) .nil
  | call => simp at h

/-- A walk over trees without calls changes nothing and draws no code. -/
theorem coded_quiet_iff {ts vs : List Tree} {s s' : UInt64}
    {fs : List (UInt64 × FixKind × Shape)} (h : powersOf ts = 0) :
    Coded s ts vs fs s' ↔ vs = ts ∧ fs = [] ∧ s' = s := by
  constructor
  · intro hcoded
    induction hcoded with
    | nil => exact ⟨rfl, rfl, rfl⟩
    | token _ ih =>
      rw [powersOf_cons] at h
      obtain ⟨rfl, rfl, rfl⟩ := ih (by omega)
      exact ⟨rfl, rfl, rfl⟩
    | plain _ _ _ ihcs ihts =>
      rw [powersOf_cons, powers_node] at h
      obtain ⟨rfl, rfl, rfl⟩ := ihcs (by omega)
      obtain ⟨rfl, rfl, rfl⟩ := ihts (by omega)
      exact ⟨rfl, rfl, rfl⟩
    | call hcall =>
      rw [powersOf_cons, powers_node, if_pos (kind_of_call? hcall)] at h
      omega
  · rintro ⟨rfl, rfl, rfl⟩
    exact coded_self h _

theorem callsFrom_eq_nil {ts : List Tree} (h : powersOf ts = 0) (p : List Nat) (i : Nat) :
    callsFrom p i ts = [] := by
  induction ts using forest_induction generalizing p i with
  | nil => exact callsFrom_nil p i
  | token t => rw [callsFrom_cons, callsAt_token, callsFrom_nil, List.append_nil]
  | append ts us hts hus =>
    rw [powersOf_append] at h
    rw [callsFrom_append, hts (by omega), hus (by omega), List.append_nil]
  | plain k cs hcall ih =>
    rw [powersOf_cons, powers_node] at h
    rw [callsFrom_cons, callsAt_plain _ hcall, ih (by omega), callsFrom_nil, List.append_nil]
  | call => simp at h

/-- The only calls of some children are those of one node among them. -/
theorem callsFrom_inside {xs bs ys : List Tree} {k : Kind} (hk : k ≠ .powerExpr)
    (hxs : powersOf xs = 0) (hys : powersOf ys = 0) (p : List Nat) :
    callsFrom p 0 (xs ++ node k bs :: ys) = callsFrom (p ++ [xs.length]) 0 bs := by
  rw [callsFrom_append, callsFrom_eq_nil hxs, List.nil_append, callsFrom_cons,
    callsFrom_eq_nil hys, List.append_nil, callsAt_plain _ (call?_eq_none hk _), Nat.zero_add]

/-- The only calls of some children are those of some of them. -/
theorem callsFrom_among {ps ms qs : List Tree} (hps : powersOf ps = 0) (hqs : powersOf qs = 0)
    (p : List Nat) (i : Nat) :
    callsFrom p i (ps ++ (ms ++ qs)) = callsFrom p (i + ps.length) ms := by
  rw [callsFrom_append, callsFrom_eq_nil hps, List.nil_append, callsFrom_append,
    callsFrom_eq_nil hqs, List.append_nil]

theorem sizeOf_lt_among (xs ps ms qs ys : List Tree) (k : Kind) :
    sizeOf ms < sizeOf (xs ++ node k (ps ++ (ms ++ qs)) :: ys) := by
  have h₁ := sizeOf_append xs (node k (ps ++ (ms ++ qs)) :: ys)
  have h₂ := sizeOf_append ps (ms ++ qs)
  have h₃ := sizeOf_append ms qs
  have hpos (ts : List Tree) : 0 < sizeOf ts := by
    cases ts <;> simp only [List.nil.sizeOf_spec, List.cons.sizeOf_spec] <;> omega
  have := hpos xs
  have := hpos ps
  have := hpos qs
  simp only [List.cons.sizeOf_spec, node.sizeOf_spec] at h₁
  omega

end Renumber.Tree
