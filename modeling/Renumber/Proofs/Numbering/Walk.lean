import Renumber.Proofs.Numbering.Site

/-!
# The walk

What numbering makes of some trees, without the lines that it counts on the way: `Coded` is the graph of
the walk, and `coded_of_run` and `run_of_coded` say so. A walk over two lists of trees one after the
other is a walk over the first and a walk over the second (`coded_append_iff`), and a walk into a call is
one over the trees around its code (`coded_call_iff`). `forest_induction` is how the theory goes through
trees: a call is taken apart as in `call?_eq_some_iff`.
-/

namespace Renumber

namespace Numbering

variable {α β : Type}

/-- The second of two steps is taken if the first ends well. -/
theorem run_bind (m : Numbering α) (f : α → Numbering β) (c : Cursor) :
    (m >>= f).run.run c = match m.run.run c with
      | (.ok a, c₁) => (f a).run.run c₁
      | (.error e, c₁) => (.error e, c₁) := by
  show (ExceptT.bindCont f (m.run.run c).1).run (m.run.run c).2 = _
  cases m.run.run c with
  | mk r c₁ => cases r <;> rfl

/-- Two steps end well if both do. -/
theorem bind_eq_ok_iff {m : Numbering α} {f : α → Numbering β} {c c' : Cursor} {b : β} :
    (m >>= f).run.run c = (.ok b, c') ↔
      ∃ a c₁, m.run.run c = (.ok a, c₁) ∧ (f a).run.run c₁ = (.ok b, c') := by
  rw [run_bind]
  cases m.run.run c with
  | mk r c₁ =>
    cases r with
    | ok a =>
      refine ⟨fun h => ⟨a, c₁, rfl, h⟩, ?_⟩
      rintro ⟨a', c₂, h, hf⟩
      cases h
      exact hf
    | error e =>
      constructor
      · intro h
        cases h
      · rintro ⟨a', c₂, h, -⟩
        cases h

theorem pure_eq_ok_iff {a b : α} {c c' : Cursor} :
    (pure a : Numbering α).run.run c = (.ok b, c') ↔ a = b ∧ c = c' := by
  show (Except.ok a, c) = (Except.ok b, c') ↔ _
  rw [Prod.mk.injEq, Except.ok.injEq]

theorem run_pass (t : Token) (c : Cursor) :
    (pass t).run.run c = (.ok (), { c with line := c.line + Tree.feeds [t] }) := rfl

theorem get_eq_ok_iff {a c c' : Cursor} :
    (get : Numbering Cursor).run.run c = (.ok a, c') ↔ c = a ∧ c = c' := by
  show (Except.ok c, c) = (Except.ok a, c') ↔ _
  rw [Prod.mk.injEq, Except.ok.injEq]

theorem draw_eq_ok_iff {c c' : Cursor} {code : UInt64} :
    draw.run.run c = (.ok code, c') ↔ c.series.current ≠ Series.last ∧
      code = c.series.current + 1 ∧ c' = ⟨⟨c.series.current + 1⟩, c.line⟩ := by
  unfold draw
  rw [bind_eq_ok_iff]
  simp only [get_eq_ok_iff]
  by_cases h : c.series.current = Series.last
  · have hnext : c.series.next = .error (.seriesExhausted c.series.current) := if_pos h
    constructor
    · rintro ⟨a, c₁, ⟨rfl, rfl⟩, hrun⟩
      rw [hnext] at hrun
      cases hrun
    · exact fun h' => absurd h h'.1
  · have hnext : c.series.next = .ok (c.series.current + 1, ⟨c.series.current + 1⟩) := if_neg h
    constructor
    · rintro ⟨a, c₁, ⟨rfl, rfl⟩, hrun⟩
      rw [hnext] at hrun
      cases hrun
      exact ⟨h, rfl, rfl⟩
    · rintro ⟨-, rfl, rfl⟩
      refine ⟨c, c, ⟨rfl, rfl⟩, ?_⟩
      rw [hnext]
      rfl

/-- A call is on record when there is a code for it. -/
theorem record_eq_ok_iff {call : Call} {t : Tree} {c c' : Cursor} {fix : Fix} :
    (record call t).run.run c = (.ok fix, c') ↔ c.series.current ≠ Series.last ∧
      fix = ⟨c.line, c.series.current + 1, call.fixKind t, call.shape⟩ ∧
      c' = ⟨⟨c.series.current + 1⟩, c.line⟩ := by
  unfold record
  simp only [bind_eq_ok_iff, draw_eq_ok_iff, get_eq_ok_iff, pure_eq_ok_iff]
  constructor
  · rintro ⟨code, c₁, ⟨h, rfl, rfl⟩, cursor, c₂, ⟨rfl, rfl⟩, rfl, rfl⟩
    exact ⟨h, rfl, rfl⟩
  · rintro ⟨h, rfl, rfl⟩
    exact ⟨_, _, ⟨h, rfl, rfl⟩, _, _, ⟨rfl, rfl⟩, rfl, rfl⟩

end Numbering

/-- What numbering tells about a call, but for its line. -/
def Fix.facts (f : Fix) : UInt64 × FixKind × Shape := (f.code, f.kind, f.shape)

namespace Tree

/-- The trees that numbering makes of some trees, what it tells about their calls, and the last code
before and after it. -/
inductive Coded : UInt64 → List Tree → List Tree → List (UInt64 × FixKind × Shape) → UInt64 → Prop
  | nil {s : UInt64} : Coded s [] [] [] s
  | token {s s' : UInt64} {t : Token} {ts ts' : List Tree} {fs : List (UInt64 × FixKind × Shape)}
      (h : Coded s ts ts' fs s') : Coded s (token t :: ts) (token t :: ts') fs s'
  | plain {s s₁ s' : UInt64} {k : Kind} {cs cs' ts ts' : List Tree}
      {fs gs : List (UInt64 × FixKind × Shape)} (hcall : (node k cs).call? = none)
      (hcs : Coded s cs cs' fs s₁) (hts : Coded s₁ ts ts' gs s') :
      Coded s (node k cs :: ts) (node k cs' :: ts') (fs ++ gs) s'
  | call {s s₁ s' : UInt64} {k : Kind} {cs cs' ts ts' : List Tree} {c : Call}
      {fs gs : List (UInt64 × FixKind × Shape)} (hcall : (node k cs).call? = some c)
      (hs : s ≠ Series.last) (hcs : Coded (s + 1) (c.put (s + 1) (node k cs)).children cs' fs s₁)
      (hts : Coded s₁ ts ts' gs s') :
      Coded s (node k cs :: ts) (node k cs' :: ts')
        ((s + 1, c.fixKind (node k cs), c.shape) :: fs ++ gs) s'

theorem renumber_plain {k : Kind} {cs : List Tree} (h : (node k cs).call? = none) :
    (node k cs).renumber = (do
      let r ← renumberAll cs
      return (node k r.1, r.2)) := by
  rw [renumber]
  split
  · rfl
  · rename_i heq
    rw [h] at heq
    cases heq

theorem renumber_call {k : Kind} {cs : List Tree} {c : Call} (h : (node k cs).call? = some c) :
    (node k cs).renumber = (do
      let fix ← Numbering.record c (node k cs)
      let r ← renumberAll (c.put fix.code (node k cs)).children
      return (node k r.1, fix :: r.2)) := by
  rw [renumber]
  split
  · rename_i heq
    rw [h] at heq
    cases heq
  · rename_i heq
    rw [h] at heq
    cases heq
    refine bind_congr fun fix => ?_
    have hwrite := write_of_call? h fix.code fix.line
    split <;> rename_i hw <;> rw [hwrite] at hw <;> cases hw
    rfl

theorem renumberAll_cons (t : Tree) (ts : List Tree) :
    renumberAll (t :: ts) = (do
      let r ← t.renumber
      let q ← renumberAll ts
      return (r.1 :: q.1, r.2 ++ q.2)) := by
  rw [renumberAll]

/-- A walk that ends well is one of the graph. -/
theorem coded_of_run {ts ts' : List Tree} {fixes : List Fix} {c c' : Cursor}
    (h : (renumberAll ts).run.run c = (.ok (ts', fixes), c')) :
    Coded c.series.current ts ts' (fixes.map Fix.facts) c'.series.current := by
  refine renumberAll.induct
    (fun t => ∀ c c' t' fixes, t.renumber.run.run c = (.ok (t', fixes), c') → ∀ ts ts' gs s',
      Coded c'.series.current ts ts' gs s' →
        Coded c.series.current (t :: ts) (t' :: ts') (fixes.map Fix.facts ++ gs) s')
    (fun ts => ∀ c c' ts' fixes, (renumberAll ts).run.run c = (.ok (ts', fixes), c') →
      Coded c.series.current ts ts' (fixes.map Fix.facts) c'.series.current)
    ?_ ?_ ?_ ?_ ?_ ts c c' ts' fixes h
  · intro t c c' t' fixes h ts ts' gs s' hts
    rw [renumber] at h
    simp only [Numbering.bind_eq_ok_iff, Numbering.pure_eq_ok_iff, Numbering.run_pass] at h
    obtain ⟨_, c₁, h₁, h₂, rfl⟩ := h
    cases h₁
    cases h₂
    exact .token hts
  · intro k cs hcall ih c c' t' fixes h ts ts' gs s' hts
    simp only [renumber_plain hcall, Numbering.bind_eq_ok_iff, Numbering.pure_eq_ok_iff] at h
    obtain ⟨⟨cs', fs⟩, c₁, h₁, h₂, rfl⟩ := h
    cases h₂
    exact .plain hcall (ih _ _ _ _ h₁) hts
  · intro k cs call hcall ih c c' t' fixes h ts ts' gs s' hts
    simp only [renumber_call hcall, Numbering.bind_eq_ok_iff, Numbering.pure_eq_ok_iff,
      Numbering.record_eq_ok_iff] at h
    obtain ⟨fix, c₁, ⟨hs, rfl, rfl⟩, ⟨cs', fs⟩, c₂, h₁, h₂, rfl⟩ := h
    cases h₂
    exact .call hcall hs (ih _ _ (write_of_call? hcall ..) _ _ _ _ h₁) hts
  · intro c c' ts' fixes h
    rw [renumberAll, Numbering.pure_eq_ok_iff] at h
    obtain ⟨h, rfl⟩ := h
    cases h
    exact .nil
  · intro t ts iht ihts c c' ts' fixes h
    simp only [renumberAll_cons, Numbering.bind_eq_ok_iff, Numbering.pure_eq_ok_iff] at h
    obtain ⟨⟨t', fs⟩, c₁, h₁, ⟨us, gs⟩, c₂, h₂, h₃, rfl⟩ := h
    cases h₃
    rw [List.map_append]
    exact iht _ _ _ _ h₁ _ _ _ _ (ihts _ _ _ _ h₂)

/-- A walk of the graph ends well, wherever it starts. -/
theorem run_of_coded {s s' : UInt64} {ts ts' : List Tree} {fs : List (UInt64 × FixKind × Shape)}
    (h : Coded s ts ts' fs s') (line : Nat) : ∃ fixes line', fixes.map Fix.facts = fs ∧
      (renumberAll ts).run.run ⟨⟨s⟩, line⟩ = (.ok (ts', fixes), ⟨⟨s'⟩, line'⟩) := by
  induction h generalizing line with
  | nil => exact ⟨[], line, rfl, by rw [renumberAll, Numbering.pure_eq_ok_iff]; exact ⟨rfl, rfl⟩⟩
  | @token s s' t ts ts' fs _ ih =>
    obtain ⟨fixes, line', hfs, hrun⟩ := ih (line + feeds [t])
    refine ⟨fixes, line', hfs, ?_⟩
    simp only [renumberAll_cons, renumber, Numbering.bind_eq_ok_iff, Numbering.pure_eq_ok_iff]
    exact ⟨(token t, []), _, ⟨_, _, Numbering.run_pass t _, rfl, rfl⟩, _, _, hrun, rfl, rfl⟩
  | plain hcall _ _ ihcs ihts =>
    obtain ⟨fs, line₁, rfl, hcs⟩ := ihcs line
    obtain ⟨gs, line', rfl, hts⟩ := ihts line₁
    refine ⟨fs ++ gs, line', List.map_append, ?_⟩
    simp only [renumberAll_cons, renumber_plain hcall, Numbering.bind_eq_ok_iff,
      Numbering.pure_eq_ok_iff]
    exact ⟨_, _, ⟨_, _, hcs, rfl, rfl⟩, _, _, hts, rfl, rfl⟩
  | @call s s₁ s' k cs cs' ts ts' c fs gs hcall hs _ _ ihcs ihts =>
    obtain ⟨fs, line₁, rfl, hcs⟩ := ihcs line
    obtain ⟨gs, line', rfl, hts⟩ := ihts line₁
    refine ⟨⟨line, s + 1, c.fixKind (node k cs), c.shape⟩ :: fs ++ gs, line', ?_, ?_⟩
    · rw [List.cons_append, List.map_cons, List.map_append]; rfl
    · simp only [renumberAll_cons, renumber_call hcall, Numbering.bind_eq_ok_iff,
        Numbering.pure_eq_ok_iff, Numbering.record_eq_ok_iff]
      exact ⟨_, _, ⟨_, _, ⟨hs, rfl, rfl⟩, _, _, hcs, rfl, rfl⟩, _, _, hts, rfl, rfl⟩

/-! ## Walks over several trees -/

theorem Coded.append {s s₁ s' : UInt64} {ts ts' us us' : List Tree}
    {fs gs : List (UInt64 × FixKind × Shape)} (hts : Coded s ts ts' fs s₁)
    (hus : Coded s₁ us us' gs s') : Coded s (ts ++ us) (ts' ++ us') (fs ++ gs) s' := by
  induction hts with
  | nil => exact hus
  | token _ ih => exact .token (ih hus)
  | plain hcall hcs _ _ ih =>
    rw [List.append_assoc]
    exact .plain hcall hcs (ih hus)
  | call hcall hs hcs _ _ ih =>
    rw [List.append_assoc]
    exact .call hcall hs hcs (ih hus)

/-- A walk over two lists of trees is one over the first and one over the second. -/
theorem coded_append_iff {s s' : UInt64} {ts us vs : List Tree}
    {fs : List (UInt64 × FixKind × Shape)} : Coded s (ts ++ us) vs fs s' ↔
      ∃ ts' us' f₁ f₂ s₁, vs = ts' ++ us' ∧ fs = f₁ ++ f₂ ∧
        Coded s ts ts' f₁ s₁ ∧ Coded s₁ us us' f₂ s' := by
  constructor
  · intro h
    induction ts generalizing s vs fs with
    | nil => exact ⟨[], vs, [], fs, s, rfl, rfl, .nil, h⟩
    | cons t ts ih =>
      rw [List.cons_append] at h
      cases h with
      | token h =>
        obtain ⟨ts', us', f₁, f₂, s₁, rfl, rfl, hts, hus⟩ := ih h
        exact ⟨_, us', f₁, f₂, s₁, rfl, rfl, .token hts, hus⟩
      | plain hcall hcs h =>
        obtain ⟨ts', us', f₁, f₂, s₁, rfl, rfl, hts, hus⟩ := ih h
        exact ⟨_, us', _, f₂, s₁, rfl, (List.append_assoc ..).symm, .plain hcall hcs hts, hus⟩
      | call hcall hs hcs h =>
        obtain ⟨ts', us', f₁, f₂, s₁, rfl, rfl, hts, hus⟩ := ih h
        exact ⟨_, us', _, f₂, s₁, rfl, (List.append_assoc ..).symm, .call hcall hs hcs hts, hus⟩
  · rintro ⟨ts', us', f₁, f₂, s₁, rfl, rfl, hts, hus⟩
    exact hts.append hus

theorem coded_nil_iff {s s' : UInt64} {vs : List Tree} {fs : List (UInt64 × FixKind × Shape)} :
    Coded s [] vs fs s' ↔ vs = [] ∧ fs = [] ∧ s' = s := by
  constructor
  · intro h
    cases h
    exact ⟨rfl, rfl, rfl⟩
  · rintro ⟨rfl, rfl, rfl⟩
    exact .nil

theorem coded_token_iff {s s' : UInt64} {t : Token} {ts vs : List Tree}
    {fs : List (UInt64 × FixKind × Shape)} : Coded s (token t :: ts) vs fs s' ↔
      ∃ ts', vs = token t :: ts' ∧ Coded s ts ts' fs s' := by
  constructor
  · intro h
    cases h with
    | token h => exact ⟨_, rfl, h⟩
  · rintro ⟨ts', rfl, h⟩
    exact .token h

/-- A walk into a node that is no call. -/
theorem coded_plain_iff {s s' : UInt64} {k : Kind} {cs ts vs : List Tree}
    {fs : List (UInt64 × FixKind × Shape)} (hcall : (node k cs).call? = none) :
    Coded s (node k cs :: ts) vs fs s' ↔ ∃ cs' ts' f₁ f₂ s₁, vs = node k cs' :: ts' ∧
      fs = f₁ ++ f₂ ∧ Coded s cs cs' f₁ s₁ ∧ Coded s₁ ts ts' f₂ s' := by
  constructor
  · intro h
    cases h with
    | plain _ hcs hts => exact ⟨_, _, _, _, _, rfl, rfl, hcs, hts⟩
    | call hcall' => rw [hcall] at hcall'; cases hcall'
  · rintro ⟨cs', ts', f₁, f₂, s₁, rfl, rfl, hcs, hts⟩
    exact .plain hcall hcs hts

theorem call?_eq_none {k : Kind} (hk : k ≠ .powerExpr) (cs : List Tree) :
    (node k cs).call? = none := by
  cases h : (node k cs).call? with
  | none => rfl
  | some c => exact absurd (kind_of_call? h) hk

/-- A walk over the tree of a whole text is one over its children. -/
theorem coded_module_iff {s s' : UInt64} {cs vs : List Tree}
    {fs : List (UInt64 × FixKind × Shape)} : Coded s [node .module cs] vs fs s' ↔
      ∃ cs', vs = [node .module cs'] ∧ Coded s cs cs' fs s' := by
  simp only [coded_plain_iff (call?_eq_none (k := .module) (by decide) cs), coded_nil_iff]
  constructor
  · rintro ⟨cs', _, _, _, _, rfl, rfl, hcs, rfl, rfl, rfl⟩
    exact ⟨cs', rfl, by rwa [List.append_nil]⟩
  · rintro ⟨cs', rfl, hcs⟩
    exact ⟨cs', [], fs, [], s', rfl, (List.append_nil _).symm, hcs, rfl, rfl, rfl⟩

/-- There is no call in the numeral of a code. -/
theorem coded_numeral_iff {s s' n : UInt64} {ts vs : List Tree}
    {fs : List (UInt64 × FixKind × Shape)} : Coded s (numberLiteral n :: ts) vs fs s' ↔
      ∃ ts', vs = numberLiteral n :: ts' ∧ Coded s ts ts' fs s' := by
  unfold numberLiteral
  rw [coded_plain_iff (call?_eq_none (by decide) _)]
  simp only [coded_token_iff, coded_nil_iff]
  constructor
  · rintro ⟨_, ts', _, f₂, _, rfl, rfl, ⟨_, rfl, rfl, rfl, rfl⟩, hts⟩
    exact ⟨ts', rfl, hts⟩
  · rintro ⟨ts', rfl, hts⟩
    exact ⟨_, ts', [], fs, s, rfl, rfl, ⟨[], rfl, rfl, rfl, rfl⟩, hts⟩

/-- A walk into a call goes over the trees around its code. -/
theorem coded_call_iff {s s' : UInt64} {callee us trailing vs : List Tree} {a : Arguments}
    {f : UInt64 → List Tree} {shape : Shape} {fs : List (UInt64 × FixKind × Shape)}
    (hcallee : Callee shape callee) (htrailing : solid trailing = []) (hargs : Args us a f) :
    Coded s [node .powerExpr (callee ++ node .callTrailer us :: trailing)] vs fs s' ↔
      s ≠ Series.last ∧ ∃ callee' us' trailing' f₁ f₂ f₃ s₁ s₂,
        vs = [node .powerExpr (callee' ++ node .callTrailer us' :: trailing')] ∧
        fs = (s + 1, Call.fixKind ⟨shape, callee.length, a.below callee.length⟩
          (node .powerExpr (callee ++ node .callTrailer us :: trailing)), shape) ::
            (f₁ ++ (f₂ ++ f₃)) ∧
        Coded (s + 1) callee callee' f₁ s₁ ∧ Coded s₁ (f (s + 1)) us' f₂ s₂ ∧
        Coded s₂ trailing trailing' f₃ s' := by
  have hcall := call?_eq_some_iff.2 ⟨callee, us, trailing, a, f, rfl, hcallee, htrailing, hargs,
    (rfl : (⟨shape, callee.length, a.below callee.length⟩ : Call) = _)⟩
  have htrailer := call?_eq_none (k := .callTrailer) (by decide) (f (s + 1))
  constructor
  · intro h
    cases h with
    | plain hnone => rw [hcall] at hnone; cases hnone
    | call hcall' hs hcs hts =>
      obtain rfl := Option.some.inj (hcall.symm.trans hcall')
      obtain ⟨rfl, rfl, rfl⟩ := coded_nil_iff.1 hts
      rw [put_eq hargs, children_node] at hcs
      obtain ⟨callee', _, f₁, _, s₁, rfl, rfl, h₁, hcs⟩ := coded_append_iff.1 hcs
      obtain ⟨us', trailing', f₂, f₃, s₂, rfl, rfl, h₂, h₃⟩ := (coded_plain_iff htrailer).1 hcs
      exact ⟨hs, callee', us', trailing', f₁, f₂, f₃, s₁, s₂, rfl, by rw [List.append_nil], h₁,
        h₂, h₃⟩
  · rintro ⟨hs, callee', us', trailing', f₁, f₂, f₃, s₁, s₂, rfl, rfl, h₁, h₂, h₃⟩
    rw [← List.append_nil (f₁ ++ (f₂ ++ f₃)), ← List.cons_append]
    refine .call hcall hs ?_ .nil
    rw [put_eq hargs, children_node]
    exact h₁.append (.plain htrailer h₂ h₃)

/-! ## Whole texts -/

/-- The walk of a tree is that of a list with nothing else in it. -/
theorem renumberAll_singleton_eq_ok_iff {t : Tree} {ts' : List Tree} {fixes : List Fix}
    {c c' : Cursor} : (renumberAll [t]).run.run c = (.ok (ts', fixes), c') ↔
      ∃ t', ts' = [t'] ∧ t.renumber.run.run c = (.ok (t', fixes), c') := by
  simp only [renumberAll_cons, renumberAll, Numbering.bind_eq_ok_iff, Numbering.pure_eq_ok_iff]
  constructor
  · rintro ⟨⟨t', fs⟩, c₁, h, ⟨us, gs⟩, c₂, ⟨hnil, rfl⟩, hr, rfl⟩
    cases hnil
    cases hr
    exact ⟨t', rfl, by rw [List.append_nil]; exact h⟩
  · rintro ⟨t', rfl, h⟩
    exact ⟨(t', fixes), c', h, ([], []), c', ⟨rfl, rfl⟩, by rw [List.append_nil], rfl⟩

/-- A text that numbering succeeds with has no problem, and its tree is that of a walk. -/
theorem coded_of_fixText {dedent : Bool} {source : String} {s s' : Series} {o : Outcome}
    (h : fixText dedent source s = (.ok o, s')) :
    (parse (numberedText dedent source)).errors = [] ∧
      Coded s.current [(parse (numberedText dedent source)).tree] [o.tree]
        (o.fixes.map Fix.facts) s'.current := by
  obtain ⟨herrors, -, line, hrun⟩ := fixText_eq_ok_iff.1 h
  exact ⟨herrors, coded_of_run (renumberAll_singleton_eq_ok_iff.2 ⟨_, rfl, hrun⟩)⟩

/-- Numbering succeeds with a text without problems when there is a walk of its tree. -/
theorem fixText_of_coded {dedent : Bool} {source : String} {s s' : UInt64} {ts : List Tree}
    {fs : List (UInt64 × FixKind × Shape)}
    (herrors : (parse (numberedText dedent source)).errors = [])
    (h : Coded s [(parse (numberedText dedent source)).tree] ts fs s') :
    ∃ o, fixText dedent source ⟨s⟩ = (.ok o, ⟨s'⟩) ∧ ts = [o.tree] ∧
      o.fixes.map Fix.facts = fs := by
  obtain ⟨fixes, line', hfs, hrun⟩ := run_of_coded h 1
  obtain ⟨t', rfl, hroot⟩ := renumberAll_singleton_eq_ok_iff.1 hrun
  exact ⟨⟨source, t', fixes⟩, fixText_eq_ok_iff.2 ⟨herrors, rfl, line', hroot⟩, rfl, hfs⟩

/-! ## Going through trees -/

theorem sizeOf_append (ts us : List Tree) : sizeOf (ts ++ us) + 1 = sizeOf ts + sizeOf us := by
  induction ts with
  | nil => simp only [List.nil_append, List.nil.sizeOf_spec]; omega
  | cons t ts ih => simp only [List.cons_append, List.cons.sizeOf_spec]; omega

/-- What holds of tokens, goes on from lists of trees to longer ones and from what is below a node to
the node, holds of all trees. A call is given by its parts; of the arguments, what holds of fewer trees
may be used. -/
theorem forest_induction {P : List Tree → Prop} (nil : P []) (token : ∀ t, P [.token t])
    (append : ∀ ts us, P ts → P us → P (ts ++ us))
    (plain : ∀ k cs, (node k cs).call? = none → P cs → P [node k cs])
    (call : ∀ shape callee us trailing a f, Callee shape callee → solid trailing = [] →
      Args us a f → P callee → (∀ ts, sizeOf ts < sizeOf us → P ts) → P trailing →
        P [node .powerExpr (callee ++ node .callTrailer us :: trailing)]) (ts : List Tree) :
    P ts := by
  generalize hn : sizeOf ts = n
  induction n using Nat.strongRecOn generalizing ts with
  | ind n ih =>
    match ts with
    | [] => exact nil
    | t :: u :: ts =>
      have hpos : 0 < sizeOf ts := by
        cases ts <;> simp only [List.nil.sizeOf_spec, List.cons.sizeOf_spec] <;> omega
      simp only [List.cons.sizeOf_spec] at hn
      refine append [t] (u :: ts) (ih (sizeOf [t]) ?_ _ rfl) (ih (sizeOf (u :: ts)) ?_ _ rfl) <;>
        simp only [List.cons.sizeOf_spec, List.nil.sizeOf_spec] <;> omega
    | [.token t] => exact token t
    | [.node k cs] =>
      simp only [List.cons.sizeOf_spec, node.sizeOf_spec] at hn
      cases hcall : (node k cs).call? with
      | none => exact plain k cs hcall (ih (sizeOf cs) (by omega) cs rfl)
      | some c =>
        obtain ⟨callee, us, trailing, a, f, hnode, hcallee, htrailing, hargs, -⟩ :=
          call?_eq_some_iff.1 hcall
        injection hnode with hk hcs
        subst hk hcs
        have hsize := sizeOf_append callee (node .callTrailer us :: trailing)
        simp only [List.cons.sizeOf_spec, node.sizeOf_spec] at hsize
        exact call c.shape callee us trailing a f hcallee htrailing hargs
          (ih (sizeOf callee) (by omega) callee rfl)
          (fun ts hts => ih (sizeOf ts) (by omega) ts rfl)
          (ih (sizeOf trailing) (by omega) trailing rfl)

end Tree

end Renumber
