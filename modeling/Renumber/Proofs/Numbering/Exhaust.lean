import Renumber.Proofs.Numbering.Overwrite

/-!
# How numbering ends

Numbering a text ends in one of three ways (`fixText_ends`). It is refused for a problem of the text,
before a code is drawn; it succeeds, and the series has moved on by one for each call that is kept; or the
series runs out on the way, and then stands at the last code there is. Nothing else can stop it: every call
that is found can be written into (`Tree.write_of_call?`), whatever has been written around it before, so a
walk that fails has failed to draw a code (`Tree.exhausted_of_run`).
-/

namespace Renumber

namespace Numbering

variable {α β : Type}

/-- Two steps fail if the first does, or else the second. -/
theorem bind_eq_error {m : Numbering α} {f : α → Numbering β} {c c' : Cursor} {e : Failure}
    (h : (m >>= f).run.run c = (.error e, c')) : m.run.run c = (.error e, c') ∨
      ∃ a c₁, m.run.run c = (.ok a, c₁) ∧ (f a).run.run c₁ = (.error e, c') := by
  rw [run_bind] at h
  cases hm : m.run.run c with
  | mk r c₁ =>
    rw [hm] at h
    cases r with
    | ok a => exact .inr ⟨a, c₁, rfl, h⟩
    | error e' =>
      cases h
      exact .inl rfl

theorem pure_ne_error {a : α} {c c' : Cursor} {e : Failure} :
    (pure a : Numbering α).run.run c ≠ (.error e, c') := by
  intro h
  cases h

/-- There is no code only after the last one. -/
theorem draw_eq_error {c c' : Cursor} {e : Failure} (h : draw.run.run c = (.error e, c')) :
    e = .seriesExhausted Series.last ∧ c'.series.current = Series.last := by
  unfold draw at h
  rcases bind_eq_error h with h | ⟨a, c₁, hget, h⟩
  · cases h
  · obtain ⟨rfl, rfl⟩ := get_eq_ok_iff.1 hget
    by_cases hlast : c.series.current = Series.last
    · have hnext : c.series.next = .error (.seriesExhausted c.series.current) := if_pos hlast
      rw [hnext, hlast] at h
      cases h
      exact ⟨rfl, hlast⟩
    · have hnext : c.series.next = .ok (c.series.current + 1, ⟨c.series.current + 1⟩) := if_neg hlast
      rw [hnext] at h
      cases h

theorem record_eq_error {call : Call} {t : Tree} {c c' : Cursor} {e : Failure}
    (h : (record call t).run.run c = (.error e, c')) :
    e = .seriesExhausted Series.last ∧ c'.series.current = Series.last := by
  unfold record at h
  rcases bind_eq_error h with h | ⟨code, c₁, -, h⟩
  · exact draw_eq_error h
  · rcases bind_eq_error h with h | ⟨cursor, c₂, -, h⟩
    · cases h
    · exact absurd h pure_ne_error

end Numbering

namespace Tree

/-- A walk that fails has run out of codes. -/
theorem exhausted_of_run {ts : List Tree} {c c' : Cursor} {e : Failure}
    (h : (renumberAll ts).run.run c = (.error e, c')) :
    e = .seriesExhausted Series.last ∧ c'.series.current = Series.last := by
  refine renumberAll.induct
    (fun t => ∀ c c' e, t.renumber.run.run c = (.error e, c') →
      e = .seriesExhausted Series.last ∧ c'.series.current = Series.last)
    (fun ts => ∀ c c' e, (renumberAll ts).run.run c = (.error e, c') →
      e = .seriesExhausted Series.last ∧ c'.series.current = Series.last)
    ?_ ?_ ?_ ?_ ?_ ts c c' e h
  · intro t c c' e h
    rw [renumber] at h
    rcases Numbering.bind_eq_error h with h | ⟨_, _, -, h⟩
    · cases h
    · exact absurd h Numbering.pure_ne_error
  · intro k cs hcall ih c c' e h
    rw [renumber_plain hcall] at h
    rcases Numbering.bind_eq_error h with h | ⟨_, _, -, h⟩
    · exact ih _ _ _ h
    · exact absurd h Numbering.pure_ne_error
  · intro k cs call hcall ih c c' e h
    rw [renumber_call hcall] at h
    rcases Numbering.bind_eq_error h with h | ⟨fix, c₁, -, h⟩
    · exact Numbering.record_eq_error h
    · rcases Numbering.bind_eq_error h with h | ⟨_, _, -, h⟩
      · exact ih fix _ (write_of_call? hcall ..) _ _ _ h
      · exact absurd h Numbering.pure_ne_error
  · intro c c' e h
    rw [renumberAll] at h
    exact absurd h Numbering.pure_ne_error
  · intro t ts iht ihts c c' e h
    rw [renumberAll_cons] at h
    rcases Numbering.bind_eq_error h with h | ⟨_, c₁, -, h⟩
    · exact iht _ _ _ h
    · rcases Numbering.bind_eq_error h with h | ⟨_, _, -, h⟩
      · exact ihts _ _ _ h
      · exact absurd h Numbering.pure_ne_error

/-- There is no call between parentheses without arguments. -/
theorem powersOf_of_empty {us : List Tree} {p : List Nat} {f : UInt64 → List Tree}
    (h : Framed us (.empty p) f) : powersOf us = 0 := by
  cases h with
  | empty F => rw [powersOf_append, F.powersOf_before, F.powersOf_after]

/-- A walk that ends well has drawn one code for each call that is kept, and all of them were there. -/
theorem length_of_coded {ts ts' : List Tree} {s s' : UInt64}
    {fs : List (UInt64 × FixKind × Shape)} (hreg : ∀ t ∈ ts, t.Regular) (h : Coded s ts ts' fs s')
    (p : List Nat) (i : Nat) : fs.length = (kept (callsFrom p i ts)).length ∧
      s'.toNat = s.toNat + fs.length := by
  induction ts using forest_induction generalizing s s' ts' fs p i with
  | nil =>
    obtain ⟨rfl, rfl, rfl⟩ := coded_nil_iff.1 h
    rw [callsFrom_nil, kept_nil]
    exact ⟨rfl, rfl⟩
  | token t =>
    have hquiet : powersOf [token t] = 0 := by simp
    obtain ⟨rfl, rfl, rfl⟩ := (coded_quiet_iff hquiet).1 h
    rw [callsFrom_eq_nil hquiet, kept_nil]
    exact ⟨rfl, rfl⟩
  | append ts us ihts ihus =>
    obtain ⟨_, _, f₁, f₂, _, rfl, rfl, hts, hus⟩ := coded_append_iff.1 h
    obtain ⟨hl₁, hs₁⟩ := ihts (fun t ht => hreg t (List.mem_append_left _ ht)) hts p i
    obtain ⟨hl₂, hs₂⟩ := ihus (fun t ht => hreg t (List.mem_append_right _ ht)) hus p (i + ts.length)
    rw [kept_callsFrom_append, List.length_append, List.length_append]
    omega
  | plain k cs hcall ih =>
    obtain ⟨_, _, f₁, _, _, rfl, rfl, hcs, hnil⟩ := (coded_plain_iff hcall).1 h
    obtain ⟨rfl, rfl, rfl⟩ := coded_nil_iff.1 hnil
    rw [callsFrom_cons, callsAt_plain _ hcall, callsFrom_nil, List.append_nil, List.append_nil]
    exact ih (fun c hc => (hreg _ List.mem_cons_self).of_mem hc) hcs _ _
  | call shape callee us trailing c f hcallee htrailing hargs _ ih _ =>
    obtain ⟨hcallee0, husr, htrailing0⟩ := quiet_of_call (hreg _ List.mem_cons_self) hcallee htrailing
    obtain ⟨hs, us', gs, rfl, rfl, hus⟩ :=
      (coded_call_quiet_iff hcallee htrailing hargs hcallee0 htrailing0).1 h
    have hnext : (s + 1).toNat = s.toNat + 1 :=
      (Series.toNat_next (s := ⟨s⟩) (if_neg hs)).1
    rw [callsFrom_call hcallee htrailing hargs hcallee0 htrailing0, kept_cons, kept_spared,
      List.length_cons, List.length_cons]
    rcases (framed_of_args hargs husr).exists_message with ⟨F, q, rfl, rfl⟩ |
      ⟨F, mid, m, -, hmid, -, hmr, hsize, rfl, -, hspared⟩
    · have hquiet : powersOf (F.fill [numberLiteral (s + 1)]) = 0 := by
        simp [F.powersOf_fill, numberLiteral]
      obtain ⟨rfl, rfl, rfl⟩ := (coded_quiet_iff hquiet).1 hus
      rw [callsFrom_eq_nil (powersOf_of_empty (framed_of_args hargs husr)), kept_nil]
      exact ⟨rfl, hnext⟩
    · obtain ⟨ms, rfl, hm⟩ := (F.coded_message_iff hmid).1 hus
      obtain ⟨q, j, hmessage⟩ := hspared (p ++ [i])
        (node .powerExpr (callee ++ node .callTrailer us :: trailing)) shape callee.length
      rw [hmessage]
      have := ih [m] hsize (List.forall_mem_singleton.2 hmr) hm q j
      omega

end Tree

/-! ## Texts -/

/-- The numbering of a text that has problems is refused because of the first of them, and no code is
drawn. -/
theorem fixText_of_cons_errors {dedent : Bool} {source : String} {e : ParseError}
    {es : List ParseError} (h : (parse (numberedText dedent source)).errors = e :: es) (s : Series) :
    fixText dedent source s = (.error (e.failure (numberedText dedent source)), s) := by
  unfold fixText
  dsimp only
  rw [h]

theorem fixText_of_errors {dedent : Bool} {source : String}
    (herrors : (parse (numberedText dedent source)).errors ≠ []) (s : Series) :
    ∃ message line column,
      fixText dedent source s = (.error (.parse Failure.inMemory message line column), s) := by
  obtain ⟨e, es, he⟩ := List.exists_cons_of_ne_nil herrors
  exact ⟨_, _, _, fixText_of_cons_errors he s⟩

/-- The numbering of a text without problems fails only if the series runs out. -/
theorem exhausted_of_fixText {dedent : Bool} {source : String} {s s' : Series} {f : Failure}
    (herrors : (parse (numberedText dedent source)).errors = [])
    (h : fixText dedent source s = (.error f, s')) :
    f = .seriesExhausted Series.last ∧ s'.current = Series.last := by
  unfold fixText at h
  dsimp only at h
  rw [herrors] at h
  dsimp only at h
  cases hrun : (parse (numberedText dedent source)).tree.renumber.run.run ⟨s, 1⟩ with
  | mk result cursor =>
    rw [hrun] at h
    cases result with
    | ok r => cases h
    | error e =>
      cases h
      have hwalk : (Tree.renumberAll [(parse (numberedText dedent source)).tree]).run.run ⟨s, 1⟩ =
          (.error f, cursor) := by
        rw [Tree.renumberAll_cons, Numbering.run_bind, hrun]
      exact Tree.exhausted_of_run hwalk

/-- A text that is numbered has no problem, and each call that is kept took one code. -/
theorem length_of_fixText {dedent : Bool} {source : String} {s s' : Series} {o : Outcome}
    (h : fixText dedent source s = (.ok o, s')) :
    (parse (numberedText dedent source)).errors = [] ∧
      o.fixes.length = (Tree.kept (parse (numberedText dedent source)).tree.calls).length ∧
      s'.current.toNat = s.current.toNat +
        (Tree.kept (parse (numberedText dedent source)).tree.calls).length := by
  obtain ⟨herrors, hcoded⟩ := Tree.coded_of_fixText h
  generalize numberedText dedent source = text at herrors hcoded ⊢
  obtain ⟨cs, hroot⟩ : ∃ cs, (parse text).tree = .node .module cs := ⟨_, rfl⟩
  have hreg := regular_parse text
  rw [hroot] at hcoded hreg
  rw [hroot, Tree.calls_module]
  obtain ⟨cs', -, hcs⟩ := Tree.coded_module_iff.1 hcoded
  have hregs (t : Tree) (ht : t ∈ cs) : t.Regular := hreg.of_mem ht
  obtain ⟨hlength, hlast⟩ := Tree.length_of_coded hregs hcs [] 0
  rw [List.length_map] at hlength hlast
  exact ⟨herrors, hlength, by rw [hlast, hlength]⟩

/-- A series that does not have a code for every call that is kept runs out, and stands at the last code. -/
theorem fixText_of_exhausted {dedent : Bool} {source : String} {s : Series}
    (herrors : (parse (numberedText dedent source)).errors = [])
    (hroom : 2 ^ 64 - 1 <
      s.current.toNat + (Tree.kept (parse (numberedText dedent source)).tree.calls).length) :
    fixText dedent source s = (.error (.seriesExhausted Series.last), ⟨Series.last⟩) := by
  rcases hfix : fixText dedent source s with ⟨f | o, s'⟩
  · obtain ⟨rfl, hs'⟩ := exhausted_of_fixText herrors hfix
    rw [← hs']
  · have hlast := (length_of_fixText hfix).2.2
    have := s'.current.toNat_lt
    omega

/-- How the numbering of a text ends. With a problem in the text it is refused, and the series stays as it
was. Without one, a series that has a code for every call that is kept goes on by as many codes; any other
series runs out and stands at the last code. These are all the ways there are, so numbering succeeds if
and only if the text has no problem and there are codes enough. -/
theorem fixText_ends (dedent : Bool) (source : String) (s : Series) :
    let text := numberedText dedent source
    let n := (Tree.kept (parse text).tree.calls).length
    ((∃ o s', fixText dedent source s = (.ok o, s')) ↔
      (parse text).errors = [] ∧ s.current.toNat + n ≤ 2 ^ 64 - 1) ∧
    (∀ o s', fixText dedent source s = (.ok o, s') →
      o.fixes.length = n ∧ s'.current.toNat = s.current.toNat + n) ∧
    ((parse text).errors ≠ [] → ∃ message line column,
      fixText dedent source s = (.error (.parse Failure.inMemory message line column), s)) ∧
    ((parse text).errors = [] → 2 ^ 64 - 1 < s.current.toNat + n → ∃ last,
      fixText dedent source s = (.error (.seriesExhausted last), ⟨last⟩) ∧
        last.toNat = 2 ^ 64 - 1) := by
  intro text n
  have hok {o : Outcome} {s' : Series} (h : fixText dedent source s = (.ok o, s')) :
      (parse text).errors = [] ∧ o.fixes.length = n ∧ s'.current.toNat = s.current.toNat + n :=
    length_of_fixText h
  refine ⟨⟨?_, ?_⟩, fun o s' h => (hok h).2, fun h => fixText_of_errors h s, ?_⟩
  · rintro ⟨o, s', h⟩
    obtain ⟨herrors, -, hlast⟩ := hok h
    have := s'.current.toNat_lt
    exact ⟨herrors, by omega⟩
  · exact fun ⟨herrors, hroom⟩ => exists_fixText herrors (Nat.lt_of_le_pred (by decide) hroom)
  · exact fun herrors hroom => ⟨Series.last, fixText_of_exhausted herrors hroom, rfl⟩

end Renumber
