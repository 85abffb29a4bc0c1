import Renumber.Proofs.Numbering.Exhaust
import Renumber.Proofs.Run.Settle

/-!
# Sources numbered in turn

Sources that are numbered in turn with one series get consecutive codes, whatever becomes of some of
them (`codes_in_turn`). A source that cannot be read or that has a problem draws no code. A source that
runs the series out draws codes that come into no text, but then the series stands at its last code
(`Run.fixFile_cases`), so nothing is drawn behind the codes that are lost (`Run.codesOf_inTurn_last`).
-/

namespace Renumber

/-- A walk that ends well gives consecutive codes, and the series stands at the last one. -/
theorem Tree.Coded.consecutive {s s' : UInt64} {ts ts' : List Tree}
    {fs : List (UInt64 × FixKind × Shape)} (h : Tree.Coded s ts ts' fs s') :
    fs.map (fun f => f.1.toNat) = List.range' (s.toNat + 1) fs.length ∧
      s'.toNat = s.toNat + fs.length := by
  induction h with
  | nil => exact ⟨rfl, rfl⟩
  | token h ih => exact ih
  | @plain s s₁ s' k cs cs' ts ts' fs gs hcall hcs hts ih ih' =>
    obtain ⟨hfs, hs₁⟩ := ih
    obtain ⟨hgs, hs'⟩ := ih'
    refine ⟨?_, by rw [List.length_append]; omega⟩
    rw [List.map_append, List.length_append, hfs, hgs, hs₁, ← List.range'_append_1,
      Nat.add_right_comm]
  | @call s s₁ s' k cs cs' ts ts' c fs gs hcall hs hcs hts ih ih' =>
    have hnext : (s + 1).toNat = s.toNat + 1 := (Series.toNat_next (s := ⟨s⟩) (if_neg hs)).1
    obtain ⟨hfs, hs₁⟩ := ih
    obtain ⟨hgs, hs'⟩ := ih'
    have hafter : s.toNat + 1 + 1 + fs.length = s₁.toNat + 1 := by omega
    refine ⟨?_, by rw [List.length_append, List.length_cons]; omega⟩
    rw [List.map_append, List.map_cons, List.length_append, List.length_cons, hfs, hgs, hnext,
      ← hafter, Nat.add_right_comm fs.length, List.range'_succ, List.cons_append,
      List.range'_append_1]

/-- The codes of an outcome. -/
def Outcome.codes (o : Outcome) : List Nat := o.fixes.map fun f => f.code.toNat

namespace Run

/-- The codes that came into texts, in the order of the texts. -/
def codesOf (results : List (Except Failure Outcome)) : List Nat :=
  results.flatMap fun
    | .ok o => o.codes
    | .error _ => []

theorem codesOf_cons_ok (o : Outcome) (results : List (Except Failure Outcome)) :
    codesOf (.ok o :: results) = o.codes ++ codesOf results := rfl

theorem codesOf_cons_error (f : Failure) (results : List (Except Failure Outcome)) :
    codesOf (.error f :: results) = codesOf results := rfl

/-- A source that is numbered gets the next codes. One that runs the series out leaves it at its last
code. Any other failure leaves the series as it was. -/
theorem fixFile_cases (d : Disk) (dedent : Bool) (p : Path) (s : Series) :
    (∃ o s', fixFile d dedent p s = (.ok o, s') ∧
      o.codes = List.range' (s.current.toNat + 1) o.fixes.length ∧
      s'.current.toNat = s.current.toNat + o.fixes.length) ∨
    (∃ s', fixFile d dedent p s = (.error (.seriesExhausted Series.last), s') ∧
      s'.current = Series.last) ∨
    ∃ f, fixFile d dedent p s = (.error f, s) ∧ ∀ last, f ≠ .seriesExhausted last := by
  unfold fixFile
  cases d.read p with
  | error e => exact .inr (.inr ⟨_, rfl, fun last h => by cases h⟩)
  | ok text =>
    dsimp only
    by_cases herrors : (parse (numberedText dedent text)).errors = []
    · cases hfix : fixText dedent text s with
      | mk result s' =>
        cases result with
        | ok o =>
          obtain ⟨hcodes, hlast⟩ := (Tree.coded_of_fixText hfix).2.consecutive
          rw [List.map_map, List.length_map] at hcodes
          rw [List.length_map] at hlast
          exact .inl ⟨o, s', rfl, hcodes, hlast⟩
        | error f =>
          obtain ⟨rfl, hs'⟩ := exhausted_of_fixText herrors hfix
          exact .inr (.inl ⟨s', rfl, hs'⟩)
    · obtain ⟨message, line, column, hfix⟩ := fixText_of_errors herrors s
      rw [hfix]
      exact .inr (.inr ⟨_, rfl, fun last h => by cases h⟩)

/-- A series that stood at its last code has given none to a source. -/
theorem fixes_of_last {o : Outcome} {s s' : Series} (hs : s.current = Series.last)
    (hlast : s'.current.toNat = s.current.toNat + o.fixes.length) : o.fixes = [] := by
  have hlt := s'.current.toNat_lt
  have hmax : s.current.toNat = 2 ^ 64 - 1 := by rw [hs]; rfl
  exact List.length_eq_zero_iff.1 (by omega)

/-- A series at its last code has none for a source. -/
theorem fixes_inTurn_last {d : Disk} {dedent : Bool} {s : Series} {sources : List Source}
    (hs : s.current = Series.last) {o : Outcome} (ho : .ok o ∈ inTurn d dedent s sources) :
    o.fixes = [] := by
  induction sources generalizing s with
  | nil => cases ho
  | cons x sources ih =>
    rw [inTurn] at ho
    rcases fixFile_cases d dedent x.path s with ⟨o', s', hfix, -, hlast⟩ | ⟨s', hfix, hs'⟩ |
      ⟨f, hfix, -⟩ <;> rw [hfix] at ho <;> dsimp only at ho
    · have hnone := fixes_of_last hs hlast
      rcases List.mem_cons.1 ho with heq | ho
      · exact Except.ok.inj heq ▸ hnone
      · rw [hnone, List.length_nil, Nat.add_zero, UInt64.toNat_inj] at hlast
        exact ih (hlast.trans hs) ho
    · rcases List.mem_cons.1 ho with heq | ho
      · cases heq
      · exact ih hs' ho
    · rcases List.mem_cons.1 ho with heq | ho
      · cases heq
      · exact ih hs ho

theorem codesOf_inTurn_last {d : Disk} {dedent : Bool} {s : Series} {sources : List Source}
    (hs : s.current = Series.last) : codesOf (inTurn d dedent s sources) = [] := by
  rw [codesOf, List.flatMap_eq_nil_iff]
  rintro (f | o) ho
  · rfl
  · exact (congrArg (List.map _) (fixes_inTurn_last hs ho)).trans rfl

theorem codesOf_inTurn (d : Disk) (dedent : Bool) (s : Series) (sources : List Source) :
    codesOf (inTurn d dedent s sources) =
      List.range' (s.current.toNat + 1) (codesOf (inTurn d dedent s sources)).length := by
  induction sources generalizing s with
  | nil => rfl
  | cons x sources ih =>
    rw [inTurn]
    rcases fixFile_cases d dedent x.path s with ⟨o, s', hfix, hcodes, hlast⟩ | ⟨s', hfix, hs'⟩ |
      ⟨f, hfix, -⟩ <;> rw [hfix] <;> dsimp only
    · have hlength : o.codes.length = o.fixes.length := List.length_map _
      rw [codesOf_cons_ok, List.length_append, hlength, ← List.range'_append_1, ← hcodes,
        Nat.add_right_comm, ← hlast, ← ih s']
    · rw [codesOf_cons_error, codesOf_inTurn_last hs']
      rfl
    · rw [codesOf_cons_error, ← ih s]

theorem pairwise_inTurn (d : Disk) (dedent : Bool) (s : Series) (sources : List Source) :
    (inTurn d dedent s sources).Pairwise fun earlier later =>
      ∀ last o, earlier = .error (.seriesExhausted last) → later = .ok o → o.fixes = [] := by
  induction sources generalizing s with
  | nil => exact .nil
  | cons x sources ih =>
    rw [inTurn, List.pairwise_cons]
    refine ⟨fun later hlater last o hx ho => ?_, ih _⟩
    subst ho
    rcases fixFile_cases d dedent x.path s with ⟨o', s', hfix, -⟩ | ⟨s', hfix, hs'⟩ |
      ⟨f, hfix, hother⟩ <;> rw [hfix] at hx hlater
    · cases hx
    · exact fixes_inTurn_last hs' hlater
    · exact absurd (Except.error.inj hx) (hother last)

end Run

/-- Whatever becomes of sources that are numbered in turn with one series, the codes that come into
texts are the ones after the seed, without a gap and without a repeat. Once a source has run the series
out, no source after it gets a code. -/
theorem codes_in_turn (d : Disk) (dedent : Bool) (seed : UInt64) (sources : List Source) :
    let results := Run.inTurn d dedent ⟨seed⟩ sources
    Run.codesOf results = List.range' (seed.toNat + 1) (Run.codesOf results).length ∧
      results.Pairwise fun earlier later =>
        ∀ last o, earlier = .error (.seriesExhausted last) → later = .ok o → o.fixes = [] :=
  ⟨Run.codesOf_inTurn d dedent ⟨seed⟩ sources, Run.pairwise_inTurn d dedent ⟨seed⟩ sources⟩

end Renumber
