import Renumber.Proofs.Grammar.Bare
import Renumber.Proofs.Grammar.Descent
import Renumber.Proofs.Grammar.Seam
import Renumber.Proofs.Layout.Inside

/-!
# A line of anything

Whatever stands on a line, as long as it does not start like a statement of several lines: it is read as one
simple statement, up to the end of the line and no further. What a simple statement is made of takes no end of
a line (`Makes.exists_rest`), and what it leaves of the line is taken along as what could not be read, with
the end of the line (`exists_makes_lineEnd`). So a file goes on behind the line as it would have without the
line, and all its faults are on the line (`exists_makes_file_line`).
-/

namespace Renumber.Grammar

open Phrase
open Renumber.Tree (leavesOf)

/-! ## What is next -/

section
variable {ys zs : List Token} {k : Kind}

/-- Tokens none of which is of the kind of the next one are trivia. -/
theorem trivia_of_nextKind_append (h : nextKind (ys ++ zs) = k) (hys : ∀ y ∈ ys, y.kind ≠ k) :
    ∀ y ∈ ys, y.kind.isTrivia = true := by
  cases hu : upcoming ys with
  | nil => exact trivia_of_upcoming_eq_nil hu
  | cons y us =>
    have hmem : y ∈ ys := (upcoming_suffix ys).subset (hu ▸ List.mem_cons_self)
    exact absurd ((nextKind_of_upcoming (upcoming_append_of_cons hu zs)).symm.trans h) (hys y hmem)

theorem nextKind_append_ne (hys : ∀ y ∈ ys, y.kind ≠ k) (hzs : nextKind zs ≠ k) :
    nextKind (ys ++ zs) ≠ k := by
  intro h
  rw [nextKind_congr (upcoming_append_of_trivia (trivia_of_nextKind_append h hys) zs)] at h
  exact hzs h

end

/-! ## Up to the end of a line -/

/-- The kinds of the tokens that stand between lines, and that of the end. -/
def betweenLines : List Kind := [.newline, .indent, .dedent, .eof]

/-- The simple statements behind the first one of a line. -/
def furtherStmts : P :=
  many (is .semicolon) (seq next (branch (.next [.newline, .eof]) done (rule .smallStmt)))

/-- The end of a line, with what stands in front of it and could not be read. -/
def lineEnd : P := choose [(is .newline, next), (is .eof, done)] (seq recover (eat .newline))

section
variable {p : P} {us ys vs : List Token} {t : Token} {r : Reading}

/-- A phrase that takes no end of a line leaves the first one that it is given, with some of the tokens in
front of it, and none of its faults is behind that one. -/
theorem Makes.exists_rest (h : Makes grammar p (us ++ t :: vs) r) (ht : t.kind = .newline)
    (hp : p.spares .newline Rule.admitsInLine .every .every = true) :
    ∃ ys, us = leavesOf r.trees ++ ys ∧ r.rest = ys ++ t :: vs ∧ ∀ f ∈ r.faults, t :: vs <:+ f.rest := by
  have hspared := h.kind_ne_of_spares rfl spared_newline hp (KindSet.has_every _) (KindSet.has_every _)
  obtain ⟨ys, hus, hrest⟩ := Layout.append_eq_append_cons h.leaves_append
    fun hmem => hspared t hmem ht
  refine ⟨ys, hus, hrest, fun f hf => .trans ?_ (h.inOrder.ahead f hf)⟩
  have htrivia : t.kind.isTrivia = false := ht ▸ rfl
  rw [← upcoming_cons_of_not_trivia htrivia vs]
  exact upcoming_suffix_of_suffix ⟨ys, hrest.symm⟩

theorem makes_newline (vs : List Token) (ht : t.kind = .newline) (hys : ∀ y ∈ ys, y.kind.isTrivia = true) :
    (is .newline).holds (ys ++ t :: vs) = true ∧
      Makes grammar next (ys ++ t :: vs) ⟨(ys ++ [t]).map .token, vs, []⟩ := by
  have htrivia : t.kind.isTrivia = false := ht ▸ rfl
  refine ⟨?_, (Reads.of_next hys htrivia).makes⟩
  rw [is, Look.holds, nextKind_congr (upcoming_append_of_trivia hys _), nextKind_cons htrivia, ht]
  rfl

/-- However much of a line is left, the end of the line takes it all. -/
theorem exists_makes_lineEnd (vs : List Token) (ht : t.kind = .newline)
    (hys : ∀ y ∈ ys, y.kind ∉ betweenLines) :
    ∃ r, Makes grammar lineEnd (ys ++ t :: vs) r ∧ r.rest = vs ∧ ∀ f ∈ r.faults, t :: vs <:+ f.rest := by
  have hnext : nextKind (t :: vs) = .newline := (nextKind_cons (ht ▸ rfl) vs).trans ht
  have heof {zs : List Token} (hzs : ∀ z ∈ zs, z ∈ ys) : nextKind (zs ++ t :: vs) ≠ .eof :=
    nextKind_append_ne (fun z hz h => hys z (hzs z hz) (h ▸ by decide)) (hnext ▸ Kind.noConfusion)
  have hne {y : Token} (hy : y ∈ ys) : y.kind ≠ .newline := fun h => hys y hy (h ▸ by decide)
  by_cases hnewline : nextKind (ys ++ t :: vs) = .newline
  · have htrivia := trivia_of_nextKind_append hnewline fun y hy => hne hy
    obtain ⟨hl, hend⟩ := makes_newline vs ht htrivia
    exact ⟨_, .left hl hend, rfl, List.forall_mem_nil _⟩
  · -- What is left up to the end of the line goes into a node of its own.
    have hl : (Look.next [.newline]).holds (ys ++ t :: vs) = false := by
      simpa [Look.holds] using hnewline
    have hl' : (Look.next [.eof]).holds (ys ++ t :: vs) = false := by
      simpa [Look.holds] using heof fun _ => id
    obtain ⟨c, hc⟩ := exists_makes_of_sane (p := many (.not (.next [.newline, .eof])) next)
      (by decide) (upcoming (ys ++ t :: vs))
    have hrecover : Makes grammar recover (ys ++ t :: vs) _ :=
      Makes.fault.seq (Reads.trivia.makes.seq hc.enclose)
    obtain ⟨zs, hzs, hrest, hfaults⟩ := hrecover.exists_rest ht (by decide)
    have hsub : ∀ z ∈ zs, z ∈ ys := fun z hz => hzs ▸ List.mem_append_right _ hz
    have hstop : nextKind c.rest = .newline := by
      have hnot := hc.holds_rest
      have hleft := heof hsub
      rw [← hrest] at hleft
      simpa [Look.holds, hleft] using hnot
    rw [show c.rest = zs ++ t :: vs from hrest] at hstop
    have htrivia := trivia_of_nextKind_append hstop fun z hz => hne (hsub z hz)
    obtain ⟨hend, hlast⟩ := makes_newline vs ht htrivia
    rw [← hrest] at hend hlast
    refine ⟨_, .right hl (.right hl' (hrecover.seq (.left hend hlast))), rfl, fun f hf => ?_⟩
    rw [List.append_nil] at hf
    exact hfaults f hf

/-! ## The line as a statement -/

/-- The words and the sign that start a statement of several lines, or go on with one. -/
def blockStarts : List Kind :=
  [.ifKw, .whileKw, .forKw, .tryKw, .withKw, .defKw, .classKw, .asyncKw, .elifKw, .elseKw, .exceptKw,
   .finallyKw, .atSign]

theorem grammar_simpleStmt : grammar .simpleStmt =
    seq trivia (enclose .simpleStmt (seq (rule .smallStmt) (seq furtherStmts lineEnd))) := rfl

/-- A line is read as one simple statement, whatever stands on it. -/
theorem exists_makes_simpleStmt (ht : t.kind = .newline) (hpending : pending (us ++ t :: vs) = [])
    (hus : ∀ u ∈ us, u.kind ∉ betweenLines) :
    ∃ cs fs, Makes grammar (.rule .simpleStmt) (us ++ t :: vs) ⟨[.node .simpleStmt cs], vs, fs⟩ ∧
      leavesOf cs = us ++ [t] ∧ ∀ f ∈ fs, t :: vs <:+ f.rest := by
  obtain ⟨a, ha⟩ := exists_makes_of_sane (p := .rule .smallStmt) (by decide) (us ++ t :: vs)
  obtain ⟨b, hb⟩ := exists_makes_of_sane (p := furtherStmts) (by decide) a.rest
  obtain ⟨ys, hys, hrest, hfaults⟩ := (ha.seq hb).exists_rest ht (by decide)
  have hleft : ∀ y ∈ ys, y.kind ∉ betweenLines := fun y hy => hus y (hys ▸ List.mem_append_right _ hy)
  obtain ⟨c, hc, rfl, hlast⟩ := exists_makes_lineEnd vs ht hleft
  rw [← show b.rest = ys ++ t :: c.rest from hrest] at hc
  have htrivia : Makes grammar trivia (us ++ t :: c.rest) _ := Reads.trivia.makes
  rw [hpending, upcoming_eq_self_iff.2 hpending] at htrivia
  have hstmt : Makes grammar (.rule .simpleStmt) (us ++ t :: c.rest) _ :=
    (grammar_simpleStmt ▸ htrivia.seq (ha.seq (hb.seq hc)).enclose).rule
  refine ⟨a.trees ++ (b.trees ++ c.trees), a.faults ++ (b.faults ++ c.faults), hstmt, ?_, fun f hf => ?_⟩
  · have hleaves := hstmt.leaves_append
    rw [List.append_cons us t c.rest] at hleaves
    simpa using List.append_cancel_right hleaves
  · rw [← List.append_assoc] at hf
    exact (List.mem_append.1 hf).elim (hfaults f) (hlast f)

/-- The last of some phrases, when the conditions of the others do not hold. -/
theorem Makes.choose {cases : List (Look × P)} {q : P} {ts : List Token}
    (hcases : ∀ c ∈ cases, c.1.holds ts = false) (h : Makes grammar q ts r) :
    Makes grammar (Grammar.choose cases q) ts r := by
  induction cases with
  | nil => exact h
  | cons c cases ih =>
    exact .right (hcases c List.mem_cons_self) (ih fun d hd => hcases d (List.mem_cons_of_mem _ hd))

theorem Makes.choose_of_within {cases : List (Look × P)} {q : P} {ts : List Token} {ks : List Kind}
    (hcases : cases.all (fun c => (c.1.may true).within (.of ks)) = true) (hts : nextKind ts ∉ ks)
    (h : Makes grammar q ts r) : Makes grammar (Grammar.choose cases q) ts r :=
  choose (fun c hc => Look.not_holds_of_within (List.all_eq_true.1 hcases c hc) hts) h

/-- A simple statement is one of the statements of a file. -/
theorem Makes.fileItem {ts : List Token} (h : Makes grammar (.rule .simpleStmt) ts r)
    (hblock : nextKind ts ∉ blockStarts) (hlayout : nextKind ts ∉ betweenLines) :
    Makes grammar fileItem ts r :=
  .choose_of_within (by decide +kernel) hlayout
    (.rule (.choose_of_within (by decide +kernel) hblock h))

end

/-- A file in which a line follows on whole statements, and other statements on the line: the line is one
simple statement, and the faults are on it. -/
theorem exists_makes_file_line {us₁ us vs : List Token} {u t : Token} {as bs : List Tree}
    (h₁ : Reads (.rule .file) us₁ as []) (hclosed : Token.Closes 0 us₁) (hends : us₁ = [] ∨ Ends us₁)
    (h₂ : Reads (.rule .file) vs bs []) (hu : u.kind.isTrivia = false) (hblock : u.kind ∉ blockStarts)
    (hline : ∀ v ∈ u :: us, v.kind ∉ betweenLines) (ht : t.kind = .newline) :
    ∃ cs fs, Makes grammar (.rule .file) (us₁ ++ (u :: us ++ t :: vs)) ⟨as ++ .node .simpleStmt cs :: bs, [], fs⟩ ∧
      leavesOf cs = u :: us ++ [t] ∧ ∀ f ∈ fs, t :: vs <:+ f.rest ∧ f.rest <:+ u :: us ++ t :: vs := by
  have hlayout := hline u List.mem_cons_self
  have hnext : nextKind (u :: us ++ t :: vs) = u.kind := nextKind_cons hu _
  have hbare : pending (u :: us ++ t :: vs) = [] :=
    upcoming_eq_self_iff.1 (upcoming_cons_of_not_trivia hu _)
  obtain ⟨cs, fs, hstmt, hleaves, hfaults⟩ := exists_makes_simpleStmt ht hbare hline
  obtain ⟨ds, es, xs, hitems, htrivia, rfl⟩ := reads_file_iff.1 h₂
  have hloop : (Look.not (is .eof)).holds (u :: us ++ t :: vs) = true := by
    have heof : u.kind ≠ .eof := fun h => hlayout (h ▸ by decide)
    rw [is, Look.holds, Look.holds, hnext]
    simpa using heof
  have hfresh : Fresh (u :: us ++ t :: vs) :=
    ⟨hbare, hnext ▸ fun hmem => hblock ((by decide : joins ⊆ blockStarts) hmem)⟩
  have hbehind : Makes grammar fileItems (u :: us ++ t :: vs) _ :=
    .again hloop (hstmt.fileItem (hnext ▸ hblock) (hnext ▸ hlayout)) hitems.makes
  have hfile : Makes grammar (.rule .file) (us₁ ++ (u :: us ++ t :: vs)) _ := .rule (grammar_file ▸
    (makes_fileItems_append (fileItems_of_file h₁ hends) hclosed hends hfresh hbehind).seq htrivia.makes)
  refine ⟨cs, fs, by simpa using hfile, hleaves, fun f hf => ⟨hfaults f hf, ?_⟩⟩
  obtain ⟨n, hn⟩ := hstmt.exists_read
  exact Reading.suffix_of_mem_faults hn hf

end Renumber.Grammar
