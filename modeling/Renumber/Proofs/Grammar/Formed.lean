import Renumber.Proofs.Grammar.Survey

/-!
# Trees of clean readings

A suite that opens a block closes it, because the tokens of a source close all blocks: behind the statements of
the block the end cannot be next, so it is the mark that closes the block (`Reads.block_parts`). For the same reason
no such mark stands among the statements of a file. So what a source without problems is read as is formed
(`formed_parse`).
-/

namespace Renumber

namespace Grammar

open Phrase

/-! ## Suites -/

/-- The next token with the trivia in front of it, when it is there. -/
theorem Reads.exists_next {ts us : List Token} {as : List Tree} (h : Reads Phrase.next ts as us)
    (hts : nextKind ts ≠ .eof) : ∃ ws t, (∀ w ∈ ws, w.kind.isTrivia = true) ∧ t.kind = nextKind ts ∧
      ts = ws ++ t :: us ∧ as = (ws ++ [t]).map .token := by
  cases h with
  | next =>
    obtain ⟨t, us, hu, ht⟩ := exists_upcoming_of_nextKind rfl hts
    refine ⟨pending ts, t, fun w hw => trivia_of_mem_pending hw, ht, ?_, by rw [hu]; rfl⟩
    rw [hu, List.drop_one, List.tail_cons, ← hu, pending_append_upcoming]

/-- A block that is open is closed by one of the tokens. -/
theorem nextKind_ne_eof_of_closes {d : Nat} {ts : List Token} (h : Token.Closes (d + 1) ts) :
    nextKind ts ≠ .eof := by
  intro hk
  have htrivia := trivia_of_upcoming_eq_nil (upcoming_eq_nil_of_nextKind h.ne_eof hk)
  have hnest := h.nest
  rw [Token.nest_of_trivia htrivia] at hnest
  cases hnest

/-- The statements of a block. -/
def blockItems : P :=
  many (.not (.next [.dedent, .eof])) (choose
    [(is .newline, next), (is .indent, seq (fault .unexpectedIndent) (single .error))]
    (rule .statement))

/-- A block with the marks that open and close it. -/
def block : P := seq next (seq blockItems (eat .dedent))

/-- What a suite holds: a block on lines of its own, or a statement on the same line. -/
def suiteBody : P :=
  branch (is .newline) (seq next (branch (is .indent) block (fault (.expected .indent))))
    (rule .simpleStmt)

theorem grammar_suite : grammar .suite = seq trivia (enclose .suite suiteBody) := rfl

theorem blockItems_surveyed :
    blockItems.survey .every .every Survey.stop = .known ⟨false, true, false⟩ := by
  decide +kernel

section
variable {n : Nat} {ts us : List Token} {as : List Tree}

/-- A block is closed by a mark, since the tokens close all blocks: it is still open behind its statements. -/
theorem Reads.block_parts
    (hsuite : ∀ {ts us : List Token} {as : List Tree}, Reads (.rule .suite) ts as us →
      Ahead n (.of [.newline]) .every ts → (Rule.shape .suite).TrueOf as)
    (h : Reads block ts as us) (hts : Ahead (n + 1) (.of [.indent]) .every ts) :
    ∃ us₁ us₂ as₁ as₂ as₃, Reads Phrase.next ts as₁ us₁ ∧ Reads blockItems us₁ as₂ us₂ ∧
      Reads Phrase.next us₂ as₃ us ∧ nextKind us₂ = .dedent ∧ (∀ c ∈ as₂, c.Formed) ∧
      as = as₁ ++ (as₂ ++ as₃) := by
  have hindent : nextKind ts = .indent := by simpa using hts.next
  cases h with
  | @seq _ _ _ us₁ _ as₁ _ hnext h =>
  cases h with
  | @seq _ _ _ us₂ _ as₂ as₃ hitems heat =>
  obtain ⟨ws, t, hws, ht, rfl, rfl⟩ := hnext.exists_next (by rw [hindent]; exact Kind.noConfusion)
  rw [hindent] at ht
  obtain ⟨d, hd⟩ := hts.closes
  have hd₁ : Token.Closes (d + 1) us₁ :=
    (hd.of_append (Token.nest_of_trivia hws d)).of_cons (by rw [ht]; rfl)
  have hlength : us₁.length ≤ n := by
    have := hts.length
    rw [List.length_append, List.length_cons] at this
    omega
  have hknown := (hitems.trueOf_survey hsuite).1 .every .every Survey.stop []
    ⟨hlength, ⟨d + 1, hd₁⟩, KindSet.has_every _, KindSet.has_every _⟩
    fun _ _ _ _ => Shape.trueOf_nothing
  rw [blockItems_surveyed, List.append_nil] at hknown
  have hformed := Shape.TrueOf.formed hknown
  have hd₂ : Token.Closes (d + 1) us₂ := by
    rw [← hitems.leaves_append] at hd₁
    exact hd₁.of_append (Tree.nest_of_formed hformed _)
  have hdedent : nextKind us₂ = .dedent := by
    have hend : ¬ nextKind us₂ = .dedent → nextKind us₂ = .eof := by
      simpa [Look.holds] using hitems.not_holds
    exact not_not.1 fun h => nextKind_ne_eof_of_closes hd₂ (hend h)
  cases heat with
  | right hl => rw [is, Look.holds, hdedent] at hl; cases hl
  | left _ heat => exact ⟨us₁, us₂, _, as₂, as₃, hnext, hitems, heat, hdedent, hformed, rfl⟩

theorem exists_block
    (hsuite : ∀ {ts us : List Token} {as : List Tree}, Reads (.rule .suite) ts as us →
      Ahead n (.of [.newline]) .every ts → (Rule.shape .suite).TrueOf as)
    (h : Reads block ts as us) (hts : Ahead (n + 1) (.of [.indent]) .every ts) :
    ∃ ws indent dedent cs, (∀ w ∈ ws, w.kind.isTrivia = true) ∧ indent.kind = .indent ∧
      (∀ c ∈ cs, c.Formed) ∧ dedent.kind = .dedent ∧
      as = (ws ++ [indent]).map Tree.token ++ (cs ++ [.token dedent]) := by
  have hindent : nextKind ts = .indent := by simpa using hts.next
  obtain ⟨us₁, us₂, as₁, as₂, as₃, hnext, -, hend, hdedent, hformed, rfl⟩ := h.block_parts hsuite hts
  obtain ⟨ws, t, hws, ht, -, rfl⟩ := hnext.exists_next (by rw [hindent]; exact Kind.noConfusion)
  obtain ⟨ws', u, hws', hu, -, rfl⟩ := hend.exists_next (by rw [hdedent]; exact Kind.noConfusion)
  refine ⟨ws, t, u, as₂ ++ ws'.map .token, hws, ht.trans hindent, fun c hc => ?_, hu.trans hdedent,
    by simp⟩
  rcases List.mem_append.1 hc with hc | hc
  · exact hformed c hc
  · obtain ⟨w, hw, rfl⟩ := List.mem_map.1 hc
    exact .token (Kind.isMark_of_isTrivia (hws' w hw))

/-- A suite that opens a block closes it. -/
theorem trueOf_suite (h : Reads (.rule .suite) ts as us) (hts : Ahead n (.of [.newline]) .every ts) :
    (Rule.shape .suite).TrueOf as := by
  induction n using Nat.strong_induction_on generalizing ts us as with
  | h n ih =>
    have hsteps : Reads (seq trivia (enclose .suite suiteBody)) ts as us := by
      cases h with
      | rule h => exact grammar_suite ▸ h
    cases hsteps with
    | seq htrivia hnode =>
    cases hnode with
    | enclose hbody =>
    cases htrivia with
    | trivia =>
    have hpending := trueOf_trivia ts
    have hts : Ahead n (.of [.newline]) .every (upcoming ts) := Reads.trivia.ahead hts hpending.formed
    have hnewline : nextKind (upcoming ts) = .newline := by simpa using hts.next
    cases hbody with
    | right hl _ => rw [is, Look.holds, hnewline] at hl; cases hl
    | left _ hbody =>
    cases hbody with
    | @seq _ _ _ us₁ _ _ _ hnext hblock =>
    obtain ⟨ws, t, hws, ht, hus, rfl⟩ := hnext.exists_next (by rw [hnewline]; exact Kind.noConfusion)
    rw [hnewline] at ht
    cases hblock with
    | right _ hfault => cases hfault
    | left hindent hblock =>
    have hlength : us₁.length + 1 ≤ n := by
      have := hts.length
      rw [hus, List.length_append, List.length_cons] at this
      omega
    obtain ⟨m, rfl⟩ : ∃ m, n = m + 1 := ⟨n - 1, by omega⟩
    have hus₁ : Ahead (m + 1) (.of [.indent]) .every us₁ := by
      obtain ⟨d, hd⟩ := hts.closes
      rw [hus] at hd
      refine ⟨by omega, ⟨d, ?_⟩, by simpa [is, Look.holds] using hindent, KindSet.has_every _⟩
      exact (hd.of_append (Token.nest_of_trivia hws d)).of_cons (by rw [ht]; rfl)
    obtain ⟨ws', indent, dedent, cs, hws', hind, hcs, hded, rfl⟩ :=
      exists_block (ih m (Nat.lt_succ_self m)) hblock hus₁
    have hsuite := Tree.Formed.suite hws ht hws' hind hcs hded
    rw [show (ws ++ t :: (ws' ++ [indent])).map Tree.token ++ (cs ++ [.token dedent]) =
      (ws ++ [t]).map .token ++ ((ws' ++ [indent]).map .token ++ (cs ++ [.token dedent])) by simp]
      at hsuite
    exact {
      formed := fun c hc => (List.mem_append.1 hc).elim (hpending.formed c)
        fun h => List.mem_singleton.1 h ▸ hsuite
      takes := fun _ => List.append_ne_nil_of_right_ne_nil _ (List.cons_ne_nil _ _)
      closed := fun _ => Tree.closed_concat _ rfl
      level := fun h => (Bool.false_ne_true h).elim }

/-- What a survey says of a phrase is true of its clean readings. -/
theorem Reads.trueOf_stop {p : P} {s second : KindSet} (h : Reads p ts as us)
    (hts : Ahead n s second ts) : (p.survey s second Survey.stop).TrueOf as := by
  have := (h.trueOf_survey trueOf_suite).1 s second Survey.stop [] hts
    fun _ _ _ _ => Shape.trueOf_nothing
  rwa [List.append_nil] at this

end

/-! ## Files -/

/-- A statement of a file, or a mark that stands in its place. -/
def fileItem : P :=
  choose
    [(is .newline, next), (is .indent, seq (fault .unexpectedIndent) (single .error)),
     (is .dedent, single .error)]
    (rule .statement)

theorem grammar_file : grammar .file = seq (many (.not (is .eof)) fileItem) trivia := rfl

theorem fileItem_surveyed : fileItem.survey (.every \ .of [.dedent, .eof]) .every Survey.stop =
    .known ⟨true, true, false⟩ := by
  decide +kernel

section
variable {ts us : List Token} {as : List Tree}

/-- Where no block is open, none is closed. -/
theorem nextKind_ne_dedent_of_closes (h : Token.Closes 0 ts) : nextKind ts ≠ .dedent := by
  intro hk
  obtain ⟨t, us, hu, ht⟩ := exists_upcoming_of_nextKind hk Kind.noConfusion
  have hnest := h.nest
  rw [← pending_append_upcoming ts, hu, Token.nest_append,
    Token.nest_of_trivia fun w hw => trivia_of_mem_pending hw, Option.bind_some, Token.nest_cons,
    ht] at hnest
  cases hnest

theorem formed_fileItems (h : Reads (many (.not (is .eof)) fileItem) ts as us)
    (hts : Token.Closes 0 ts) : ∀ t ∈ as, t.Formed := by
  generalize hp : many (.not (is .eof)) fileItem = p at h
  induction h with
  | stop => exact List.forall_mem_nil _
  | @again l p ts us vs as bs hl hitem hitems _ ihitems =>
    cases hp
    have hne : nextKind ts ≠ .eof := by simpa [is, Look.holds] using hl
    have hnext : (KindSet.every \ .of [.dedent, .eof]).has (nextKind ts) = true := by
      simp [nextKind_ne_dedent_of_closes hts, hne]
    have hknown := hitem.trueOf_stop ⟨le_rfl, ⟨0, hts⟩, hnext, KindSet.has_every _⟩
    rw [fileItem_surveyed] at hknown
    have hformed := Shape.TrueOf.formed hknown
    rw [← hitem.leaves_append] at hts
    have hrest := ihitems (hts.of_append (Tree.nest_of_formed hformed 0)) rfl
    exact fun t ht => (List.mem_append.1 ht).elim (hformed t) (hrest t)
  | _ => cases hp

/-- What a file is read as without faults is formed, if its tokens close all blocks. -/
theorem formed_file (h : Reads (.rule .file) ts as us) (hts : Token.Closes 0 ts) :
    ∀ t ∈ as, t.Formed := by
  cases h with
  | rule h =>
    cases grammar_file ▸ h with
    | seq hitems htrivia =>
    cases htrivia with
    | trivia =>
      exact fun t ht => (List.mem_append.1 ht).elim (formed_fileItems hitems hts t)
        ((trueOf_trivia _).formed t)

end

end Grammar

/-- The trees of a source without problems are formed. -/
theorem formed_parse {source : String} (h : (parse source).errors = []) :
    ∀ t ∈ (parse source).tree.children, t.Formed :=
  Grammar.formed_file (Grammar.reads_readFile (errors_parse_eq_nil_iff.1 h).2) (closes_tokensOf source)

end Renumber
