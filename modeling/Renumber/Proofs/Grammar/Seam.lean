import Renumber.Proofs.Grammar.Formed

/-!
# Two files, one behind the other

What a file without problems is read as does not change when the tokens of another one follow, if it ends with
the end of a line or of a block (`reads_file_append`). As long as some of its tokens are left, the grammar does
not look past the last of them (`Reads.beyond`). The phrases that take the last token are those of whole lines,
and of statements that end with a block: nothing else reads a mark of the layout. Behind it they only look
whether one of the words follows that go on with a statement (`joins`), and no file without problems starts
with one (`fileItem_refuses`). That this is true of each rule is checked once (`rules_seam`).
-/

namespace Renumber.Grammar

open Phrase

/-! ## What a phrase refuses -/

/-- The phrase has no clean reading in front of a token whose kind is in a set. Rules are followed to some
depth. -/
def Phrase.refuses : Nat → P → KindSet → Bool
  | 0, _, _ => false
  | n + 1, .seq p q, s => p.refuses n s || p == .trivia && q.refuses n s
  | n + 1, .branch l p q, s =>
    ((s ∩ l.may true).isEmpty || p.refuses n (s ∩ l.may true)) &&
      ((s ∩ l.may false).isEmpty || q.refuses n (s ∩ l.may false))
  | n + 1, .enclose _ p, s | n + 1, .adopt p _, s => p.refuses n s
  | n + 1, .rule a, s => (grammar a).refuses n s
  | _ + 1, .fault _, _ => true
  | _ + 1, _, _ => false

/-- A phrase with a clean reading refuses no kind of the token in front of which it is read. -/
theorem Reads.not_refuses {p : P} {ts us : List Token} {as : List Tree} (h : Reads p ts as us) (n : Nat)
    {s : KindSet} (hs : s.has (nextKind ts) = true) : p.refuses n s = false := by
  induction h generalizing n s with
  | @seq p _ _ _ _ _ _ hp _ ihp ihq =>
    cases n with
    | zero => rfl
    | succ n =>
      rw [refuses, ihp n hs, Bool.false_or, Bool.and_eq_false_iff, beq_eq_false_iff_ne]
      by_cases htrivia : p = .trivia
      · subst htrivia
        cases hp with
        | trivia =>
          rw [← nextKind_congr (upcoming_upcoming _)] at hs
          exact .inr (ihq n hs)
      · exact .inl htrivia
  | left hl _ ih =>
    cases n with
    | zero => rfl
    | succ n =>
      have hs := has_inter_may hs hl
      rw [refuses, KindSet.not_isEmpty_of_has hs, ih n hs]
      rfl
  | right hl _ ih =>
    cases n with
    | zero => rfl
    | succ n =>
      have hs := has_inter_may hs hl
      rw [refuses, KindSet.not_isEmpty_of_has hs, ih n hs, Bool.or_false, Bool.and_false]
  | enclose _ ih | adopt _ _ ih | rule _ ih =>
    cases n with
    | zero => rfl
    | succ n => exact ih n hs
  | _ => cases n <;> rfl

/-! ## Behind a statement -/

/-- The words that go on with the statement in front of them. -/
def joins : List Kind := [.elifKw, .elseKw, .exceptKw, .finallyKw]

/-- The condition does not hold at the end, nor in front of anything but a word that goes on with a
statement. -/
def Look.awaits (l : Look) : Bool := (l.may true).within (.of joins)

/-- At the end the phrase reads nothing, and neither in front of anything but a word that goes on with a
statement. -/
def Phrase.rests : P → Bool
  | .done | .trivia | .fault _ => true
  | .seq p q => p.rests && q.rests
  | .branch l _ q => l.awaits && q.rests
  | .many l _ => l.awaits
  | .rule a => a == .elseClause
  | _ => false

/-- The tokens do not start with trivia, nor with a word that goes on with a statement. -/
structure Fresh (ts : List Token) : Prop where
  pending : pending ts = []
  next : nextKind ts ∉ joins

/-- A condition does not hold in front of a token of a kind with which it never does. -/
theorem Look.not_holds_of_within {l : Look} {ks : List Kind}
    (hl : (l.may true).within (.of ks) = true) {ts : List Token} (hts : nextKind ts ∉ ks) :
    l.holds ts = false := by
  cases h : l.holds ts with
  | false => rfl
  | true =>
    have hk := l.may_holds ts
    rw [h] at hk
    exact absurd (by simpa using KindSet.has_of_within hl hk) hts

theorem Look.not_holds_of_awaits {l : Look} (hl : l.awaits = true) {ts : List Token}
    (hts : nextKind ts ∉ joins) : l.holds ts = false := not_holds_of_within hl hts

theorem nextKind_nil : nextKind [] ∉ joins := by decide

/-- A phrase that rests at the end does so in front of other tokens. -/
theorem Reads.rest {p : P} {ts us vs : List Token} {bs : List Tree} (h : Reads p ts bs us)
    (hts : ts = []) (hp : p.rests = true) (hvs : Fresh vs) : bs = [] ∧ us = [] ∧ Reads p vs [] vs := by
  induction h with
  | done => exact ⟨rfl, hts, .done⟩
  | trivia =>
    subst hts
    refine ⟨rfl, rfl, ?_⟩
    have := Reads.of_trivia (List.forall_mem_nil _) (upcoming_eq_self_iff.2 hvs.pending)
    simpa using this
  | seq _ _ ihp ihq =>
    simp only [rests, Bool.and_eq_true] at hp
    obtain ⟨rfl, hus, hreads⟩ := ihp hts hp.1
    obtain ⟨rfl, hvs, hreads'⟩ := ihq hus hp.2
    exact ⟨rfl, hvs, .seq hreads hreads'⟩
  | left hl =>
    subst hts
    simp only [rests, Bool.and_eq_true] at hp
    rw [Look.not_holds_of_awaits hp.1 nextKind_nil] at hl
    cases hl
  | right _ _ ih =>
    simp only [rests, Bool.and_eq_true] at hp
    obtain ⟨rfl, hus, hreads⟩ := ih hts hp.2
    exact ⟨rfl, hus, .right (Look.not_holds_of_awaits hp.1 hvs.next) hreads⟩
  | stop => exact ⟨rfl, hts, .stop (Look.not_holds_of_awaits hp hvs.next)⟩
  | again hl =>
    subst hts
    rw [Look.not_holds_of_awaits hp nextKind_nil] at hl
    cases hl
  | @rule a _ _ _ _ ih =>
    obtain rfl : a = .elseClause := by simpa [rests] using hp
    obtain ⟨rfl, hus, hreads⟩ := ih hts rfl
    exact ⟨rfl, hus, .rule hreads⟩
  | _ => cases hp

/-! ## Tokens up to the end of a line -/

/-- The tokens end with the end of a line or of a block. -/
def Ends (ts : List Token) : Prop := ∃ xs t, ts = xs ++ [t] ∧ (t.kind = .newline ∨ t.kind = .dedent)

section
variable {p : P} {ts us vs : List Token} {as : List Tree}

theorem not_ends_nil : ¬Ends [] := by
  rintro ⟨xs, t, h, -⟩
  simp at h

theorem Ends.of_append {xs ts : List Token} (h : Ends (xs ++ ts)) (hts : ts ≠ []) : Ends ts := by
  obtain ⟨ys, t, hys, ht⟩ := h
  rw [← List.dropLast_append_getLast hts, ← List.append_assoc] at hys
  obtain ⟨-, hlast⟩ := List.append_inj' hys rfl
  exact ⟨ts.dropLast, t, by rw [← hlast, List.dropLast_append_getLast], ht⟩

theorem Ends.exists_upcoming (h : Ends ts) : ∃ u us, upcoming ts = u :: us := by
  obtain ⟨xs, t, rfl, ht⟩ := h
  exact exists_upcoming_append_singleton (by rcases ht with ht | ht <;> rw [ht] <;> rfl) xs

/-- What marks the end of a line or of a block bounds what the grammar looks at. -/
theorem Ends.exists_bound (h : Ends ts) : ∃ xs t, ts = xs ++ t :: [] ∧ t.kind ∈ Look.bounds := by
  obtain ⟨xs, t, rfl, ht⟩ := h
  exact ⟨xs, t, rfl, by rcases ht with ht | ht <;> rw [ht] <;> decide⟩

theorem Ends.holds (h : Ends ts) {l : Look} (hl : l.steady = true) (vs : List Token) :
    l.holds (ts ++ vs) = l.holds ts := by
  obtain ⟨xs, t, rfl, ht⟩ := h.exists_bound
  rw [List.append_assoc, List.singleton_append]
  exact Look.holds_beyond hl ht

/-- A clean reading that leaves the end of a line stays the same when other tokens follow. -/
theorem Reads.append_of_ends (h : Reads p ts as us) (hp : p.sound = true) (hus : Ends us)
    (vs : List Token) : Reads p (ts ++ vs) as (us ++ vs) := by
  obtain ⟨xs, t, hxs, ht⟩ := hus.exists_bound
  have hreads := h.beyond hp hxs ht vs
  rw [← h.leaves_append, hxs]
  simpa using hreads

/-- What holds no mark of the layout does not end with one. -/
theorem Reads.not_level_of_ends (h : Reads p ts as []) (hts : Ends ts) : ¬Tree.Level as := by
  intro hlevel
  obtain ⟨xs, t, rfl, ht⟩ := hts
  have hleaves := h.leaves_append
  rw [List.append_nil] at hleaves
  have hmark := hlevel t (by rw [hleaves]; simp)
  rcases ht with ht | ht <;> rw [ht] at hmark <;> cases hmark

theorem Reads.next_append (h : Reads Phrase.next ts as us) (hts : Ends ts) (vs : List Token) :
    Reads Phrase.next (ts ++ vs) as (us ++ vs) := by
  obtain ⟨u, us, hu⟩ := hts.exists_upcoming
  cases h with
  | next =>
    have hreads : Reads Phrase.next (pending ts ++ u :: (us ++ vs)) _ _ :=
      .of_next (fun w hw => trivia_of_mem_pending hw) (not_trivia_of_upcoming hu)
    rw [← List.cons_append, ← hu, ← List.append_assoc, pending_append_upcoming] at hreads
    rwa [hu, List.take_succ_cons, List.take_zero, List.drop_one, List.tail_cons]

end

/-! ## The check -/

/-- It is certain what the phrase reads, and that it holds no mark of the layout. -/
def Phrase.level (p : P) (s second : KindSet) : Bool :=
  match p.survey s second Survey.stop with
  | .never => true
  | .known a => a.level
  | .unknown => false

/-- The phrase is one whose clean readings the survey knows. -/
def Phrase.surveyed (p : P) (s second : KindSet) : Bool := p.survey s second Survey.stop != .unknown

/-- What reads the last token of a line or of a block rests behind it. The first of two phrases does not read
that token, or the second one is not read at the end, or it rests there. -/
def Phrase.seam : P → KindSet → KindSet → Bool
  | .seq p q, s, second =>
    p.surveyed s second && q.seam (p.after s second).1 (p.after s second).2 &&
      (p.level s second || q.refuses 16 (.of [.eof]) || p.seam s second && q.rests)
  | .branch l p q, s, second =>
    ((s ∩ l.may true).isEmpty || p.seam (s ∩ l.may true) (second ∩ l.maySecond true)) &&
      ((s ∩ l.may false).isEmpty || q.seam (s ∩ l.may false) (second ∩ l.maySecond false))
  | .many l p, _, _ =>
    p.surveyed (l.may true) (l.maySecond true) &&
      (p.level (l.may true) (l.maySecond true) || p.seam (l.may true) (l.maySecond true) && l.awaits)
  | .enclose _ p, s, second => p.seam s second
  | .adopt p q, s, second => (adopt p q).level s second
  | .rule a, s, _ => s.within a.admits
  | _, _, _ => true

theorem rules_seam : rules.all (fun a => !lineRules.contains a || a == .file || a == .suite ||
    (grammar a).seam a.admits .every) = true := by
  decide +kernel

theorem Rule.phrase_seam {a : Rule} {k : Kind} (hk : a.admits.has k = true)
    (hline : lineRules.contains a = true) (ha : a ≠ .suite) : (grammar a).seam a.admits .every = true := by
  have h := List.all_eq_true.1 rules_seam a (Rule.mem_of_admits hk)
  simp only [hline, Bool.not_true, Bool.false_or, Bool.or_eq_true, beq_iff_eq] at h
  rcases h with (rfl | h) | h
  · simp [Rule.admits] at hk
  · exact absurd h ha
  · exact h

/-- A suite that opens no block is what any other rule is. -/
theorem suite_seam : (grammar .suite).seam (.every \ .of [.newline]) .every = true := by
  decide +kernel

theorem fileItem_seam : fileItem.seam (.every \ .of [.dedent, .eof]) .every = true := by
  decide +kernel

/-- No file without problems starts with a word that goes on with a statement, or with a block. -/
theorem fileItem_refuses : fileItem.refuses 64 (.of (.indent :: joins)) = true := by
  decide +kernel

section
variable {n : Nat} {s second : KindSet} {p : P} {ts us vs : List Token} {as : List Tree}

theorem Reads.level (h : Reads p ts as us) (hts : Ahead n s second ts)
    (hp : p.level s second = true) : Tree.Level as := by
  have hknown := h.trueOf_stop hts
  unfold Phrase.level at hp
  cases hsurvey : p.survey s second Survey.stop with
  | never =>
    rw [hsurvey] at hknown
    exact hknown.elim
  | known a =>
    rw [hsurvey] at hp hknown
    exact Shape.TrueOf.level hknown hp
  | unknown =>
    rw [hsurvey] at hp
    cases hp

theorem Reads.formed (h : Reads p ts as us) (hts : Ahead n s second ts)
    (hp : p.surveyed s second = true) : ∀ t ∈ as, t.Formed := by
  have hknown := h.trueOf_stop hts
  unfold surveyed at hp
  cases hsurvey : p.survey s second Survey.stop with
  | never =>
    rw [hsurvey] at hknown
    exact hknown.elim
  | known a =>
    rw [hsurvey] at hknown
    exact Shape.TrueOf.formed hknown
  | unknown =>
    rw [hsurvey] at hp
    cases hp

/-- A suite that ends with its block does so whatever follows. -/
theorem Reads.suite_append (h : Reads (.rule .suite) ts as []) (hts : Ahead n (.of [.newline]) .every ts)
    (hends : Ends ts) (vs : List Token) : Reads (.rule .suite) (ts ++ vs) as vs := by
  have hne {ts : List Token} {k : Kind} (h : nextKind ts = k) (hk : k ≠ .eof) : ts ≠ [] := by
    rintro rfl
    exact hk h.symm
  have hsteps : Reads (Phrase.seq Phrase.trivia (Phrase.enclose .suite suiteBody)) ts as [] := by
    cases h with
    | rule h => exact grammar_suite ▸ h
  cases hsteps with
  | @seq _ _ _ us₀ _ _ _ htrivia hnode =>
  have hus₀ : Ahead n (.of [.newline]) .every us₀ := by
    cases htrivia with
    | trivia => exact Reads.trivia.ahead hts (trueOf_trivia ts).formed
  have hnewline : nextKind us₀ = .newline := by simpa using hus₀.next
  have hends₀ : Ends us₀ :=
    (htrivia.leaves_append ▸ hends).of_append (hne hnewline Kind.noConfusion)
  cases hnode with
  | enclose hbody =>
  cases hbody with
  | right hl _ => rw [is, Look.holds, hnewline] at hl; cases hl
  | left hl hbody =>
  cases hbody with
  | @seq _ _ _ us₁ _ _ _ hnext hblock =>
  cases hblock with
  | right _ hfault => cases hfault
  | left hl₁ hblock =>
  have hindent : nextKind us₁ = .indent := by simpa [is, Look.holds] using hl₁
  have hends₁ : Ends us₁ := (hnext.leaves_append ▸ hends₀).of_append (hne hindent Kind.noConfusion)
  have htrue := hnext.trueOf_next (by rw [hnewline]; exact Kind.noConfusion) (by rw [hnewline]; rfl)
    (fun h => (Bool.false_ne_true h).elim)
  have hus₁ := hnext.ahead hus₀ htrue.formed
  obtain ⟨us₂, us₃, as₁, as₂, as₃, hnext₁, hitems, hend, hdedent, -, rfl⟩ :=
    hblock.block_parts trueOf_suite
      ⟨Nat.le_succ_of_le hus₁.length, hus₁.closes, by simp [hindent], KindSet.has_every _⟩
  have hne₃ : us₃ ≠ [] := hne hdedent Kind.noConfusion
  have hne₂ : us₂ ≠ [] := by
    rintro rfl
    exact hne₃ (List.append_eq_nil_iff.1 hitems.leaves_append).2
  have hends₂ : Ends us₂ := (hnext₁.leaves_append ▸ hends₁).of_append hne₂
  have hends₃ : Ends us₃ := (hitems.leaves_append ▸ hends₂).of_append hne₃
  have hl₃ : (is .dedent).holds us₃ = true := by rw [is, Look.holds, hdedent]; rfl
  have hblock' : Reads block (us₁ ++ vs) (as₁ ++ (as₂ ++ as₃)) vs :=
    .seq (hnext₁.append_of_ends rfl hends₂ vs)
      (.seq (hitems.append_of_ends (by decide) hends₃ vs)
        (.left ((hends₃.holds (by decide) vs).trans hl₃) (hend.next_append hends₃ vs)))
  have hbody' : Reads suiteBody (us₀ ++ vs) _ vs :=
    .left ((hends₀.holds (by decide) vs).trans hl)
      (.seq (hnext.append_of_ends rfl hends₁ vs)
        (.left ((hends₁.holds (by decide) vs).trans hl₁) hblock'))
  exact .rule (.seq (htrivia.append_of_ends rfl hends₀ vs) (.enclose hbody'))

/-- A clean reading that goes up to the last token of a line or of a block stays the same when tokens follow
that do not go on with a statement. -/
theorem Reads.append_fresh (h : Reads p ts as us) (hus : us = []) (hsound : p.sound = true)
    (hts : Ahead n s second ts) (hends : Ends ts) (hp : p.seam s second = true) (hvs : Fresh vs) :
    Reads p (ts ++ vs) as vs := by
  induction h generalizing s second with
  | done =>
    subst hus
    exact absurd hends not_ends_nil
  | trivia =>
    obtain ⟨u, us, hu⟩ := hends.exists_upcoming
    rw [hu] at hus
    cases hus
  | next =>
    have hreads := Reads.next_append .next hends vs
    rwa [hus] at hreads
  | @seq p q ts us ws as bs hpr hqr ihp ihq =>
    simp only [Phrase.seam, Bool.and_eq_true, Bool.or_eq_true] at hp
    simp only [Phrase.sound, Bool.and_eq_true] at hsound
    obtain ⟨⟨hsurveyed, hq⟩, hseam⟩ := hp
    by_cases hnil : us = []
    · subst hnil hus
      rcases hseam with (hlevel | hrefuses) | ⟨hp, hrests⟩
      · exact absurd (hpr.level hts hlevel) (hpr.not_level_of_ends hends)
      · have heof : (KindSet.of [.eof]).has (nextKind []) = true := by decide
        rw [hqr.not_refuses 16 heof] at hrefuses
        cases hrefuses
      · obtain ⟨rfl, -, hrest⟩ := hqr.rest rfl hrests hvs
        exact .seq (ihp rfl hsound.1 hts hends hp) hrest
    · have hus : Ends us := (hpr.leaves_append ▸ hends).of_append hnil
      exact .seq (hpr.append_of_ends hsound.1 hus vs)
        (ihq ‹_› hsound.2 (hpr.ahead hts (hpr.formed hts hsurveyed)) hus hq)
  | @adopt p q ts us ws as bs hpr hqr ihp ihq =>
    subst hus
    exact absurd ((Reads.adopt hpr hqr).level hts hp) ((Reads.adopt hpr hqr).not_level_of_ends hends)
  | left hl _ ih =>
    have hts := (hts.look hl).1
    simp only [Phrase.seam, KindSet.not_isEmpty_of_has hts.next, Bool.false_or, Bool.and_eq_true] at hp
    simp only [Phrase.sound, Bool.and_eq_true] at hsound
    exact .left ((hends.holds hsound.1.1 vs).trans hl) (ih hus hsound.1.2 hts hends hp.1)
  | right hl _ ih =>
    have hts := (hts.look hl).1
    simp only [Phrase.seam, KindSet.not_isEmpty_of_has hts.next, Bool.false_or, Bool.and_eq_true] at hp
    simp only [Phrase.sound, Bool.and_eq_true] at hsound
    exact .right ((hends.holds hsound.1.1 vs).trans hl) (ih hus hsound.2 hts hends hp.2)
  | stop =>
    subst hus
    exact absurd hends not_ends_nil
  | @again l p ts us ws as bs hl hpr hmr ihp ihm =>
    have hseam := hp
    have hsteady := hsound
    simp only [Phrase.seam, Bool.and_eq_true, Bool.or_eq_true] at hp
    simp only [Phrase.sound, Bool.and_eq_true] at hsound
    obtain ⟨hsurveyed, hp⟩ := hp
    have hl' := (hends.holds hsound.1 vs).trans hl
    by_cases hnil : us = []
    · subst hnil hus
      rcases hp with hlevel | ⟨hp, hawaits⟩
      · exact absurd (hpr.level (hts.of_look hl) hlevel) (hpr.not_level_of_ends hends)
      · obtain ⟨rfl, -, hrest⟩ := hmr.rest rfl hawaits hvs
        exact .again hl' (ihp rfl hsound.2 (hts.of_look hl) hends hp) hrest
    · have hus : Ends us := (hpr.leaves_append ▸ hends).of_append hnil
      have hformed := hpr.formed (hts.of_look hl) hsurveyed
      exact .again hl' (hpr.append_of_ends hsound.2 hus vs)
        (ihm ‹_› hsteady (hpr.ahead hts hformed) hus hseam)
  | enclose _ ih =>
    simp only [Phrase.sound, Bool.and_eq_true] at hsound
    exact .enclose (ih hus hsound.2 hts hends hp)
  | @rule a ts us as hr ih =>
    subst hus
    have hwithin : s.within a.admits = true := hp
    have hk := KindSet.has_of_within hwithin hts.next
    have hsound' := Rule.phrase_sound hsound
    by_cases hline : lineRules.contains a = true
    · by_cases ha : a = .suite
      · subst ha
        by_cases hnewline : nextKind ts = .newline
        · exact Reads.suite_append (.rule hr)
            { hts with next := by simp [hnewline], second := KindSet.has_every _ } hends vs
        · have hts' : Ahead n (.every \ .of [.newline]) .every ts :=
            { hts with next := by simp [hnewline], second := KindSet.has_every _ }
          exact .rule (ih rfl hsound' hts' hends suite_seam)
      · have hts' : Ahead n a.admits .every ts :=
          { hts with next := hk, second := KindSet.has_every _ }
        exact .rule (ih rfl hsound' hts' hends (Rule.phrase_seam hk hline ha))
    · have hlevel : (Phrase.rule a).level s second = true := by
        rw [Phrase.level, Phrase.survey, if_pos hwithin]
        show (!lineRules.contains a && true) = true
        simpa using hline
      exact absurd ((Reads.rule hr).level hts hlevel) ((Reads.rule hr).not_level_of_ends hends)

end

/-! ## Files -/

/-- The statements of a file. -/
def fileItems : P := many (.not (is .eof)) fileItem

section
variable {us vs ws : List Token} {as bs : List Tree} {r : Reading}

/-- The statements of a file, and behind them whatever is read as those of another one. -/
theorem makes_fileItems_append (h : Reads fileItems us as []) (hus : Token.Closes 0 us)
    (hends : us = [] ∨ Ends us) (hvs : Fresh vs) (h' : Makes grammar fileItems vs r) :
    Makes grammar fileItems (us ++ vs) ⟨as ++ r.trees, r.rest, r.faults⟩ := by
  generalize hp : fileItems = p at h
  generalize hnil : [] = xs at h
  induction h with
  | stop =>
    cases hp
    subst hnil
    exact h'
  | @again l p us xs zs as cs hl hitem hitems _ ihitems =>
    cases hp
    subst hnil
    have hne : nextKind us ≠ .eof := by simpa [is, Look.holds] using hl
    have hends : Ends us := hends.resolve_left fun h => hne (h ▸ rfl)
    have hnext : (KindSet.every \ .of [.dedent, .eof]).has (nextKind us) = true := by
      simp [nextKind_ne_dedent_of_closes hus, hne]
    have hahead : Ahead us.length (.every \ .of [.dedent, .eof]) .every us :=
      ⟨le_rfl, ⟨0, hus⟩, hnext, KindSet.has_every _⟩
    have hl' := (hends.holds (by decide) vs).trans hl
    rw [List.append_assoc]
    by_cases hxs : xs = []
    · -- What comes behind the last statement are those of the other file.
      subst hxs
      cases hitems with
      | again hl => cases hl
      | stop =>
        exact .again hl' (hitem.append_fresh rfl (by decide) hahead hends fileItem_seam hvs).makes h'
    · have hends' : Ends xs := (hitem.leaves_append ▸ hends).of_append hxs
      have hknown := hitem.trueOf_stop hahead
      rw [fileItem_surveyed] at hknown
      have hclosed : Token.Closes 0 xs := by
        rw [← hitem.leaves_append] at hus
        exact hus.of_append (Tree.nest_of_formed (Shape.TrueOf.formed hknown) 0)
      exact .again hl' (hitem.append_of_ends (by decide) hends' vs).makes
        (ihitems hclosed (.inr hends') rfl rfl)
  | _ => cases hp

/-- A file does not start with a block, nor with a word that goes on with a statement. -/
theorem nextKind_of_fileItems (h : Reads fileItems vs bs ws) :
    nextKind vs ≠ .indent ∧ nextKind vs ∉ joins := by
  suffices hnext : nextKind vs ∉ Kind.indent :: joins from
    ⟨fun h => hnext (h ▸ List.mem_cons_self), fun h => hnext (List.mem_cons_of_mem _ h)⟩
  intro hmem
  cases h with
  | stop hl =>
    have heof : nextKind vs = .eof := by simpa [is, Look.holds] using hl
    rw [heof] at hmem
    revert hmem
    decide
  | again _ hitem _ =>
    have hrefuses := hitem.not_refuses 64 (s := .of (.indent :: joins)) (by simpa using hmem)
    rw [fileItem_refuses] at hrefuses
    cases hrefuses

theorem reads_file_iff : Reads (.rule .file) us as ws ↔
    ∃ cs ds vs, Reads fileItems us cs vs ∧ Reads Phrase.trivia vs ds ws ∧ as = cs ++ ds := by
  constructor
  · intro h
    cases h with
    | rule h =>
    cases grammar_file ▸ h with
    | seq hitems htrivia => exact ⟨_, _, _, hitems, htrivia, rfl⟩
  · rintro ⟨cs, ds, vs, hitems, htrivia, rfl⟩
    exact .rule (.seq hitems htrivia)

theorem nextKind_ne_indent (h : Reads (.rule .file) us as ws) : nextKind us ≠ .indent := by
  obtain ⟨cs, ds, vs, hitems, -, -⟩ := reads_file_iff.1 h
  exact (nextKind_of_fileItems hitems).1

/-- When a file ends with the end of a line or of a block, that belongs to a statement, and nothing comes
behind the statements. -/
theorem fileItems_of_file (h : Reads (.rule .file) us as []) (hends : us = [] ∨ Ends us) :
    Reads fileItems us as [] := by
  obtain ⟨cs, ds, xs, hitems, htrivia, rfl⟩ := reads_file_iff.1 h
  obtain rfl : xs = [] := by
    by_contra hne
    rcases hends with rfl | hends
    · exact hne (List.append_eq_nil_iff.1 hitems.leaves_append).2
    · have hends' : Ends xs := (hitems.leaves_append ▸ hends).of_append hne
      obtain ⟨u, zs, hu⟩ := hends'.exists_upcoming
      generalize hys : [] = ys at htrivia
      cases htrivia with
      | trivia => rw [hu] at hys; cases hys
  cases htrivia with
  | trivia => simpa using hitems

/-- A file, and behind it another one. -/
theorem reads_file_append (h : Reads (.rule .file) us as []) (hus : Token.Closes 0 us)
    (hends : us = [] ∨ Ends us) (hbare : pending vs = []) (h' : Reads (.rule .file) vs bs []) :
    Reads (.rule .file) (us ++ vs) (as ++ bs) [] := by
  obtain ⟨cs, ds, xs, hitems, htrivia, rfl⟩ := reads_file_iff.1 h'
  have hvs : Fresh vs := ⟨hbare, (nextKind_of_fileItems hitems).2⟩
  have happend := makes_fileItems_append (fileItems_of_file h hends) hus hends hvs hitems.makes
  rw [← List.append_assoc]
  exact reads_file_iff.2 ⟨_, _, _, happend.reads rfl, htrivia, rfl⟩

end

end Renumber.Grammar
