import Renumber.Proofs.Layout.Inside
import Renumber.Proofs.Layout.Scanner

/-!
# The scan, step by step

Where the scan stands in a text (`State`), one step of it (`Step`) and what it gives where the text ends
(`Stops`). A step gives some lexemes, and the rest of them are those of the state behind it
(`Step.lexemes_eq`), so the states that the scan passes cut its lexemes into pieces (`Reached.lexemes_eq`).
What holds of all lexemes is proved from the last step back to the first (`State.induction`), what holds of all
states from the first step on, by induction on `Reached`. Every lexeme is given by one step or at the end
(`exists_given`), and one that starts with no line break is what is scanned in front of the text from it on
(`scan_of_given`).

The scan comes to a boundary in the same way whatever follows the boundary (`Reached.beyond`). So what follows
an opening parenthesis is lexed inside brackets and by itself (`exists_lexFrom_paren`).
-/

namespace Renumber

open Text (isBreak)
open Lexeme (isSpace)

namespace Layout

/-- Where the scan of a text stands. -/
structure State where
  /-- The columns of the open blocks, innermost first. -/
  blocks : List Nat
  mode : Mode
  /-- What has not been scanned yet. -/
  text : List Char

namespace State

/-- In front of a source. -/
def start (source : String) : State := ⟨[], .fresh, source.toList⟩

/-- What the scan gives from the state on. -/
def lexemes (s : State) : List Lexeme := lexFrom s.blocks s.mode s.text

/-- How far the scan is from the end: characters count double, so that a fresh line may become a line. -/
def size (s : State) : Nat := 2 * s.text.length + s.mode.rank

end State

/-- How many brackets are open where the scan stands. In front of a fresh line none are. -/
def Mode.depth : Mode → Nat
  | .fresh => 0
  | .inLine d _ => d

/-- One step of the scan gives some lexemes and leads from a state to another one. -/
inductive Step : State → List Lexeme → State → Prop
  /-- A fresh line without content. -/
  | blank {blocks : List Nat} {indentation : List Char} {c : Char} {cs : List Char}
      (hspaces : ∀ a ∈ indentation, isSpace a = true) (hc : isBreak c = true) :
      Step ⟨blocks, .fresh, indentation ++ c :: cs⟩
        (blanks indentation ++ [Reach.taken ⟨.nl, Lexeme.breakMore c cs, none⟩ c cs])
        ⟨blocks, .fresh, Reach.left ⟨.nl, Lexeme.breakMore c cs, none⟩ cs⟩
  /-- A fresh line with a comment only, up to its break. -/
  | comment {blocks : List Nat} {indentation cs : List Char}
      (hspaces : ∀ a ∈ indentation, isSpace a = true) :
      Step ⟨blocks, .fresh, indentation ++ '#' :: cs⟩
        (blanks indentation ++ [Reach.taken ⟨.comment, Lexeme.commentMore cs, none⟩ '#' cs])
        ⟨blocks, .fresh, Reach.left ⟨.comment, Lexeme.commentMore cs, none⟩ cs⟩
  /-- A fresh line with anything else is measured, and blocks open or close. -/
  | measure {blocks : List Nat} {indentation : List Char} {c : Char} {cs : List Char}
      (hspaces : ∀ a ∈ indentation, isSpace a = true) (hspace : isSpace c = false)
      (hc : isBreak c = false) (hcomment : c ≠ '#') :
      Step ⟨blocks, .fresh, indentation ++ c :: cs⟩
        (blanks indentation ++ (marks blocks (columnOf indentation)).1)
        ⟨(marks blocks (columnOf indentation)).2, .inLine 0 false, c :: cs⟩
  /-- The break that ends a logical line. -/
  | lineEnd {blocks : List Nat} {c : Char} {cs : List Char} (hc : isBreak c = true) :
      Step ⟨blocks, .inLine 0 true, c :: cs⟩ [Reach.taken ⟨.newline, Lexeme.breakMore c cs, none⟩ c cs]
        ⟨blocks, .fresh, Reach.left ⟨.newline, Lexeme.breakMore c cs, none⟩ cs⟩
  /-- A break inside brackets or in front of all content. -/
  | lineBreak {blocks : List Nat} {depth : Nat} {content : Bool} {c : Char} {cs : List Char}
      (hc : isBreak c = true) (hinside : depth ≠ 0 ∨ content = false) :
      Step ⟨blocks, .inLine depth content, c :: cs⟩
        [Reach.taken ⟨.nl, Lexeme.breakMore c cs, none⟩ c cs]
        ⟨blocks, .inLine depth content, Reach.left ⟨.nl, Lexeme.breakMore c cs, none⟩ cs⟩
  /-- A token inside a line. -/
  | token {blocks : List Nat} {depth : Nat} {content : Bool} {c : Char} {cs : List Char}
      (hc : isBreak c = false) :
      Step ⟨blocks, .inLine depth content, c :: cs⟩ [(Reach.scan c cs).taken c cs]
        ⟨blocks, .inLine (depthAfter depth (Reach.scan c cs).kind)
          (content || (Reach.scan c cs).kind.isContent), (Reach.scan c cs).left cs⟩

/-- Where a text ends the scan gives some last lexemes. -/
inductive Stops : State → List Lexeme → Prop
  | fresh {blocks : List Nat} {indentation : List Char}
      (hspaces : ∀ a ∈ indentation, isSpace a = true) :
      Stops ⟨blocks, .fresh, indentation⟩ (blanks indentation ++ finish blocks false)
  | inLine {blocks : List Nat} {depth : Nat} {content : Bool} :
      Stops ⟨blocks, .inLine depth content, []⟩ (finish blocks content)

section
variable {s s' : State} {ls : List Lexeme}

/-- What a step gives comes in front of what the scan gives behind it. -/
theorem Step.lexemes_eq (h : Step s ls s') : s.lexemes = ls ++ s'.lexemes := by
  cases h with
  | blank hspaces hc =>
    rw [State.lexemes, lexFrom_fresh_cons hspaces (Lexeme.isSpace_of_isBreak hc), if_pos hc,
      List.append_assoc]
    rfl
  | comment hspaces =>
    rw [State.lexemes, lexFrom_fresh_cons hspaces rfl, if_neg (by decide), if_pos (by decide),
      List.append_assoc]
    rfl
  | measure hspaces hspace hc hcomment =>
    rw [State.lexemes, lexFrom_fresh_cons hspaces hspace, hc, if_neg Bool.false_ne_true,
      if_neg (by simpa using hcomment), List.append_assoc]
    rfl
  | lineEnd hc =>
    rw [State.lexemes, lexFrom_inLine_cons, if_pos hc]
    rfl
  | lineBreak hc hinside =>
    rw [State.lexemes, lexFrom_inLine_cons, if_pos hc, if_neg (by simpa [imp_iff_not_or] using hinside)]
    rfl
  | token hc =>
    rw [State.lexemes, lexFrom_inLine_cons, hc, if_neg Bool.false_ne_true]
    rfl

theorem Stops.lexemes_eq (h : Stops s ls) : s.lexemes = ls := by
  cases h with
  | fresh hspaces =>
    rw [State.lexemes, lexFrom_fresh_of_blank (List.dropWhile_eq_nil_iff.2 hspaces),
      List.takeWhile_eq_self_iff.2 hspaces]
  | inLine => rw [State.lexemes, lexFrom]

/-- Where the text ends, blanks and marks are given. -/
theorem Stops.eq_of_mem (h : Stops s ls) {l : Lexeme} (hl : l ∈ ls) :
    (∃ cs, l = ⟨⟨.whitespace, String.ofList cs⟩, none⟩) ∨
      l = .mark .newline none ∨ l = .mark .dedent none := by
  cases h with
  | fresh => exact (List.mem_append.1 hl).imp (fun h => ⟨_, (mem_blanks h).2⟩) mem_finish
  | inLine => exact .inr (mem_finish hl)

/-- A step leaves less text, or the same text inside a line that was fresh. -/
theorem Step.size_lt (h : Step s ls s') : s'.size < s.size := by
  have hleft (r : Reach) (cs : List Char) : (r.left cs).length ≤ cs.length := by
    rw [Reach.left, List.length_drop]
    exact Nat.sub_le _ _
  cases h with
  | @blank _ _ c cs =>
    have := hleft ⟨.nl, Lexeme.breakMore c cs, none⟩ cs
    simp only [State.size, List.length_append, List.length_cons]
    omega
  | @comment _ _ cs =>
    have := hleft ⟨.comment, Lexeme.commentMore cs, none⟩ cs
    simp only [State.size, List.length_append, List.length_cons]
    omega
  | measure =>
    simp only [State.size, List.length_append, Mode.rank]
    omega
  | @lineEnd _ c cs =>
    have := hleft ⟨.newline, Lexeme.breakMore c cs, none⟩ cs
    simp only [State.size, List.length_cons, Mode.rank]
    omega
  | @lineBreak _ _ _ c cs =>
    have := hleft ⟨.nl, Lexeme.breakMore c cs, none⟩ cs
    simp only [State.size, List.length_cons, Mode.rank]
    omega
  | @token _ _ _ c cs =>
    have := hleft (Reach.scan c cs) cs
    simp only [State.size, List.length_cons, Mode.rank]
    omega

/-- The scan goes on from every state, unless the text ends there. -/
theorem State.steps_or_stops (s : State) : (∃ ls s', Step s ls s') ∨ ∃ ls, Stops s ls := by
  obtain ⟨blocks, mode, text⟩ := s
  cases mode with
  | inLine depth content =>
    cases text with
    | nil => exact .inr ⟨_, .inLine⟩
    | cons c cs =>
      left
      cases hc : isBreak c with
      | false => exact ⟨_, _, .token hc⟩
      | true =>
        by_cases hend : depth = 0 ∧ content = true
        · obtain ⟨rfl, rfl⟩ := hend
          exact ⟨_, _, .lineEnd hc⟩
        · rw [not_and_or, Bool.not_eq_true] at hend
          exact ⟨_, _, .lineBreak hc hend⟩
  | fresh =>
    have hspaces : ∀ a ∈ text.takeWhile isSpace, isSpace a = true := isSpace_of_mem_takeWhile
    have htext := List.takeWhile_append_dropWhile (p := isSpace) (l := text)
    cases hd : text.dropWhile isSpace with
    | nil =>
      rw [hd, List.append_nil] at htext
      exact .inr ⟨_, .fresh (htext ▸ hspaces)⟩
    | cons c cs =>
      left
      rw [hd] at htext
      have hspace := not_isSpace_of_dropWhile hd
      rw [← htext]
      cases hc : isBreak c with
      | true => exact ⟨_, _, .blank hspaces hc⟩
      | false =>
        by_cases hcomment : c = '#'
        · subst hcomment
          exact ⟨_, _, .comment hspaces⟩
        · exact ⟨_, _, .measure hspaces hspace hc hcomment⟩

/-- What holds where a text ends, and in front of a step if it holds behind it, holds of every state. -/
theorem State.induction {P : State → Prop} (hstops : ∀ s ls, Stops s ls → P s)
    (hstep : ∀ s ls s', Step s ls s' → P s' → P s) (s : State) : P s := by
  induction hn : s.size using Nat.strong_induction_on generalizing s with
  | h n ih =>
    rcases s.steps_or_stops with ⟨ls, s', h⟩ | ⟨ls, h⟩
    · exact hstep s ls s' h (ih s'.size (hn ▸ h.size_lt) s' rfl)
    · exact hstops s ls h

/-! ## The states of a run -/

/-- From one state the scan gives some lexemes and comes to another one. -/
inductive Reached (s : State) : List Lexeme → State → Prop
  | start : Reached s [] s
  | step {ls ms : List Lexeme} {s' s'' : State} (h : Reached s ls s') (hstep : Step s' ms s'') :
      Reached s (ls ++ ms) s''

theorem Reached.lexemes_eq (h : Reached s ls s') : s.lexemes = ls ++ s'.lexemes := by
  induction h with
  | start => rfl
  | step _ hstep ih => rw [ih, hstep.lexemes_eq, List.append_assoc]

theorem Reached.head {ms : List Lexeme} {s'' : State} (hstep : Step s ls s') (h : Reached s' ms s'') :
    Reached s (ls ++ ms) s'' := by
  induction h with
  | start =>
    rw [List.append_nil]
    exact .step .start hstep
  | step _ hlast ih =>
    rw [← List.append_assoc]
    exact .step ih hlast

/-- Every lexeme is given by a step of the scan or where the text ends. -/
theorem exists_given {as bs : List Lexeme} {l : Lexeme} (h : s.lexemes = as ++ l :: bs) :
    ∃ ls s' ms ns, Reached s ls s' ∧ as = ls ++ ms ∧
      ((∃ s'', Step s' (ms ++ l :: ns) s'' ∧ bs = ns ++ s''.lexemes) ∨
        Stops s' (ms ++ l :: ns) ∧ bs = ns) := by
  induction s using State.induction generalizing as with
  | hstops s ls hs =>
    rw [hs.lexemes_eq] at h
    exact ⟨[], s, as, bs, .start, rfl, .inr ⟨h ▸ hs, rfl⟩⟩
  | hstep s ls s' hs ih =>
    rw [hs.lexemes_eq] at h
    rcases List.append_eq_append_iff.1 h with ⟨cs, rfl, hcs⟩ | ⟨cs, rfl, hcs⟩
    · obtain ⟨ks, t, ms, ns, hreached, rfl, hgiven⟩ := ih hcs
      exact ⟨ls ++ ks, t, ms, ns, .head hs hreached, (List.append_assoc ..).symm, hgiven⟩
    · cases cs with
      | nil =>
        have hrest : s'.lexemes = [] ++ l :: bs := hcs.symm
        obtain ⟨ks, t, ms, ns, hreached, hks, hgiven⟩ := ih hrest
        refine ⟨as ++ ks, t, ms, ns, .head (by rwa [List.append_nil] at hs) hreached, ?_, hgiven⟩
        rw [List.append_assoc, ← hks, List.append_nil]
      | cons c cs =>
        obtain ⟨rfl, rfl⟩ := List.cons.inj hcs
        exact ⟨[], s, as, cs, .start, rfl, .inl ⟨s', hs, rfl⟩⟩

/-! ## What is given in front of a text -/

theorem singleton_cut {as bs : List Lexeme} {l x : Lexeme} (h : as ++ l :: bs = [x]) :
    as = [] ∧ l = x := by
  cases as with
  | nil => exact ⟨rfl, (List.cons.inj h).1⟩
  | cons a as => simpa using (List.cons.inj h).2

/-- Some lexemes that start with blanks are cut in front of the blanks or behind them. -/
theorem blanks_cut {cs : List Char} {ks as bs : List Lexeme} {l : Lexeme}
    (h : as ++ l :: bs = blanks cs ++ ks) :
    (as = [] ∧ cs ≠ [] ∧ l = ⟨⟨.whitespace, String.ofList cs⟩, none⟩) ∨
      ∃ as', as = blanks cs ++ as' ∧ as' ++ l :: bs = ks := by
  cases cs with
  | nil => exact .inr ⟨as, rfl, h⟩
  | cons c cs =>
    cases as with
    | nil => exact .inl ⟨rfl, List.cons_ne_nil c cs, (List.cons.inj h).1⟩
    | cons a as =>
      obtain ⟨rfl, hrest⟩ := List.cons.inj h
      exact .inr ⟨as, rfl, hrest⟩

/-- Blanks are what any token is: what is scanned in front of the text. -/
theorem scan_of_spaces {c : Char} {cs rest : List Char} (hspaces : ∀ a ∈ c :: cs, isSpace a = true)
    (hrest : ∀ a ∈ rest.head?, isSpace a = false) :
    (Reach.scan c (cs ++ rest)).taken c (cs ++ rest) = ⟨⟨.whitespace, String.ofList (c :: cs)⟩, none⟩ := by
  obtain ⟨hc, hcs⟩ := List.forall_mem_cons.1 hspaces
  have hrun : (cs ++ rest).takeWhile isSpace = cs := by
    cases rest with
    | nil => rw [List.append_nil, List.takeWhile_eq_self_iff.2 hcs]
    | cons a rest =>
      rw [Lexeme.takeWhile_append_cons (hrest a rfl), List.takeWhile_eq_self_iff.2 hcs]
  rw [Reach.scan, if_pos hc, Reach.taken, Lexeme.take_runLength, hrun]

section
variable {ms ns : List Lexeme} {l : Lexeme} {rest : List Char}

/-- A lexeme of a text that starts with blanks is these blanks, or it stands behind them. -/
theorem front_cut {indentation text : List Char} {ks : List Lexeme}
    (htext : covered ms ++ rest = indentation ++ text) (hspaces : ∀ a ∈ indentation, isSpace a = true)
    (hhead : ∀ a ∈ text.head?, isSpace a = false) (hks : ms ++ l :: ns = blanks indentation ++ ks) :
    (∃ c cs, rest = c :: cs ∧ l = (Reach.scan c cs).taken c cs) ∨
      ∃ ms', covered ms' ++ rest = text ∧ ms' ++ l :: ns = ks := by
  obtain ⟨rfl, hne, hblank⟩ | ⟨ms', rfl, hms'⟩ := blanks_cut hks
  · obtain ⟨c, cs, rfl⟩ := List.exists_cons_of_ne_nil hne
    exact .inl ⟨c, cs ++ text, htext, hblank.trans (scan_of_spaces hspaces hhead).symm⟩
  · rw [covered_append, covered_blanks, List.append_assoc] at htext
    exact .inr ⟨ms', List.append_cancel_left htext, hms'⟩

/-- A lexeme that is given alone covers the text up to what comes behind it. -/
theorem single_cut {text : List Char} {x : Lexeme} (htext : covered ms ++ rest = text)
    (hx : ms ++ l :: ns = [x]) : rest = text ∧ l = x := by
  obtain ⟨rfl, rfl⟩ := singleton_cut hx
  exact ⟨htext, rfl⟩

/-- What a step gives in front of a text and covers something is a line break, or what is scanned there. -/
theorem Step.scan_eq (h : Step s (ms ++ l :: ns) s') (htext : covered ms ++ rest = s.text)
    (hl : l.token.text ≠ "") : ∃ c cs, rest = c :: cs ∧
      (isBreak c = true ∧ (l.token.kind = .newline ∨ l.token.kind = .nl) ∨
        l = (Reach.scan c cs).taken c cs) := by
  generalize hks : ms ++ l :: ns = ks at h
  cases h with
  | blank hspaces hc =>
    obtain ⟨c, cs, hrest, hscan⟩ | ⟨ms', hrest, hms'⟩ :=
      front_cut htext hspaces (by simpa using Lexeme.isSpace_of_isBreak hc) hks
    · exact ⟨c, cs, hrest, .inr hscan⟩
    · obtain ⟨rfl, rfl⟩ := single_cut hrest hms'
      exact ⟨_, _, rfl, .inl ⟨hc, .inr rfl⟩⟩
  | comment hspaces =>
    obtain ⟨c, cs, hrest, hscan⟩ | ⟨ms', hrest, hms'⟩ := front_cut htext hspaces (by simp [isSpace]) hks
    · exact ⟨c, cs, hrest, .inr hscan⟩
    · exact ⟨_, _, (single_cut hrest hms').1, .inr (single_cut hrest hms').2⟩
  | measure hspaces hspace =>
    obtain ⟨c, cs, hrest, hscan⟩ | ⟨ms', -, hms'⟩ := front_cut htext hspaces (by simpa using hspace) hks
    · exact ⟨c, cs, hrest, .inr hscan⟩
    · obtain ⟨k, p, rfl, -⟩ := mem_marks (hms' ▸ List.mem_append_right ms' List.mem_cons_self)
      exact absurd rfl hl
  | lineEnd hc =>
    obtain ⟨rfl, rfl⟩ := single_cut htext hks
    exact ⟨_, _, rfl, .inl ⟨hc, .inl rfl⟩⟩
  | lineBreak hc =>
    obtain ⟨rfl, rfl⟩ := single_cut htext hks
    exact ⟨_, _, rfl, .inl ⟨hc, .inr rfl⟩⟩
  | token => exact ⟨_, _, (single_cut htext hks).1, .inr (single_cut htext hks).2⟩

/-- Where the text ends, only blanks cover something. -/
theorem Stops.scan_eq (h : Stops s (ms ++ l :: ns)) (htext : covered ms ++ rest = s.text)
    (hl : l.token.text ≠ "") : ∃ c cs, rest = c :: cs ∧ l = (Reach.scan c cs).taken c cs := by
  have hfinish {ms' : List Lexeme} {blocks : List Nat} {content : Bool}
      (h : ms' ++ l :: ns = finish blocks content) : False := by
    rcases mem_finish (h ▸ List.mem_append_right ms' List.mem_cons_self) with rfl | rfl <;> exact hl rfl
  generalize hks : ms ++ l :: ns = ks at h
  cases h with
  | fresh hspaces =>
    rw [← List.append_nil (State.text _)] at htext
    exact (front_cut htext hspaces (by simp) hks).resolve_right fun ⟨_, _, hms'⟩ => hfinish hms'
  | inLine => exact (hfinish hks).elim

end

/-- A lexeme with a text is a line break, or it is what is scanned in front of the text from it on. -/
theorem scan_of_given {as bs : List Lexeme} {l : Lexeme} (h : s.lexemes = as ++ l :: bs)
    (hl : l.token.text ≠ "") : ∃ c cs, covered (l :: bs) = c :: cs ∧
      (isBreak c = true ∧ (l.token.kind = .newline ∨ l.token.kind = .nl) ∨
        l = (Reach.scan c cs).taken c cs) := by
  obtain ⟨ls, s', ms, ns, -, -, hgiven⟩ := exists_given h
  -- The text in front of a step is that of the lexemes that the scan gives from there on.
  have htext : covered ms ++ covered (l :: bs) = s'.text := by
    rw [← covered_append, ← covered_lexFrom s'.blocks s'.mode s'.text, ← State.lexemes]
    obtain ⟨s'', hstep, rfl⟩ | ⟨hstops, rfl⟩ := hgiven
    · rw [hstep.lexemes_eq, List.append_assoc, List.cons_append]
    · rw [hstops.lexemes_eq]
  obtain ⟨s'', hstep, -⟩ | ⟨hstops, -⟩ := hgiven
  · exact hstep.scan_eq htext hl
  · obtain ⟨c, cs, hcovered, hscan⟩ := hstops.scan_eq htext hl
    exact ⟨c, cs, hcovered, .inr hscan⟩

end

/-! ## With other text behind -/

section
variable {a : Char} {zs us : List Char}

theorem Reached.text_eq (h : Reached s ls s') : s.text = covered ls ++ s'.text := by
  have hcovered := congrArg covered h.lexemes_eq
  rwa [covered_append, State.lexemes, State.lexemes, covered_lexFrom, covered_lexFrom] at hcovered

/-- A token in front of a character leaves what it leaves whatever follows the character. -/
theorem taken_beyond {r : Reach} {c : Char} {cs : List Char} (h : r.left cs = zs ++ a :: us) :
    ∃ xs, cs = xs ++ a :: us ∧ r.more ≤ xs.length ∧ ∀ us',
      r.taken c (xs ++ a :: us') = r.taken c cs ∧ r.left (xs ++ a :: us') = zs ++ a :: us' ∧
        c :: (xs ++ a :: us') = (r.taken c cs).token.text.toList ++ (zs ++ a :: us') := by
  have hmore : (cs.take r.more).length = r.more := by
    have := congrArg List.length h
    rw [Reach.left, List.length_drop, List.length_append, List.length_cons] at this
    rw [List.length_take]
    omega
  have hle : r.more ≤ (cs.take r.more ++ zs).length := by
    rw [List.length_append]
    omega
  have hcs : cs = cs.take r.more ++ zs ++ a :: us := by
    rw [List.append_assoc, ← h, Reach.left, List.take_append_drop]
  refine ⟨cs.take r.more ++ zs, hcs, hle, fun us' => ?_⟩
  have hleft : r.left (cs.take r.more ++ zs ++ a :: us') = zs ++ a :: us' := by
    rw [Reach.left, List.append_assoc, List.drop_left' hmore]
  have htaken : r.taken c (cs.take r.more ++ zs ++ a :: us') = r.taken c cs := by
    rw [Reach.taken, Reach.taken, List.append_assoc, List.take_left' hmore]
  refine ⟨htaken, hleft, ?_⟩
  rw [← htaken, ← Reach.taken_append_left r, hleft]

/-- A step that ends in front of a boundary is the same whatever follows the boundary. -/
theorem Step.beyond (h : Step s ls s') (hslash : a ≠ '\\') (ha : Lexeme.isBoundary a = true)
    (hs : s'.text = zs ++ a :: us) (us' : List Char) :
    Step ⟨s.blocks, s.mode, covered ls ++ (zs ++ a :: us')⟩ ls
      ⟨s'.blocks, s'.mode, zs ++ a :: us'⟩ := by
  cases h with
  | @blank blocks indentation c cs hspaces hc =>
    obtain ⟨xs, rfl, -, hnew⟩ := taken_beyond (c := c) hs
    obtain ⟨htaken, hleft, htext⟩ := hnew us'
    have hstep := @Step.blank blocks indentation c (xs ++ a :: us') hspaces hc
    rw [Lexeme.breakMore_beyond xs us us' c, htaken, hleft, htext] at hstep
    simpa using hstep
  | @comment blocks indentation cs hspaces =>
    obtain ⟨xs, rfl, hle, hnew⟩ := taken_beyond (c := '#') hs
    obtain ⟨htaken, hleft, htext⟩ := hnew us'
    have hstep := @Step.comment blocks indentation (xs ++ a :: us') hspaces
    rw [Lexeme.commentMore, Lexeme.runLength_beyond xs us us' hle, ← Lexeme.commentMore, htaken, hleft,
      htext] at hstep
    simpa using hstep
  | @measure blocks indentation c cs hspaces hspace hc hcomment =>
    -- The step takes no character, so the content may start with the boundary itself.
    obtain ⟨cs', hcs'⟩ : ∃ cs', zs ++ a :: us' = c :: cs' := by
      cases zs with
      | nil => exact ⟨us', by rw [(List.cons.inj hs).1]; rfl⟩
      | cons z zs => exact ⟨zs ++ a :: us', by rw [(List.cons.inj hs).1]; rfl⟩
    have hstep := @Step.measure blocks indentation c cs' hspaces hspace hc hcomment
    rw [hcs']
    simpa using hstep
  | @lineEnd blocks c cs hc =>
    obtain ⟨xs, rfl, -, hnew⟩ := taken_beyond (c := c) hs
    obtain ⟨htaken, hleft, htext⟩ := hnew us'
    have hstep := @Step.lineEnd blocks c (xs ++ a :: us') hc
    rw [Lexeme.breakMore_beyond xs us us' c, htaken, hleft, htext] at hstep
    simpa using hstep
  | @lineBreak blocks depth content c cs hc hinside =>
    obtain ⟨xs, rfl, -, hnew⟩ := taken_beyond (c := c) hs
    obtain ⟨htaken, hleft, htext⟩ := hnew us'
    have hstep := @Step.lineBreak blocks depth content c (xs ++ a :: us') hc hinside
    rw [Lexeme.breakMore_beyond xs us us' c, htaken, hleft, htext] at hstep
    simpa using hstep
  | @token blocks depth content c cs hc =>
    obtain ⟨xs, rfl, hle, hnew⟩ := taken_beyond (c := c) hs
    obtain ⟨htaken, hleft, htext⟩ := hnew us'
    have hstep := @Step.token blocks depth content c (xs ++ a :: us') hc
    rw [scan_beyond hslash ha hle us', htaken, hleft, htext] at hstep
    simpa using hstep

/-- The scan comes to a boundary in the same way whatever follows the boundary. -/
theorem Reached.beyond (h : Reached s ls s') (hslash : a ≠ '\\') (ha : Lexeme.isBoundary a = true)
    (hs : s'.text = zs ++ a :: us) (us' : List Char) :
    Reached ⟨s.blocks, s.mode, covered ls ++ (zs ++ a :: us')⟩ ls
      ⟨s'.blocks, s'.mode, zs ++ a :: us'⟩ := by
  induction h generalizing zs with
  | start => exact .start
  | @step ls ms s' s'' _ hstep ih =>
    have hs' : s'.text = covered ms ++ zs ++ a :: us := by
      rw [(Reached.step .start hstep).text_eq, hs, List.nil_append, List.append_assoc]
    have hreached := ih hs'
    rw [List.append_assoc, ← List.append_assoc (covered ls), ← covered_append] at hreached
    exact .step hreached (hstep.beyond hslash ha hs us')

end

/-! ## Up to a parenthesis -/

/-- A parenthesis is given by itself, and leads inside brackets. -/
theorem step_paren (blocks : List Nat) (depth : Nat) (content : Bool) (cs : List Char) :
    Step ⟨blocks, .inLine depth content, '(' :: cs⟩ [paren] ⟨blocks, .inLine (depth + 1) true, cs⟩ := by
  have hscan : Reach.scan '(' cs = ⟨.lParen, 0, none⟩ :=
    Lexeme.operator_append (by decide : Lexeme.isBoundary '(' = true) [] cs '('
  have hstep := @Step.token blocks depth content '(' cs rfl
  rw [hscan, show (content || Kind.lParen.isContent) = true from Bool.or_true content] at hstep
  exact hstep

theorem Step.of_paren (h : Step s ls s') (hmem : paren ∈ ls) : ls = [paren] ∧
    ∃ blocks depth content cs, s = ⟨blocks, .inLine depth content, '(' :: cs⟩ ∧
      s' = ⟨blocks, .inLine (depth + 1) true, cs⟩ := by
  have hblanks {cs : List Char} : paren ∉ blanks cs := fun hmem => nomatch (mem_blanks hmem).2
  have hother {r : Reach} {c : Char} {cs : List Char} (hr : r.kind ≠ .lParen) : paren ∉ [r.taken c cs] :=
    fun hmem => hr (congrArg (fun l : Lexeme => l.token.kind) (List.mem_singleton.1 hmem).symm)
  cases h with
  | blank | comment => exact ((List.mem_append.1 hmem).elim hblanks (hother Kind.noConfusion)).elim
  | measure =>
    obtain ⟨k, p, h, rfl | rfl⟩ := mem_marks ((List.mem_append.1 hmem).resolve_left hblanks) <;> cases h
  | lineEnd | lineBreak => exact (hother Kind.noConfusion hmem).elim
  | @token blocks depth content c cs hc =>
    have hparen := List.mem_singleton.1 hmem
    obtain ⟨rfl, hscan⟩ := scan_of_punctuation (k := .lParen) (a := '(') (by decide)
      (congrArg (fun l : Lexeme => l.token.kind) hparen.symm)
    rw [hscan, show (content || Kind.lParen.isContent) = true from Bool.or_true content]
    exact ⟨rfl, blocks, depth, content, cs, rfl, rfl⟩

/-- Whatever follows a parenthesis, the text up to it has the same lexemes, and what follows it is lexed
inside brackets. -/
theorem exists_lexFrom_paren {blocks : List Nat} {mode : Mode} {text : List Char} (as : List Lexeme)
    {bs : List Lexeme} (h : lexFrom blocks mode text = as ++ paren :: bs) :
    ∃ blocks' d, lexFrom blocks' (.inLine (d + 1) true) (covered bs) = bs ∧
      ∀ ws, lexFrom blocks mode (covered as ++ '(' :: ws) =
        as ++ paren :: lexFrom blocks' (.inLine (d + 1) true) ws := by
  have hgiven : State.lexemes ⟨blocks, mode, text⟩ = as ++ paren :: bs := h
  obtain ⟨ls, s', ms, ns, hreached, rfl, ⟨s'', hstep, rfl⟩ | ⟨hstops, -⟩⟩ := exists_given hgiven
  · obtain ⟨hone, blocks', d, content, cs, rfl, rfl⟩ :=
      hstep.of_paren (List.mem_append_right ms List.mem_cons_self)
    obtain ⟨rfl, -⟩ := singleton_cut hone
    obtain rfl := (List.cons.inj hone).2
    rw [List.append_nil, List.nil_append]
    refine ⟨blocks', d, by rw [State.lexemes, covered_lexFrom], fun ws => ?_⟩
    have hnew := hreached.beyond (a := '(') (by decide) (by decide) (List.nil_append _).symm ws
    exact hnew.lexemes_eq.trans (congrArg (ls ++ ·) (step_paren blocks' d content ws).lexemes_eq)
  · rcases hstops.eq_of_mem (List.mem_append_right ms List.mem_cons_self) with ⟨cs, h⟩ | h | h <;> cases h

end Layout

end Renumber
