import Renumber.Proofs.Grammar.Balance
import Renumber.Proofs.Layout.Scan

/-!
# Lexing inside brackets

While a bracket is open, the layout of lines is of no account: a line break is trivia, and the scan goes on
in the same way after every token (`lexFrom_inside`). All that it knows of the text in front of it is how
many brackets are open, so balanced tokens leave the scan as they found it (`lexFrom_of_climb`).
-/

namespace Renumber

open Text (isBreak)

/-- The characters that some tokens cover. -/
def Token.spelled (ts : List Token) : List Char := ts.flatMap fun t => t.text.toList

/-- Tokens without lexical problems. -/
def Lexeme.sound (ts : List Token) : List Lexeme := ts.map fun t => ⟨t, none⟩

namespace Token

@[simp] theorem spelled_nil : spelled [] = [] := rfl

@[simp] theorem spelled_cons (t : Token) (ts : List Token) :
    spelled (t :: ts) = t.text.toList ++ spelled ts := rfl

@[simp] theorem spelled_append (ts us : List Token) :
    spelled (ts ++ us) = spelled ts ++ spelled us :=
  List.flatMap_append

theorem toList_textOf (ts : List Token) : (textOf ts).toList = spelled ts := by
  rw [textOf, String.toList_join, List.flatMap_map, spelled]

end Token

namespace Lexeme

@[simp] theorem sound_nil : sound [] = [] := rfl

@[simp] theorem sound_cons (t : Token) (ts : List Token) :
    sound (t :: ts) = ⟨t, none⟩ :: sound ts := rfl

@[simp] theorem sound_append (ts us : List Token) : sound (ts ++ us) = sound ts ++ sound us :=
  List.map_append

@[simp] theorem map_token_sound (ts : List Token) : (sound ts).map token = ts := by
  rw [sound, List.map_map]
  exact List.map_id ts

end Lexeme

/-- The first token of a text inside brackets. -/
def Reach.inside (c : Char) (cs : List Char) : Reach :=
  if isBreak c then ⟨.nl, Lexeme.breakMore c cs, none⟩ else .scan c cs

namespace Layout

open Token (spelled)
open Lexeme (sound)

@[simp] theorem covered_sound (ts : List Token) : covered (sound ts) = spelled ts := by
  induction ts with
  | nil => rfl
  | cons t ts ih => rw [Lexeme.sound_cons, covered_cons, ih, Token.spelled_cons]

section
variable {blocks : List Nat} {d : Nat} {text : List Char}

/-- Tokens without problems cover the text that they are the tokens of. -/
theorem spelled_of_lexFrom {mode : Mode} {ts : List Token}
    (h : lexFrom blocks mode text = sound ts) : text = spelled ts := by
  rw [← covered_sound, ← h, covered_lexFrom]

theorem lexFrom_inside (c : Char) (cs : List Char) :
    lexFrom blocks (.inLine (d + 1) true) (c :: cs) =
      (Reach.inside c cs).taken c cs ::
        lexFrom blocks (.inLine (depthAfter (d + 1) (Reach.inside c cs).kind) true)
          ((Reach.inside c cs).left cs) := by
  rw [lexFrom]
  unfold Reach.inside
  by_cases hc : isBreak c = true
  · simp [hc, depthAfter]
  · simp [hc]

/-- A token inside brackets, unless it is a mark at the end of the text. -/
theorem inside_of_lexFrom {l : Lexeme} {ls : List Lexeme}
    (h : lexFrom blocks (.inLine (d + 1) true) text = l :: ls)
    (hl : l.token.kind.isLayout = false) : ∃ c cs, text = c :: cs ∧
      l = (Reach.inside c cs).taken c cs ∧
      ls = lexFrom blocks (.inLine (depthAfter (d + 1) l.token.kind) true)
        ((Reach.inside c cs).left cs) := by
  cases text with
  | nil =>
    rw [lexFrom] at h
    have hmem : l ∈ finish blocks true := h ▸ List.mem_cons_self
    rcases mem_finish hmem with rfl | rfl <;> cases hl
  | cons c cs =>
    rw [lexFrom_inside] at h
    obtain ⟨rfl, rfl⟩ := List.cons.inj h
    exact ⟨c, cs, rfl, rfl, rfl⟩

theorem depthAfter_eq_of_climb {k : Kind} {e : Nat} (h : k.climb d = some e) :
    depthAfter d k = e := by
  unfold Kind.climb at h
  split at h <;> rename_i hopen
  · cases h
    simp only [Kind.openers, List.contains_cons, List.contains_nil, Bool.or_false, Bool.or_eq_true,
      beq_iff_eq] at hopen
    rcases hopen with rfl | rfl | rfl <;> rfl
  split at h <;> rename_i hclose
  · split at h
    · cases h
    · cases h
      simp only [Kind.closers, List.contains_cons, List.contains_nil, Bool.or_false,
        Bool.or_eq_true, beq_iff_eq] at hclose
      rcases hclose with rfl | rfl | rfl <;> rfl
  split at h
  · cases h
  · cases h
    unfold depthAfter
    split <;> first | rfl | exact absurd rfl hopen | exact absurd rfl hclose

theorem depthAfter_of_climb {k : Kind} {e : Nat} (h : k.climb d = some e) :
    depthAfter (d + 1) k = e + 1 :=
  depthAfter_eq_of_climb (Kind.climb_add h 1)

/-- How many brackets are open behind some tokens, as the scan counts them. -/
def depthPast (d : Nat) (ts : List Token) : Nat := ts.foldl (fun d t => depthAfter d t.kind) d

theorem depthPast_cons (d : Nat) (t : Token) (ts : List Token) :
    depthPast d (t :: ts) = depthPast (depthAfter d t.kind) ts := rfl

theorem depthPast_append (d : Nat) (ts us : List Token) :
    depthPast d (ts ++ us) = depthPast (depthPast d ts) us :=
  List.foldl_append

theorem depthPast_of_climb {ts : List Token} {e : Nat} (h : Token.climb d ts = some e) :
    depthPast d ts = e := by
  induction ts generalizing d with
  | nil => exact Option.some.inj h
  | cons t ts ih =>
    rw [Token.climb, Option.bind_eq_some_iff] at h
    obtain ⟨f, hf, h⟩ := h
    rw [depthPast_cons, depthAfter_eq_of_climb hf, ih h]

/-- Tokens that keep to the brackets they open leave the scan where they climb to. -/
theorem lexFrom_of_climb {ts : List Token} {ls : List Lexeme} {e : Nat}
    (h : lexFrom blocks (.inLine (d + 1) true) text = sound ts ++ ls)
    (hts : Token.climb d ts = some e) :
    lexFrom blocks (.inLine (e + 1) true) (covered ls) = ls := by
  induction ts generalizing d text with
  | nil =>
    cases hts
    rw [Lexeme.sound_nil, List.nil_append] at h
    rw [← h, covered_lexFrom]
  | cons t ts ih =>
    rw [Token.climb, Option.bind_eq_some_iff] at hts
    obtain ⟨f, hf, hts⟩ := hts
    obtain ⟨c, cs, rfl, -, hrest⟩ := inside_of_lexFrom h (Kind.not_isLayout_of_climb hf)
    rw [show (⟨t, none⟩ : Lexeme).token = t from rfl, depthAfter_of_climb hf] at hrest
    exact ih hrest.symm hts

end

/-! ## From a place in a line on -/

section
variable {blocks : List Nat} {text : List Char}

theorem isSpace_of_mem_takeWhile :
    ∀ a ∈ text.takeWhile Lexeme.isSpace, Lexeme.isSpace a = true :=
  List.all_eq_true.1 List.all_takeWhile

/-- The indentation of a fresh line ends where its content starts. -/
theorem not_isSpace_of_dropWhile {c : Char} {cs : List Char}
    (h : text.dropWhile Lexeme.isSpace = c :: cs) : Lexeme.isSpace c = false := by
  have := List.head?_dropWhile_not Lexeme.isSpace text
  rw [h] at this
  simpa using this

theorem lexFrom_fresh_cons {indentation : List Char}
    (hspace : ∀ a ∈ indentation, Lexeme.isSpace a = true) {c : Char}
    (hc : Lexeme.isSpace c = false) (cs : List Char) :
    lexFrom blocks .fresh (indentation ++ c :: cs) = blanks indentation ++
      if isBreak c then
        Reach.taken ⟨.nl, Lexeme.breakMore c cs, none⟩ c cs ::
          lexFrom blocks .fresh (Reach.left ⟨.nl, Lexeme.breakMore c cs, none⟩ cs)
      else if c == '#' then
        Reach.taken ⟨.comment, Lexeme.commentMore cs, none⟩ c cs ::
          lexFrom blocks .fresh (Reach.left ⟨.comment, Lexeme.commentMore cs, none⟩ cs)
      else
        (marks blocks (columnOf indentation)).1 ++
          lexFrom (marks blocks (columnOf indentation)).2 (.inLine 0 false) (c :: cs) := by
  have htake : (indentation ++ c :: cs).takeWhile Lexeme.isSpace = indentation := by
    rw [List.takeWhile_append_of_pos hspace, List.takeWhile_cons, hc,
      if_neg Bool.false_ne_true, List.append_nil]
  have hdrop : (indentation ++ c :: cs).dropWhile Lexeme.isSpace = c :: cs := by
    rw [List.dropWhile_append_of_pos hspace, List.dropWhile_cons, hc, if_neg Bool.false_ne_true]
  conv_lhs => rw [lexFrom]
  split <;> rename_i heq <;> rw [hdrop] at heq
  · cases heq
  · obtain ⟨rfl, rfl⟩ := List.cons.inj heq
    simp only [htake]
    split
    · rfl
    split
    · rfl
    · exact List.append_assoc ..

/-- A fresh line with nothing on it at the end of the text. -/
theorem lexFrom_fresh_of_blank (h : text.dropWhile Lexeme.isSpace = [])
    (blocks : List Nat) : lexFrom blocks .fresh text =
      blanks (text.takeWhile Lexeme.isSpace) ++ finish blocks false := by
  rw [lexFrom]
  split <;> rename_i heq
  · rfl
  · rw [h] at heq
    cases heq

theorem lexFrom_inLine_cons {depth : Nat} {content : Bool} (c : Char) (cs : List Char) :
    lexFrom blocks (.inLine depth content) (c :: cs) =
      if isBreak c then
        if depth = 0 && content then
          Reach.taken ⟨.newline, Lexeme.breakMore c cs, none⟩ c cs ::
            lexFrom blocks .fresh (Reach.left ⟨.newline, Lexeme.breakMore c cs, none⟩ cs)
        else
          Reach.taken ⟨.nl, Lexeme.breakMore c cs, none⟩ c cs ::
            lexFrom blocks (.inLine depth content)
              (Reach.left ⟨.nl, Lexeme.breakMore c cs, none⟩ cs)
      else
        (Reach.scan c cs).taken c cs ::
          lexFrom blocks (.inLine (depthAfter depth (Reach.scan c cs).kind)
            (content || (Reach.scan c cs).kind.isContent)) ((Reach.scan c cs).left cs) := by
  conv_lhs => rw [lexFrom]

/-- A list in front of an element that is not in another one begins with that one. -/
theorem append_eq_append_cons {α : Type} {xs ys as bs : List α} {a : α}
    (h : xs ++ ys = as ++ a :: bs) (ha : a ∉ xs) : ∃ cs, as = xs ++ cs ∧ ys = cs ++ a :: bs := by
  rcases List.append_eq_append_iff.1 h with ⟨cs, has, hys⟩ | ⟨cs, hxs, hcs⟩
  · exact ⟨cs, has, hys⟩
  · cases cs with
    | nil => exact ⟨[], by rw [List.append_nil] at hxs ⊢; exact hxs.symm, hcs.symm⟩
    | cons c cs =>
      obtain ⟨rfl, -⟩ := List.cons.inj hcs
      exact absurd (by rw [hxs]; simp) ha

/-- The lexeme of a parenthesis. -/
def paren : Lexeme := ⟨⟨.lParen, "("⟩, none⟩

theorem eq_paren_of_mem {mode : Mode} {l : Lexeme} (h : l ∈ lexFrom blocks mode text)
    (hl : l.token.kind = .lParen) : l = paren := by
  obtain ⟨c, cs, rfl⟩ := exists_scan_of_mem_lexFrom h (by rw [hl]; rfl) (by rw [hl]; rfl)
  obtain ⟨rfl, hscan⟩ := scan_of_punctuation (a := '(') (by decide) hl
  rw [hscan]
  rfl

end

end Layout

/-! ## Trivia inside brackets -/

namespace Lexeme

theorem breakMore_congr {c a a' : Char} {ys us us' : List Char}
    (h : breakMore c (ys ++ a :: us) = ys.length) (ha : a' = a ∨ a' ≠ '\n') :
    breakMore c (ys ++ a' :: us') = ys.length := by
  cases ys with
  | nil =>
    rcases ha with rfl | ha
    · exact h
    · simp [breakMore, ha]
  | cons y ys => exact h

theorem runLength_congr {p : Char → Bool} {a a' : Char} {ys us us' : List Char}
    (h : runLength p (ys ++ a :: us) = ys.length) (ha : p a = false → p a' = false) :
    runLength p (ys ++ a' :: us') = ys.length := by
  have hpa : p a = false := by
    unfold runLength at h
    rw [List.takeWhile_append] at h
    split at h <;> rename_i hall
    · cases hp : p a with
      | false => rfl
      | true => simp [hp] at h
    · exact absurd h hall
  rw [runLength_append_cons hpa] at h
  rw [runLength_append_cons (ha hpa), h]

theorem ne_of_isDigit {a b : Char} (ha : a.isDigit = true) (hb : b.isDigit = false) : a ≠ b := by
  rintro rfl
  rw [ha] at hb
  cases hb

theorem not_isSpace_of_isDigit {a : Char} (ha : a.isDigit = true) : isSpace a = false := by
  simp only [isSpace, Bool.or_eq_false_iff, beq_eq_false_iff_ne]
  exact ⟨⟨ne_of_isDigit ha rfl, ne_of_isDigit ha rfl⟩, ne_of_isDigit ha rfl⟩

theorem not_isBreak_of_isSpace {a : Char} (ha : isSpace a = true) : isBreak a = false := by
  simp only [isSpace, Bool.or_eq_true, beq_iff_eq] at ha
  rcases ha with (rfl | rfl) | rfl <;> rfl

theorem not_isBreak_of_isDigit {a : Char} (ha : a.isDigit = true) : isBreak a = false := by
  simp only [isBreak, Bool.or_eq_false_iff, beq_eq_false_iff_ne]
  exact ⟨ne_of_isDigit ha rfl, ne_of_isDigit ha rfl⟩

end Lexeme

/-- What a token of trivia inside brackets is, by its first character. -/
theorem Reach.inside_of_trivia {c : Char} {cs : List Char}
    (h : (Reach.inside c cs).kind.isTrivia = true) :
    isBreak c = true ∧ Reach.inside c cs = ⟨.nl, Lexeme.breakMore c cs, none⟩ ∨
      Lexeme.isSpace c = true ∧
        Reach.inside c cs = ⟨.whitespace, Lexeme.runLength Lexeme.isSpace cs, none⟩ ∨
      c = '#' ∧ Reach.inside c cs = ⟨.comment, Lexeme.commentMore cs, none⟩ ∨
      c = '\\' ∧ ∃ b bs, cs = b :: bs ∧ isBreak b = true ∧
        Reach.inside c cs = ⟨.lineContinuation, 1 + Lexeme.breakMore b bs, none⟩ := by
  unfold Reach.inside at h ⊢
  split at h <;> rename_i hbreak
  · exact .inl ⟨hbreak, if_pos hbreak⟩
  rw [if_neg hbreak]
  unfold Reach.scan at h ⊢
  split at h <;> rename_i hspace
  · exact .inr (.inl ⟨hspace, if_pos hspace⟩)
  rw [if_neg hspace]
  split at h <;> rename_i hcomment
  · exact .inr (.inr (.inl ⟨beq_iff_eq.1 hcomment, if_pos hcomment⟩))
  rw [if_neg hcomment]
  split at h <;> rename_i hslash
  · rw [if_pos hslash]
    unfold Lexeme.continuation at h ⊢
    split at h
    · rename_i b bs
      split at h <;> rename_i hb
      · exact .inr (.inr (.inr ⟨beq_iff_eq.1 hslash, b, bs, rfl, hb, if_pos hb⟩))
      · cases h
    · cases h
  split at h
  · rw [Lexeme.kind_number] at h
    cases h
  split at h
  · cases h
  split at h
  · have hword := Lexeme.kind_word (P := fun k => k.isTrivia = false) rfl rfl (by decide) c cs
    rw [hword] at h
    cases h
  · have hop := Lexeme.kind_operator (P := fun k => k.isTrivia = false) rfl (by decide) c cs
    rw [hop] at h
    cases h

/-- Trivia ends where it does, whatever follows it, if that starts in the same way or with a digit. A
digit does not end a comment. -/
theorem Reach.inside_congr {c a a' : Char} {ys us us' : List Char}
    (htriv : (Reach.inside c (ys ++ a :: us)).kind.isTrivia = true)
    (hmore : (Reach.inside c (ys ++ a :: us)).more = ys.length)
    (ha : a' = a ∨ isBreak a = false ∧ a'.isDigit = true) :
    Reach.inside c (ys ++ a' :: us') = Reach.inside c (ys ++ a :: us) := by
  have hfeed : a' = a ∨ a' ≠ '\n' := ha.imp id fun h => Lexeme.ne_of_isDigit h.2 rfl
  rcases Reach.inside_of_trivia htriv with ⟨hc, h⟩ | ⟨hc, h⟩ | ⟨rfl, h⟩ | ⟨rfl, b, bs, hbs, hb, h⟩ <;>
    rw [h] at hmore ⊢ <;> dsimp only at hmore
  · rw [Reach.inside, if_pos hc, Lexeme.breakMore_congr hmore hfeed, hmore]
  · have hspace (hsa : Lexeme.isSpace a = false) : Lexeme.isSpace a' = false := by
      rcases ha with rfl | ⟨-, hdigit⟩
      · exact hsa
      · exact Lexeme.not_isSpace_of_isDigit hdigit
    rw [Reach.inside, Lexeme.not_isBreak_of_isSpace hc, if_neg Bool.false_ne_true, Reach.scan,
      if_pos hc, Lexeme.runLength_congr hmore hspace, hmore]
  · have hline (hla : (!isBreak a) = false) : (!isBreak a') = false := by
      rcases ha with rfl | ⟨hba, -⟩
      · exact hla
      · rw [hba] at hla
        cases hla
    rw [show Reach.inside '#' (ys ++ a' :: us') =
        ⟨.comment, Lexeme.commentMore (ys ++ a' :: us'), none⟩ from rfl, hmore,
      Lexeme.commentMore, Lexeme.runLength_congr hmore hline]
  · cases ys with
    | nil => simp at hmore
    | cons y ys =>
      obtain ⟨rfl, rfl⟩ := List.cons.inj hbs
      rw [List.length_cons, Nat.add_comm, Nat.add_right_cancel_iff] at hmore
      rw [List.cons_append, show Reach.inside '\\' (y :: (ys ++ a' :: us')) =
        Lexeme.continuation (y :: (ys ++ a' :: us')) from rfl, Lexeme.continuation, if_pos hb,
        Lexeme.breakMore_congr hmore hfeed, hmore]

namespace Layout

open Token (spelled)
open Lexeme (sound)

section
variable {blocks : List Nat} {d : Nat} {text : List Char} {t : Token} {us : List Token}

/-- The first token of a text inside brackets, by its characters. -/
theorem exists_inside_of_lexFrom (h : lexFrom blocks (.inLine (d + 1) true) text = sound (t :: us))
    (ht : t.kind.isLayout = false) : ∃ c ys, t.text.toList = c :: ys ∧
      (Reach.inside c (ys ++ spelled us)).kind = t.kind ∧
      (Reach.inside c (ys ++ spelled us)).problem? = none ∧
      (spelled us ≠ [] → (Reach.inside c (ys ++ spelled us)).more = ys.length) ∧
      lexFrom blocks (.inLine (depthAfter (d + 1) t.kind) true) (spelled us) = sound us := by
  obtain ⟨c, cs, rfl, hl, hrest⟩ := inside_of_lexFrom h ht
  have hleft := spelled_of_lexFrom hrest.symm
  rw [hleft] at hrest
  obtain ⟨htoken, hproblem⟩ := Lexeme.mk.inj hl
  obtain ⟨hkind, htext⟩ := Token.mk.inj htoken
  have hcs : cs = cs.take (Reach.inside c cs).more ++ spelled us := by
    rw [← hleft, Reach.left, List.take_append_drop]
  refine ⟨c, cs.take (Reach.inside c cs).more, by rw [htext, String.toList_ofList], ?_⟩
  rw [← hcs]
  refine ⟨hkind.symm, hproblem.symm, fun hus => ?_, hrest.symm⟩
  rw [List.length_take, Nat.min_eq_left]
  rw [← Nat.not_lt]
  intro hlt
  rw [Reach.left, List.drop_eq_nil_of_le (Nat.le_of_lt hlt)] at hleft
  exact hus hleft.symm

/-- A token that is no trivia starts with neither a line break nor a space. -/
theorem exists_solid_of_lexFrom (h : lexFrom blocks (.inLine (d + 1) true) text = sound (t :: us))
    (htriv : t.kind.isTrivia = false) (ht : t.kind.isLayout = false) : ∃ c ys,
      t.text.toList = c :: ys ∧ isBreak c = false ∧ Lexeme.isSpace c = false := by
  obtain ⟨c, ys, htext, hkind, -⟩ := exists_inside_of_lexFrom h ht
  refine ⟨c, ys, htext, ?_, ?_⟩ <;> rw [← Bool.not_eq_true] <;> intro hc
  · rw [Reach.inside, if_pos hc] at hkind
    rw [← hkind] at htriv
    cases htriv
  · rw [Reach.inside, Lexeme.not_isBreak_of_isSpace hc, if_neg Bool.false_ne_true, Reach.scan,
      if_pos hc] at hkind
    rw [← hkind] at htriv
    cases htriv

/-- Trivia in front of a token are the same when a digit takes the place of the token. -/
theorem lexFrom_trivia {ws : List Token} (hws : ∀ w ∈ ws, w.kind.isTrivia = true)
    (htriv : t.kind.isTrivia = false) (ht : t.kind.isLayout = false)
    (h : lexFrom blocks (.inLine (d + 1) true) text = sound (ws ++ t :: us)) {b : Char}
    (hb : b.isDigit = true) (v : List Char) :
    lexFrom blocks (.inLine (d + 1) true) (spelled ws ++ b :: v) =
      sound ws ++ lexFrom blocks (.inLine (d + 1) true) (b :: v) := by
  induction ws generalizing text with
  | nil => rfl
  | cons w ws ih =>
    have hw := hws w List.mem_cons_self
    have hws' : ∀ v ∈ ws, v.kind.isTrivia = true := fun v hv => hws v (List.mem_cons_of_mem _ hv)
    have hclimb := Kind.climb_of_isTrivia hw d
    rw [List.cons_append] at h
    obtain ⟨c, ys, htext, hkind, hproblem, hmore, hrest⟩ :=
      exists_inside_of_lexFrom h (Kind.not_isLayout_of_climb hclimb)
    rw [depthAfter_of_climb hclimb] at hrest
    -- What follows starts with the same character as before, or with the digit.
    obtain ⟨a, u, a', u', hold, hnew, ha⟩ : ∃ a u a' u', spelled (ws ++ t :: us) = a :: u ∧
        spelled ws ++ b :: v = a' :: u' ∧ (a' = a ∨ isBreak a = false ∧ a'.isDigit = true) := by
      cases ws with
      | nil =>
        obtain ⟨a, u, ha, hbreak, -⟩ := exists_solid_of_lexFrom hrest htriv ht
        exact ⟨a, u ++ spelled us, b, v, by simp [ha], rfl, .inr ⟨hbreak, hb⟩⟩
      | cons x xs =>
        have hx := Kind.climb_of_isTrivia (hws' x List.mem_cons_self) d
        obtain ⟨a, u, ha, -⟩ := exists_inside_of_lexFrom hrest (Kind.not_isLayout_of_climb hx)
        exact ⟨a, u ++ spelled (xs ++ t :: us), a, u ++ (spelled xs ++ b :: v), by simp [ha],
          by simp [ha], .inl rfl⟩
    have hlen := hmore (by rw [hold]; exact List.cons_ne_nil _ _)
    have hreach : Reach.inside c (ys ++ a' :: u') =
        Reach.inside c (ys ++ spelled (ws ++ t :: us)) := by
      rw [hold] at hkind hlen ⊢
      exact Reach.inside_congr (hkind ▸ hw) hlen ha
    rw [Token.spelled_cons, htext, List.append_assoc, List.cons_append, hnew, lexFrom_inside,
      hreach, Reach.taken, Reach.left, hkind, hlen, hproblem, List.take_left, List.drop_left,
      depthAfter_of_climb hclimb, ← hnew, ih hws' hrest, ← htext, String.ofList_toList]
    rfl

end

end Layout

end Renumber
