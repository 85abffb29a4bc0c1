import Renumber.Proofs.Grammar.Clean

/-!
# Reading without trivia

Trivia are kept in a tree as ordinary children, but no rule of the grammar looks at them. So a phrase reads
of the tokens that are not trivia what it reads of all of them, without the trivia (`Makes.bare`): it builds
the same trees but for the trivia tokens in them (`Tree.bareOf`), leaves the same tokens and reports the same
faults in front of the same tokens. The faults come in the order of these tokens (`Makes.inOrder`).
-/

namespace Renumber

namespace Token

@[simp] theorem significant_nil : significant [] = [] := rfl

@[simp] theorem significant_append (ts us : List Token) :
    significant (ts ++ us) = significant ts ++ significant us :=
  List.filter_append ..

theorem significant_cons_of_trivia {t : Token} (h : t.kind.isTrivia = true) (ts : List Token) :
    significant (t :: ts) = significant ts := by
  simp [significant, h]

theorem significant_cons_of_not_trivia {t : Token} (h : t.kind.isTrivia = false)
    (ts : List Token) : significant (t :: ts) = t :: significant ts := by
  simp [significant, h]

theorem significant_of_trivia {ts : List Token} (h : ∀ t ∈ ts, t.kind.isTrivia = true) :
    significant ts = [] := by
  rw [significant, List.filter_eq_nil_iff]
  intro t ht
  simp [h t ht]

end Token

namespace Tree

/-- The tree is a trivia token. -/
def isTrivia : Tree → Bool
  | token t => t.kind.isTrivia
  | node .. => false

@[simp] theorem isTrivia_token (t : Token) : (token t).isTrivia = t.kind.isTrivia := rfl
@[simp] theorem isTrivia_node (k : Kind) (cs : List Tree) : (node k cs).isTrivia = false := rfl

mutual

/-- The tree without the trivia tokens below it. -/
def bare : Tree → Tree
  | token t => token t
  | node k cs => node k (bareOf cs)

/-- The trees without the trivia tokens among and below them. -/
def bareOf : List Tree → List Tree
  | [] => []
  | t :: ts => if t.isTrivia then bareOf ts else t.bare :: bareOf ts

end

@[simp] theorem bare_token (t : Token) : (token t).bare = token t := by rw [bare]
@[simp] theorem bare_node (k : Kind) (cs : List Tree) : (node k cs).bare = node k (bareOf cs) := by
  rw [bare]
@[simp] theorem bareOf_nil : bareOf [] = [] := by rw [bareOf]

theorem bareOf_cons_of_trivia {t : Tree} (h : t.isTrivia = true) (ts : List Tree) :
    bareOf (t :: ts) = bareOf ts := by
  rw [bareOf, if_pos h]

theorem bareOf_cons_of_not_trivia {t : Tree} (h : t.isTrivia = false) (ts : List Tree) :
    bareOf (t :: ts) = t.bare :: bareOf ts := by
  rw [bareOf, h]
  rfl

@[simp] theorem bareOf_node_cons (k : Kind) (cs ts : List Tree) :
    bareOf (node k cs :: ts) = node k (bareOf cs) :: bareOf ts := by
  rw [bareOf_cons_of_not_trivia (isTrivia_node k cs), bare_node]

@[simp] theorem isTrivia_bare (t : Tree) : t.bare.isTrivia = t.isTrivia := by
  cases t with
  | token => rw [bare_token]
  | node => rw [bare_node]; rfl

theorem bareOf_singleton_congr {t u : Tree} (h : u.bare = t.bare) : bareOf [u] = bareOf [t] := by
  have htrivia : u.isTrivia = t.isTrivia := by rw [← isTrivia_bare, h, isTrivia_bare]
  simp [bareOf, htrivia, h]

@[simp] theorem bareOf_append (ts us : List Tree) : bareOf (ts ++ us) = bareOf ts ++ bareOf us := by
  induction ts with
  | nil => simp
  | cons t ts ih =>
    cases h : t.isTrivia with
    | true => rw [List.cons_append, bareOf_cons_of_trivia h, bareOf_cons_of_trivia h, ih]
    | false =>
      rw [List.cons_append, bareOf_cons_of_not_trivia h, bareOf_cons_of_not_trivia h, ih,
        List.cons_append]

@[simp] theorem bareOf_map_token (ts : List Token) :
    bareOf (ts.map token) = (Token.significant ts).map token := by
  induction ts with
  | nil => simp
  | cons t ts ih =>
    cases h : t.kind.isTrivia with
    | true =>
      rw [List.map_cons, bareOf_cons_of_trivia (by exact h), Token.significant_cons_of_trivia h, ih]
    | false =>
      rw [List.map_cons, bareOf_cons_of_not_trivia (by exact h), bare_token,
        Token.significant_cons_of_not_trivia h, List.map_cons, ih]

mutual

theorem leaves_bare : (t : Tree) → t.isTrivia = false → t.bare.leaves = Token.significant t.leaves
  | token t, h => by
    rw [bare_token, leaves_token, Token.significant_cons_of_not_trivia h, Token.significant_nil]
  | node k cs, _ => by rw [bare_node, leaves_node, leaves_node, leavesOf_bareOf cs]

/-- What is left without trivia are the tokens that are none. -/
theorem leavesOf_bareOf : (ts : List Tree) → leavesOf (bareOf ts) = Token.significant (leavesOf ts)
  | [] => by simp
  | t :: ts => by
    cases h : t.isTrivia with
    | true =>
      cases t with
      | node k cs => cases h
      | token t =>
        rw [bareOf_cons_of_trivia h, leavesOf_bareOf ts, leavesOf_cons, leaves_token,
          Token.significant_append, Token.significant_cons_of_trivia h, Token.significant_nil,
          List.nil_append]
    | false =>
      rw [bareOf_cons_of_not_trivia h, leavesOf_cons, leavesOf_cons, leaves_bare t h,
        leavesOf_bareOf ts, Token.significant_append]

end

end Tree

namespace Grammar

open Phrase
open Token (significant)

/-! ## What comes next -/

section
variable (ts : List Token)

theorem significant_pending : significant (pending ts) = [] :=
  Token.significant_of_trivia fun _ ht => trivia_of_mem_pending ht

@[simp] theorem significant_upcoming : significant (upcoming ts) = significant ts := by
  have h := congrArg significant (pending_append_upcoming ts)
  rwa [Token.significant_append, significant_pending, List.nil_append] at h

theorem upcoming_significant : upcoming (significant ts) = significant ts := by
  refine upcoming_of_head fun t ht => ?_
  have hmem : t ∈ significant ts := List.mem_of_mem_head? ht
  simpa using (List.mem_filter.1 hmem).2

theorem pending_of_significant : pending (significant ts) = [] :=
  upcoming_eq_self_iff.1 (upcoming_significant ts)

end

theorem significant_of_upcoming {ts us : List Token} {t : Token} (h : upcoming ts = t :: us) :
    significant ts = t :: significant us := by
  rw [← significant_upcoming, h, Token.significant_cons_of_not_trivia (not_trivia_of_upcoming h)]

theorem significant_of_upcoming_nil {ts : List Token} (h : upcoming ts = []) :
    significant ts = [] := by
  rw [← significant_upcoming, h, Token.significant_nil]

theorem head?_significant (ts : List Token) : (significant ts).head? = (upcoming ts).head? := by
  cases h : upcoming ts with
  | nil => rw [significant_of_upcoming_nil h]
  | cons t us => rw [significant_of_upcoming h]; rfl

theorem drop_significant (ts : List Token) :
    (significant ts).drop 1 = significant ((upcoming ts).drop 1) := by
  cases h : upcoming ts with
  | nil => rw [significant_of_upcoming_nil h]; rfl
  | cons t us => rw [significant_of_upcoming h]; rfl

theorem take_significant (ts : List Token) :
    (significant ts).take 1 = significant ((upcoming ts).take 1) := by
  cases h : upcoming ts with
  | nil => rw [significant_of_upcoming_nil h]; rfl
  | cons t us =>
    rw [significant_of_upcoming h, List.take_succ_cons, List.take_succ_cons, List.take_zero,
      List.take_zero, Token.significant_cons_of_not_trivia (not_trivia_of_upcoming h),
      Token.significant_nil]

theorem nextKind_significant (ts : List Token) : nextKind (significant ts) = nextKind ts := by
  rw [nextKind, nextKind, upcoming_significant, head?_significant]

/-- No condition looks at trivia. -/
theorem Look.holds_significant (l : Look) (ts : List Token) :
    l.holds (significant ts) = l.holds ts := by
  refine holds_congr (nextKind_significant ts) ?_ ?_ l
  · rw [nextText, nextText, upcoming_significant, head?_significant]
  · rw [secondKind, secondKind, upcoming_significant, drop_significant, nextKind_significant]

end Grammar

/-! ## Readings -/

/-- The fault by the tokens that are not trivia. -/
def Fault.bare (f : Fault) : Fault := ⟨f.problem, Token.significant f.rest⟩

/-- The reading without trivia. -/
def Grammar.Reading.bare (r : Grammar.Reading) : Grammar.Reading :=
  ⟨Tree.bareOf r.trees, Token.significant r.rest, r.faults.map Fault.bare⟩

namespace Grammar

open Phrase
open Token (significant)

theorem bareOf_adoptAll (cs ns : List Tree) :
    Tree.bareOf (adoptAll cs ns) = adoptAll (Tree.bareOf cs) (Tree.bareOf ns) := by
  induction ns generalizing cs with
  | nil => simp [adoptAll]
  | cons t ns ih =>
    have hcons : adoptAll cs (t :: ns) = adoptAll (adoptOne cs t) ns := rfl
    rw [hcons, ih]
    cases t with
    | node k ds => simp [adoptOne, adoptAll]
    | token t =>
      cases h : t.kind.isTrivia with
      | true =>
        rw [Tree.bareOf_cons_of_trivia (by exact h), adoptOne, Tree.bareOf_append,
          Tree.bareOf_cons_of_trivia (by exact h), Tree.bareOf_nil, List.append_nil]
      | false =>
        rw [Tree.bareOf_cons_of_not_trivia (by exact h), adoptOne, Tree.bareOf_append,
          Tree.bareOf_cons_of_not_trivia (by exact h), Tree.bareOf_nil]
        rfl

/-- A phrase reads of the tokens that are not trivia what it reads of all of them, without the
trivia. -/
theorem Makes.bare {α : Type} {g : α → Phrase α} {p : Phrase α} {ts : List Token} {r : Reading}
    (h : Makes g p ts r) : Makes g p (significant ts) r.bare := by
  induction h with
  | done => exact .done
  | @trivia ts =>
    have h : Makes g .trivia (significant ts) _ := .trivia
    simpa [Reading.bare, upcoming_significant, pending_of_significant, significant_pending] using h
  | @next ts =>
    have h : Makes g .next (significant ts) _ := .next
    simpa only [Reading.bare, upcoming_significant, pending_of_significant, significant_pending,
      Tree.bareOf_map_token, Token.significant_append, take_significant, drop_significant,
      List.nil_append, List.map_nil] using h
  | @fault problem ts =>
    have h : Makes g (.fault problem) (significant ts) _ := .fault
    simpa [Reading.bare, Fault.bare, upcoming_significant] using h
  | seq _ _ iha ihb => simpa [Reading.bare] using iha.seq ihb
  | left hl _ ih => exact .left ((Look.holds_significant _ _).trans hl) ih
  | right hl _ ih => exact .right ((Look.holds_significant _ _).trans hl) ih
  | stop hl => exact .stop ((Look.holds_significant _ _).trans hl)
  | again hl _ _ iha ihb =>
    simpa [Reading.bare] using Makes.again ((Look.holds_significant _ _).trans hl) iha ihb
  | enclose _ ih => simpa [Reading.bare] using ih.enclose
  | adopt _ _ iha ihb => simpa [Reading.bare, bareOf_adoptAll] using iha.adopt ihb
  | rule _ ih => exact .rule ih

/-- What is read of a file without its trivia is what is read of the file, without trivia. -/
theorem readFile_significant (ts : List Token) :
    readFile (significant ts) = (readFile ts).bare := (makes_readFile ts).bare.readFile_eq

/-! ## The order of the faults -/

/-- The faults of a reading that starts in front of some tokens come one after another, each in front of
the next token of those that were left then. -/
structure Reading.InOrder (ts : List Token) (r : Reading) : Prop where
  pairwise : r.faults.Pairwise fun f f' => f'.rest <:+ f.rest
  head : ∀ f ∈ r.faults, upcoming f.rest = f.rest
  within : ∀ f ∈ r.faults, f.rest <:+ upcoming ts
  ahead : ∀ f ∈ r.faults, upcoming r.rest <:+ f.rest

theorem Reading.InOrder.of_faults_nil {ts : List Token} {r : Reading} (h : r.faults = []) :
    r.InOrder ts := by
  constructor <;> simp [h]

/-- The faults of two readings one after another. -/
theorem Reading.InOrder.append {ts : List Token} {a b : Reading} {trees : List Tree}
    (ha : a.InOrder ts) (hb : b.InOrder a.rest) (hts : a.rest <:+ ts) (hrest : b.rest <:+ a.rest) :
    Reading.InOrder ts ⟨trees, b.rest, a.faults ++ b.faults⟩ where
  pairwise := List.pairwise_append.2 ⟨ha.pairwise, hb.pairwise, fun f hf f' hf' =>
    (hb.within f' hf').trans (ha.ahead f hf)⟩
  head f hf := (List.mem_append.1 hf).elim (ha.head f) (hb.head f)
  within f hf := (List.mem_append.1 hf).elim (ha.within f) fun h =>
    (hb.within f h).trans (upcoming_suffix_of_suffix hts)
  ahead f hf := (List.mem_append.1 hf).elim
    (fun h => (upcoming_suffix_of_suffix hrest).trans (ha.ahead f h)) (hb.ahead f)

/-- The faults of a reading come in order. -/
theorem Makes.inOrder {α : Type} {g : α → Phrase α} {p : Phrase α} {ts : List Token} {r : Reading}
    (h : Makes g p ts r) : r.InOrder ts := by
  induction h with
  | done | trivia | next | stop => exact .of_faults_nil rfl
  | fault => constructor <;> simp
  | seq ha hb iha ihb | adopt ha hb iha ihb | again _ ha hb iha ihb =>
    exact iha.append ihb ha.rest_suffix hb.rest_suffix
  | enclose _ ih => exact ⟨ih.pairwise, ih.head, ih.within, ih.ahead⟩
  | left _ _ ih | right _ _ ih | rule _ ih => exact ih

theorem inOrder_readFile (ts : List Token) : (readFile ts).InOrder ts := (makes_readFile ts).inOrder

end Grammar

end Renumber
