import Renumber.Grammar.Rule
import Renumber.Proofs.Grammar.Kinds

/-!
# What a condition can say

A condition (`Look`) asks for the next two tokens that are not trivia. When only the kind of one of them
is known, its outcome may be open: `Look.may` is the set of kinds of the next token with which an
outcome is possible, `Look.maySecond` the same for the token after it, and the real kinds are always in
those sets (`Look.may_holds`, `Look.maySecond_holds`). The rest of the theory looks at the grammar
through this, without running it.
-/

namespace Renumber.Grammar

/-! ## The next token -/

@[simp] theorem upcoming_nil : upcoming [] = [] := rfl

@[simp] theorem pending_nil : pending [] = [] := rfl

theorem upcoming_cons_of_trivia {t : Token} (h : t.kind.isTrivia = true) (ts : List Token) :
    upcoming (t :: ts) = upcoming ts := by
  simp [upcoming, h]

theorem upcoming_cons_of_not_trivia {t : Token} (h : t.kind.isTrivia = false) (ts : List Token) :
    upcoming (t :: ts) = t :: ts := by
  simp [upcoming, h]

/-- The tokens from the next one on start with it: no trivia token comes first. -/
theorem not_trivia_of_upcoming {ts us : List Token} {t : Token} (h : upcoming ts = t :: us) :
    t.kind.isTrivia = false := by
  have := List.head?_dropWhile_not (fun t : Token => t.kind.isTrivia) ts
  rw [show ts.dropWhile _ = t :: us from h] at this
  simpa using this

theorem upcoming_of_head {ts : List Token} (h : ∀ t ∈ ts.head?, t.kind.isTrivia = false) :
    upcoming ts = ts := by
  cases ts with
  | nil => rfl
  | cons t ts => exact upcoming_cons_of_not_trivia (h t rfl) ts

theorem upcoming_eq_self_iff {ts : List Token} : upcoming ts = ts ↔ pending ts = [] := by
  constructor
  · intro h
    have := pending_append_upcoming ts
    rw [h] at this
    simpa using this
  · intro h
    have := pending_append_upcoming ts
    rwa [h, List.nil_append] at this

@[simp] theorem upcoming_upcoming (ts : List Token) : upcoming (upcoming ts) = upcoming ts := by
  cases h : upcoming ts with
  | nil => rfl
  | cons t us => exact upcoming_cons_of_not_trivia (not_trivia_of_upcoming h) us

@[simp] theorem pending_upcoming (ts : List Token) : pending (upcoming ts) = [] :=
  upcoming_eq_self_iff.1 (upcoming_upcoming ts)

/-- Trivia in front of some tokens go into what is pending. -/
theorem pending_append_of_trivia {ws : List Token} (h : ∀ w ∈ ws, w.kind.isTrivia = true)
    (ts : List Token) : pending (ws ++ ts) = ws ++ pending ts :=
  List.takeWhile_append_of_pos h

theorem upcoming_append_of_trivia {ws : List Token} (h : ∀ w ∈ ws, w.kind.isTrivia = true)
    (ts : List Token) : upcoming (ws ++ ts) = upcoming ts :=
  List.dropWhile_append_of_pos h

theorem trivia_of_mem_pending {ts : List Token} {t : Token} (h : t ∈ pending ts) :
    t.kind.isTrivia = true :=
  List.all_eq_true.1 List.all_takeWhile t h

theorem upcoming_eq_nil_of_nextKind {ts : List Token} (hk : ∀ t ∈ ts, t.kind ≠ .eof)
    (h : nextKind ts = .eof) : upcoming ts = [] := by
  cases hu : upcoming ts with
  | nil => rfl
  | cons t us =>
    have hmem : t ∈ ts := (upcoming_suffix ts).subset (hu ▸ List.mem_cons_self)
    rw [nextKind, hu] at h
    exact absurd h (hk t hmem)

theorem nextKind_of_upcoming {ts us : List Token} {t : Token} (h : upcoming ts = t :: us) :
    nextKind ts = t.kind := by
  rw [nextKind, h]; rfl

theorem nextKind_cons {t : Token} (h : t.kind.isTrivia = false) (ts : List Token) :
    nextKind (t :: ts) = t.kind :=
  nextKind_of_upcoming (upcoming_cons_of_not_trivia h ts)

/-- A token of a kind that is not `Kind.eof` is there to be read. -/
theorem exists_upcoming_of_nextKind {ts : List Token} {k : Kind} (h : nextKind ts = k)
    (hk : k ≠ .eof) : ∃ t us, upcoming ts = t :: us ∧ t.kind = k := by
  cases hu : upcoming ts with
  | nil => rw [nextKind, hu] at h; exact absurd h.symm hk
  | cons t us => exact ⟨t, us, rfl, (nextKind_of_upcoming hu).symm.trans h⟩

/-- What is upcoming at the end of some tokens is the end of what is upcoming in them. -/
theorem upcoming_suffix_of_suffix {ts us : List Token} (h : us <:+ ts) :
    upcoming us <:+ upcoming ts := by
  obtain ⟨pre, rfl⟩ := h
  induction pre with
  | nil => exact List.suffix_rfl
  | cons t pre ih =>
    cases ht : t.kind.isTrivia with
    | true => rw [List.cons_append, upcoming_cons_of_trivia ht]; exact ih
    | false =>
      rw [List.cons_append, upcoming_cons_of_not_trivia ht]
      exact (upcoming_suffix us).trans ⟨t :: pre, rfl⟩

/-! ## Outcomes -/

/-- The kinds of a token with which a condition can have an outcome, when the sets are given for the
questions about the next token and about the second one. -/
def Look.kinds (next second : List Kind → Bool → KindSet) : Look → Bool → KindSet
  | .next ks, b => next ks b
  | .second ks, b => second ks b
  | .text _, _ => .every
  | .both l m, true => l.kinds next second true ∩ m.kinds next second true
  | .both l m, false => l.kinds next second false ∪ m.kinds next second false
  | .either l m, true => l.kinds next second true ∪ m.kinds next second true
  | .either l m, false => l.kinds next second false ∩ m.kinds next second false
  | .not l, b => l.kinds next second !b

/-- A kind with which each question can have its answer is one with which the condition can have its
outcome. -/
theorem Look.has_kinds {next second : List Kind → Bool → KindSet} {ts : List Token} {k : Kind}
    (hn : ∀ ks, (next ks (ks.contains (nextKind ts))).has k = true)
    (hs : ∀ ks, (second ks (ks.contains (secondKind ts))).has k = true) (l : Look) :
    (l.kinds next second (l.holds ts)).has k = true := by
  induction l with
  | next ks => exact hn ks
  | second ks => exact hs ks
  | text s => simp [kinds]
  | both l m ihl ihm =>
    rw [holds]
    cases hl : l.holds ts <;> cases hm : m.holds ts <;> simp_all [kinds]
  | either l m ihl ihm =>
    rw [holds]
    cases hl : l.holds ts <;> cases hm : m.holds ts <;> simp_all [kinds]
  | not l ih => simpa [kinds, holds] using ih

/-- The kinds that answer whether a token is of one of some kinds. -/
def answering (ks : List Kind) (b : Bool) : KindSet := if b then .of ks else .every \ .of ks

theorem has_answering (ks : List Kind) (k : Kind) : (answering ks (ks.contains k)).has k = true := by
  unfold answering
  split <;> simp_all

/-- The kinds of the next token with which a condition can have an outcome. -/
def Look.may (l : Look) (b : Bool) : KindSet := l.kinds answering (fun _ _ => .every) b

theorem Look.may_holds (l : Look) (ts : List Token) :
    (l.may (l.holds ts)).has (nextKind ts) = true :=
  has_kinds (fun ks => has_answering ks _) (fun _ => KindSet.has_every _) l

/-- The kinds of the token after the next one with which a condition can have an outcome. -/
def Look.maySecond (l : Look) (b : Bool) : KindSet := l.kinds (fun _ _ => .every) answering b

theorem Look.maySecond_holds (l : Look) (ts : List Token) :
    (l.maySecond (l.holds ts)).has (secondKind ts) = true :=
  has_kinds (fun _ => KindSet.has_every _) (fun ks => has_answering ks _) l

section
variable {s : KindSet} {ts : List Token} {l : Look} {b : Bool}

/-- The kind of the next token is among those that the outcome of a condition leaves. -/
theorem has_inter_may (hs : s.has (nextKind ts) = true) (hl : l.holds ts = b) :
    (s ∩ l.may b).has (nextKind ts) = true := by
  rw [KindSet.has_inter, hs, ← hl, l.may_holds]
  rfl

theorem has_inter_maySecond (hs : s.has (secondKind ts) = true) (hl : l.holds ts = b) :
    (s ∩ l.maySecond b).has (secondKind ts) = true := by
  rw [KindSet.has_inter, hs, ← hl, l.maySecond_holds]
  rfl

end

end Renumber.Grammar
