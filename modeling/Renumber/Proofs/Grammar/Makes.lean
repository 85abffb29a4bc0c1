import Renumber.Grammar.Phrase

/-!
# What a phrase makes of some tokens

`read` runs a phrase with fuel. What it answers when there is fuel enough does not hang on the fuel
(`makes_iff_exists_read`), and `Makes` says it phrase by phrase: one rule for each way to build a phrase, two for
each condition. There is one answer at most (`Makes.unique`). What holds of every reading is proved by induction
on these rules.
-/

namespace Renumber.Grammar

variable {α : Type}

/-- A phrase makes a reading of some tokens. -/
inductive Makes (g : α → Phrase α) : Phrase α → List Token → Reading → Prop
  | done {ts : List Token} : Makes g .done ts ⟨[], ts, []⟩
  | seq {p q : Phrase α} {ts : List Token} {a b : Reading} (hp : Makes g p ts a)
      (hq : Makes g q a.rest b) :
      Makes g (.seq p q) ts ⟨a.trees ++ b.trees, b.rest, a.faults ++ b.faults⟩
  | trivia {ts : List Token} : Makes g .trivia ts ⟨(pending ts).map .token, upcoming ts, []⟩
  | next {ts : List Token} : Makes g .next ts
      ⟨(pending ts ++ (upcoming ts).take 1).map .token, (upcoming ts).drop 1, []⟩
  | fault {problem : SyntaxProblem} {ts : List Token} :
      Makes g (.fault problem) ts ⟨[], ts, [⟨problem, upcoming ts⟩]⟩
  | left {l : Look} {p q : Phrase α} {ts : List Token} {r : Reading} (hl : l.holds ts = true)
      (h : Makes g p ts r) : Makes g (.branch l p q) ts r
  | right {l : Look} {p q : Phrase α} {ts : List Token} {r : Reading} (hl : l.holds ts = false)
      (h : Makes g q ts r) : Makes g (.branch l p q) ts r
  | stop {l : Look} {p : Phrase α} {ts : List Token} (hl : l.holds ts = false) :
      Makes g (.many l p) ts ⟨[], ts, []⟩
  | again {l : Look} {p : Phrase α} {ts : List Token} {a b : Reading} (hl : l.holds ts = true)
      (hp : Makes g p ts a) (hm : Makes g (.many l p) a.rest b) :
      Makes g (.many l p) ts ⟨a.trees ++ b.trees, b.rest, a.faults ++ b.faults⟩
  | enclose {k : Kind} {p : Phrase α} {ts : List Token} {a : Reading} (hp : Makes g p ts a) :
      Makes g (.enclose k p) ts ⟨[.node k a.trees], a.rest, a.faults⟩
  | adopt {p q : Phrase α} {ts : List Token} {a b : Reading} (hp : Makes g p ts a)
      (hq : Makes g q a.rest b) :
      Makes g (.adopt p q) ts ⟨adoptAll a.trees b.trees, b.rest, a.faults ++ b.faults⟩
  | rule {a : α} {ts : List Token} {r : Reading} (h : Makes g (g a) ts r) : Makes g (.rule a) ts r

section
variable {g : α → Phrase α} {n : Nat} {p q : Phrase α} {ts : List Token} {r s : Reading}

theorem makes_of_read (h : read g n p ts = some r) : Makes g p ts r := by
  induction n generalizing p ts r with
  | zero => simp [read] at h
  | succ n ih =>
    cases p with
    | done | trivia | next | fault _ =>
      simp only [read, Option.some.injEq] at h
      subst h
      constructor
    | seq p q =>
      simp only [read, Option.bind_eq_bind, Option.bind_eq_some_iff, Option.some.injEq] at h
      obtain ⟨a, ha, b, hb, rfl⟩ := h
      exact .seq (ih ha) (ih hb)
    | adopt p q =>
      simp only [read, Option.bind_eq_bind, Option.bind_eq_some_iff, Option.some.injEq] at h
      obtain ⟨a, ha, b, hb, rfl⟩ := h
      exact .adopt (ih ha) (ih hb)
    | branch l p q =>
      simp only [read] at h
      split at h <;> rename_i hl
      · exact .left hl (ih h)
      · exact .right (Bool.not_eq_true _ ▸ hl) (ih h)
    | many l p =>
      simp only [read] at h
      split at h <;> rename_i hl
      · simp only [Option.bind_eq_bind, Option.bind_eq_some_iff, Option.some.injEq] at h
        obtain ⟨a, ha, b, hb, rfl⟩ := h
        exact .again hl (ih ha) (ih hb)
      · simp only [Option.some.injEq] at h
        subst h
        exact .stop (Bool.not_eq_true _ ▸ hl)
    | enclose k p =>
      simp only [read, Option.bind_eq_bind, Option.bind_eq_some_iff, Option.some.injEq] at h
      obtain ⟨a, ha, rfl⟩ := h
      exact .enclose (ih ha)
    | rule a => exact .rule (ih h)

namespace Makes

theorem exists_read (h : Makes g p ts r) : ∃ n, read g n p ts = some r := by
  induction h with
  | done | trivia | next | fault => exact ⟨1, rfl⟩
  | stop hl => exact ⟨1, by simp [read, hl]⟩
  | seq _ _ iha ihb | adopt _ _ iha ihb =>
    obtain ⟨m, ha⟩ := iha
    obtain ⟨n, hb⟩ := ihb
    refine ⟨max m n + 1, ?_⟩
    simp only [read, read_mono ha (Nat.le_max_left m n), read_mono hb (Nat.le_max_right m n),
      Option.bind_eq_bind, Option.bind_some]
  | again hl _ _ iha ihb =>
    obtain ⟨m, ha⟩ := iha
    obtain ⟨n, hb⟩ := ihb
    refine ⟨max m n + 1, ?_⟩
    simp only [read, hl, if_true, read_mono ha (Nat.le_max_left m n),
      read_mono hb (Nat.le_max_right m n), Option.bind_eq_bind, Option.bind_some]
  | left hl _ ih | right hl _ ih =>
    obtain ⟨n, hn⟩ := ih
    exact ⟨n + 1, by simp [read, hl, hn]⟩
  | enclose _ ih =>
    obtain ⟨n, hn⟩ := ih
    exact ⟨n + 1, by simp only [read, hn, Option.bind_eq_bind, Option.bind_some]⟩
  | rule _ ih =>
    obtain ⟨n, hn⟩ := ih
    exact ⟨n + 1, hn⟩

end Makes

/-- What a phrase makes of some tokens is what `read` answers when there is fuel enough. -/
theorem makes_iff_exists_read : Makes g p ts r ↔ ∃ n, read g n p ts = some r :=
  ⟨Makes.exists_read, fun ⟨_, h⟩ => makes_of_read h⟩

namespace Makes

theorem unique (hr : Makes g p ts r) (hs : Makes g p ts s) : r = s := by
  obtain ⟨m, hm⟩ := hr.exists_read
  obtain ⟨n, hn⟩ := hs.exists_read
  have hle := read_mono hm (Nat.le_max_left m n)
  rw [read_mono hn (Nat.le_max_right m n)] at hle
  exact (Option.some.inj hle).symm

/-- A reading takes tokens in order and loses none. -/
theorem leaves_append (h : Makes g p ts r) : Tree.leavesOf r.trees ++ r.rest = ts := by
  obtain ⟨n, hn⟩ := h.exists_read
  exact Reading.leaves_append_rest hn

theorem rest_suffix (h : Makes g p ts r) : r.rest <:+ ts := ⟨_, h.leaves_append⟩

/-- A loop ends where its condition does not hold. -/
theorem holds_rest {l : Look} (h : Makes g (.many l p) ts r) : l.holds r.rest = false := by
  generalize hq : Phrase.many l p = q at h
  induction h with
  | stop hl =>
    cases hq
    exact hl
  | again _ _ _ _ ih => exact ih hq
  | _ => cases hq

end Makes

end

end Renumber.Grammar
