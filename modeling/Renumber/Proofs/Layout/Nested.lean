import Renumber.Proofs.Grammar.Balance
import Renumber.Proofs.Layout.Groups

/-!
# Brackets in pairs

Tokens whose brackets are well nested (`Token.Nested`), and the places of two brackets that are a pair
(`Token.Paired`). `Token.awaited` goes through some tokens with the brackets that are still to be closed, each
by one of its own kind, and comes out with none of them exactly if the tokens are nested (`Token.nested_iff`).
Then every bracket is in one pair, so the brackets that are awaited at a place are those of the pairs that are
open there (`Token.ncard_openAt`). The scan counts them without their kinds (`Layout.depthPast_of_awaited`).
-/

namespace Renumber

/-- The kind of the bracket that closes one of a kind. -/
def Kind.closing? : Kind → Option Kind
  | .lParen => some .rParen
  | .lBracket => some .rBracket
  | .lBrace => some .rBrace
  | _ => none

/-- The brackets that are awaited behind a token of a kind: an opening one puts its closing one in front of
them, a closing one has to be the first of them. -/
def Kind.awaited (k : Kind) (st : List Kind) : Option (List Kind) :=
  match k.closing? with
  | some c => some (c :: st)
  | none =>
    if closers.contains k then if st.head? = some k then some st.tail else none
    else some st

/-- The brackets that are awaited behind some tokens. -/
def Token.awaited : List Kind → List Token → Option (List Kind)
  | st, [] => some st
  | st, t :: ts => (t.kind.awaited st).bind fun e => awaited e ts

namespace Kind

/-- An opening bracket, a closing one or neither. -/
inductive Side (k : Kind) : Prop
  | opens {c : Kind} (h : k.closing? = some c)
  | closes (h : k ∈ closers)
  | neither (hopen : k ∉ openers) (hclose : k ∉ closers)

theorem side (k : Kind) : k.Side := by
  by_cases hclose : k ∈ closers
  · exact .closes hclose
  by_cases hopen : k ∈ openers
  · have hc : k.closing?.isSome = true := by
      revert hopen
      cases k <;> decide
    exact .opens (Option.some_get hc).symm
  · exact .neither hopen hclose

variable {k c : Kind}

theorem mem_openers_of_closing (h : k.closing? = some c) : k ∈ openers := by
  revert h
  cases k <;> simp [closing?, openers]

theorem mem_closers_of_closing (h : k.closing? = some c) : c ∈ closers := by
  revert h
  cases k <;> simp +contextual [closing?, closers, eq_comm]

theorem closing?_eq_none (h : k ∉ openers) : k.closing? = none := by
  revert h
  cases k <;> simp [closing?, openers]

theorem not_mem_openers_of_mem_closers (h : k ∈ closers) : k ∉ openers := by
  revert h
  cases k <;> decide

theorem awaited_of_closing (h : k.closing? = some c) (st : List Kind) : k.awaited st = some (c :: st) := by
  rw [awaited, h]

theorem awaited_of_neither (hopen : k ∉ openers) (hclose : k ∉ closers) (st : List Kind) :
    k.awaited st = some st := by
  rw [awaited, closing?_eq_none hopen]
  exact if_neg (by simpa using hclose)

theorem awaited_closer_eq_some_iff (h : k ∈ closers) {st e : List Kind} :
    k.awaited st = some e ↔ st = k :: e := by
  rw [awaited, closing?_eq_none (not_mem_openers_of_mem_closers h)]
  simp only [List.contains_iff_mem.2 h, ↓reduceIte]
  cases st with
  | nil => simp
  | cons j st =>
    by_cases hj : j = k
    · subst hj
      simp [eq_comm]
    · simp [hj]

/-- Brackets that are awaited further out stay so. -/
theorem awaited_append {st e : List Kind} (h : k.awaited st = some e) (outer : List Kind) :
    k.awaited (st ++ outer) = some (e ++ outer) := by
  obtain hc | hclose | ⟨hopen, hclose⟩ := k.side
  · rw [awaited_of_closing hc, Option.some.injEq] at h ⊢
    rw [← h, List.cons_append]
  · rw [awaited_closer_eq_some_iff hclose] at h ⊢
    rw [h, List.cons_append]
  · rw [awaited_of_neither hopen hclose, Option.some.injEq] at h ⊢
    rw [h]

theorem awaited_depth {st e : List Kind} (h : k.awaited st = some e) :
    Layout.depthAfter st.length k = e.length := by
  obtain hc | hclose | ⟨hopen, hclose⟩ := k.side
  · rw [awaited_of_closing hc, Option.some.injEq] at h
    rw [← h]
    have hopen := mem_openers_of_closing hc
    simp only [openers, List.mem_cons, List.not_mem_nil, or_false] at hopen
    rcases hopen with rfl | rfl | rfl <;> rfl
  · obtain rfl := (awaited_closer_eq_some_iff hclose).1 h
    simp only [closers, List.mem_cons, List.not_mem_nil, or_false] at hclose
    rcases hclose with rfl | rfl | rfl <;> rfl
  · rw [awaited_of_neither hopen hclose, Option.some.injEq] at h
    rw [h]
    unfold Layout.depthAfter
    split
    · exact absurd (by decide) hopen
    · exact absurd (by decide) hopen
    · exact absurd (by decide) hopen
    · exact absurd (by decide) hclose
    · exact absurd (by decide) hclose
    · exact absurd (by decide) hclose
    · rfl

end Kind

namespace Token

variable {st e : List Kind} {ts us as bs : List Token} {t o c : Token} {i j n : Nat}

theorem awaited_append (st : List Kind) (ts us : List Token) :
    awaited st (ts ++ us) = (awaited st ts).bind fun e => awaited e us := by
  induction ts generalizing st with
  | nil => rfl
  | cons t ts ih =>
    rw [List.cons_append, awaited, awaited, Option.bind_assoc]
    congr 1
    funext e
    exact ih e

theorem awaited_append_outer (h : awaited st ts = some e) (outer : List Kind) :
    awaited (st ++ outer) ts = some (e ++ outer) := by
  induction ts generalizing st with
  | nil =>
    cases h
    rfl
  | cons t ts ih =>
    rw [awaited, Option.bind_eq_some_iff] at h ⊢
    obtain ⟨f, hf, h⟩ := h
    exact ⟨f ++ outer, Kind.awaited_append hf outer, ih h⟩

/-! ## Nested brackets -/

/-- The brackets of some tokens are well nested: those between two that belong together are so by themselves,
and so are those behind them. -/
inductive Nested : List Token → Prop
  | nil : Nested []
  | plain {t : Token} {ts : List Token} (hopen : t.kind ∉ Kind.openers) (hclose : t.kind ∉ Kind.closers)
      (hts : Nested ts) : Nested (t :: ts)
  | pair {o c : Token} {us ts : List Token} (hc : o.kind.closing? = some c.kind) (hus : Nested us)
      (hts : Nested ts) : Nested (o :: (us ++ c :: ts))

/-- Nested brackets close each other. -/
theorem Nested.awaited (h : Nested ts) (st : List Kind) : awaited st ts = some st := by
  induction h generalizing st with
  | nil => rfl
  | plain hopen hclose _ ih =>
    rw [Token.awaited, Kind.awaited_of_neither hopen hclose]
    exact ih st
  | @pair o c _ _ hc _ _ ihus ihts =>
    have hclose : c.kind.awaited (c.kind :: st) = some st :=
      (Kind.awaited_closer_eq_some_iff (Kind.mem_closers_of_closing hc)).2 rfl
    rw [Token.awaited, Kind.awaited_of_closing hc, Option.bind_some, awaited_append, ihus,
      Option.bind_some, Token.awaited, hclose]
    exact ihts st

/-- The first bracket that is awaited comes behind nested ones. -/
theorem exists_closer {k : Kind} (h : awaited (k :: st) ts = some []) :
    ∃ us c vs, ts = us ++ c :: vs ∧ Nested us ∧ c.kind = k ∧ awaited st vs = some [] := by
  induction hn : ts.length using Nat.strong_induction_on generalizing ts k st with
  | h n ih =>
    cases ts with
    | nil => cases h
    | cons t ts =>
      rw [List.length_cons] at hn
      rw [awaited, Option.bind_eq_some_iff] at h
      obtain ⟨f, hf, h⟩ := h
      obtain hc | hclose | ⟨hopen, hclose⟩ := t.kind.side
      · rw [Kind.awaited_of_closing hc, Option.some.injEq] at hf
        subst hf
        -- Behind what the token opens the first bracket is still awaited.
        obtain ⟨us, c, vs, rfl, hus, rfl, hvs⟩ := ih _ (by omega) h rfl
        rw [List.length_append, List.length_cons] at hn
        obtain ⟨us', c', vs', rfl, hus', rfl, hvs'⟩ := ih _ (by omega) hvs rfl
        exact ⟨t :: (us ++ c :: us'), c', vs', by simp, .pair hc hus hus', rfl, hvs'⟩
      · obtain ⟨rfl, rfl⟩ := List.cons.inj ((Kind.awaited_closer_eq_some_iff hclose).1 hf)
        exact ⟨[], t, ts, rfl, .nil, rfl, h⟩
      · rw [Kind.awaited_of_neither hopen hclose, Option.some.injEq] at hf
        subst hf
        obtain ⟨us, c, vs, rfl, hus, rfl, hvs⟩ := ih _ (by omega) h rfl
        exact ⟨t :: us, c, vs, rfl, .plain hopen hclose hus, rfl, hvs⟩

/-- Tokens are nested exactly if they close all brackets that they open and no other. -/
theorem nested_iff : Nested ts ↔ awaited [] ts = some [] := by
  refine ⟨fun h => h.awaited [], fun h => ?_⟩
  induction hn : ts.length using Nat.strong_induction_on generalizing ts with
  | h n ih =>
    cases ts with
    | nil => exact .nil
    | cons t ts =>
      rw [List.length_cons] at hn
      rw [awaited, Option.bind_eq_some_iff] at h
      obtain ⟨f, hf, h⟩ := h
      obtain hc | hclose | ⟨hopen, hclose⟩ := t.kind.side
      · rw [Kind.awaited_of_closing hc, Option.some.injEq] at hf
        subst hf
        obtain ⟨us, c, vs, rfl, hus, rfl, hvs⟩ := exists_closer h
        rw [List.length_append, List.length_cons] at hn
        exact .pair hc hus (ih _ (by omega) hvs rfl)
      · cases (Kind.awaited_closer_eq_some_iff hclose).1 hf
      · rw [Kind.awaited_of_neither hopen hclose, Option.some.injEq] at hf
        subst hf
        exact .plain hopen hclose (ih _ (by omega) h rfl)

/-- The first bracket that is awaited behind some tokens was opened in front of nested ones. -/
theorem exists_opener {k : Kind} (h : awaited [] ts = some (k :: st)) :
    ∃ us o vs, ts = us ++ o :: vs ∧ o.kind.closing? = some k ∧ Nested vs ∧ awaited [] us = some st := by
  induction hn : ts.length using Nat.strong_induction_on generalizing ts k st with
  | h n ih =>
    obtain rfl | ⟨ts, t, rfl⟩ := ts.eq_nil_or_concat'
    · cases h
    · rw [List.length_append, List.length_singleton] at hn
      rw [awaited_append, Option.bind_eq_some_iff] at h
      obtain ⟨f, hf, h⟩ := h
      rw [awaited, Option.bind_eq_some_iff] at h
      obtain ⟨e, he, hnil⟩ := h
      cases hnil
      obtain hc | hclose | ⟨hopen, hclose⟩ := t.kind.side
      · rw [Kind.awaited_of_closing hc, Option.some.injEq] at he
        obtain ⟨rfl, rfl⟩ := List.cons.inj he
        exact ⟨ts, t, [], rfl, hc, .nil, hf⟩
      · obtain rfl := (Kind.awaited_closer_eq_some_iff hclose).1 he
        -- In front of what the token closes the bracket was awaited already.
        obtain ⟨us, o, vs, rfl, ho, hvs, hus⟩ := ih _ (by omega) hf rfl
        rw [List.length_append, List.length_cons] at hn
        obtain ⟨us', o', vs', rfl, ho', hvs', hus'⟩ := ih _ (by omega) hus rfl
        refine ⟨us', o', vs' ++ o :: (vs ++ [t]), by simp, ho', ?_, hus'⟩
        rw [nested_iff, awaited_append, hvs'.awaited, Option.bind_some]
        exact (Nested.pair ho hvs .nil).awaited []
      · rw [Kind.awaited_of_neither hopen hclose, Option.some.injEq] at he
        subst he
        obtain ⟨us, o, vs, rfl, ho, hvs, hus⟩ := ih _ (by omega) hf rfl
        refine ⟨us, o, vs ++ [t], by simp, ho, ?_, hus⟩
        rw [nested_iff, awaited_append, hvs.awaited, Option.bind_some]
        exact (Nested.plain hopen hclose .nil).awaited []

/-- In front of a token of nested ones some brackets are awaited, and the tokens from it on close them. -/
theorem Nested.exists_awaited (h : Nested (as ++ bs)) :
    ∃ st, Token.awaited [] as = some st ∧ Token.awaited st bs = some [] := by
  rwa [nested_iff, awaited_append, Option.bind_eq_some_iff] at h

/-! ## Pairs -/

/-- The brackets at two places are a pair: the second one closes the first one, and what stands between them is
nested. -/
def Paired (ts : List Token) (i j : Nat) : Prop :=
  ∃ as o us c bs, ts = as ++ o :: (us ++ c :: bs) ∧ o.kind.closing? = some c.kind ∧ Nested us ∧
    i = as.length ∧ j = (as ++ o :: us).length

/-- Nested tokens do not go on with a closing bracket inside nested ones. -/
theorem Nested.not_append_closer (hus : Nested us) (hc : c.kind ∈ Kind.closers) :
    ¬Nested (us ++ c :: bs) := by
  intro h
  obtain ⟨st, hst, hbs⟩ := h.exists_awaited
  obtain rfl := Option.some.inj ((hus.awaited []).symm.trans hst)
  rw [Token.awaited, Option.bind_eq_some_iff] at hbs
  obtain ⟨e, he, -⟩ := hbs
  cases (Kind.awaited_closer_eq_some_iff hc).1 he

/-- Nested tokens do not come behind an opening bracket inside nested ones. -/
theorem Nested.not_append_opener (hus : Nested us) {k : Kind} (ho : o.kind.closing? = some k) :
    ¬Nested (as ++ o :: us) := by
  intro h
  obtain ⟨st, -, hst⟩ := h.exists_awaited
  rw [Token.awaited, Kind.awaited_of_closing ho, Option.bind_some, hus.awaited] at hst
  cases hst

/-- Two nested lists of tokens, each with a closing bracket behind it, in one list. -/
theorem Nested.unique_closer {us' bs' : List Token} {c' : Token} (hus : Nested us) (hus' : Nested us')
    (hc : c.kind ∈ Kind.closers) (hc' : c'.kind ∈ Kind.closers) (h : us ++ c :: bs = us' ++ c' :: bs') :
    us = us' ∧ c = c' := by
  rcases List.append_eq_append_iff.1 h with ⟨ws, rfl, hws⟩ | ⟨ws, rfl, hws⟩
  · cases ws with
    | nil => exact ⟨(List.append_nil us).symm, (List.cons.inj hws).1⟩
    | cons w ws =>
      obtain ⟨rfl, -⟩ := List.cons.inj hws
      exact absurd hus' (hus.not_append_closer hc)
  · cases ws with
    | nil => exact ⟨List.append_nil us', (List.cons.inj hws).1.symm⟩
    | cons w ws =>
      obtain ⟨rfl, -⟩ := List.cons.inj hws
      exact absurd hus (hus'.not_append_closer hc')

/-- An opening bracket is in one pair. -/
theorem Paired.right_unique {j' : Nat} (h : Paired ts i j) (h' : Paired ts i j') : j = j' := by
  obtain ⟨as, o, us, c, bs, rfl, hc, hus, rfl, rfl⟩ := h
  obtain ⟨as', o', us', c', bs', heq, hc', hus', hlength, rfl⟩ := h'
  obtain ⟨rfl, hcons⟩ := List.append_inj heq hlength
  obtain ⟨rfl, hrest⟩ := List.cons.inj hcons
  obtain ⟨rfl, -⟩ := hus.unique_closer hus' (Kind.mem_closers_of_closing hc)
    (Kind.mem_closers_of_closing hc') hrest
  rfl

/-- Two nested lists of tokens, each with an opening bracket in front of it, in one list. -/
theorem Nested.unique_opener {as' us' : List Token} {o' : Token} (hus : Nested us) (hus' : Nested us')
    {k k' : Kind} (ho : o.kind.closing? = some k) (ho' : o'.kind.closing? = some k')
    (h : as ++ o :: us = as' ++ o' :: us') : as = as' := by
  rcases List.append_eq_append_iff.1 h with ⟨ws, rfl, hws⟩ | ⟨ws, rfl, hws⟩
  · cases ws with
    | nil => exact (List.append_nil as).symm
    | cons w ws =>
      obtain ⟨-, rfl⟩ := List.cons.inj hws
      exact absurd hus (hus'.not_append_opener ho')
  · cases ws with
    | nil => exact List.append_nil as'
    | cons w ws =>
      obtain ⟨-, rfl⟩ := List.cons.inj hws
      exact absurd hus' (hus.not_append_opener ho)

/-- A closing bracket is in one pair. -/
theorem Paired.left_unique {i' : Nat} (h : Paired ts i j) (h' : Paired ts i' j) : i = i' := by
  obtain ⟨as, o, us, c, bs, rfl, hc, hus, rfl, rfl⟩ := h
  obtain ⟨as', o', us', c', bs', heq, hc', hus', rfl, hlength⟩ := h'
  have hfront : as ++ o :: us = as' ++ o' :: us' := by
    have hall : as ++ o :: us ++ c :: bs = as' ++ o' :: us' ++ c' :: bs' := by simpa using heq
    exact (List.append_inj hall hlength).1
  rw [hus.unique_opener hus' hc hc' hfront]

theorem Paired.lt (h : Paired ts i j) : i < j ∧ j < ts.length := by
  obtain ⟨as, o, us, c, bs, rfl, -, -, rfl, rfl⟩ := h
  simp only [List.length_append, List.length_cons]
  omega

/-- The brackets at the places of a pair. -/
theorem Paired.getElem? (h : Paired ts i j) :
    ∃ o c, ts[i]? = some o ∧ ts[j]? = some c ∧ o.kind.closing? = some c.kind := by
  obtain ⟨as, o, us, c, bs, rfl, hc, -, rfl, rfl⟩ := h
  refine ⟨o, c, by simp, ?_, hc⟩
  rw [← List.cons_append, ← List.append_assoc]
  simp

/-! ## How many are open -/

/-- The pairs that are open at a place: the first bracket stands in front of it, the second one does not. -/
def openAt (ts : List Token) (n : Nat) : Set (Nat × Nat) := {p | Paired ts p.1 p.2 ∧ p.1 < n ∧ n ≤ p.2}

theorem finite_openAt (ts : List Token) (n : Nat) : (openAt ts n).Finite := by
  refine ((Set.finite_Iio n).prod (Set.finite_Iio ts.length)).subset ?_
  rintro ⟨i, j⟩ ⟨hpair, hi, -⟩
  exact ⟨hi, hpair.lt.2⟩

/-- No bracket both opens and closes. -/
theorem Paired.ne (h : Paired ts i n) (h' : Paired ts n j) : False := by
  obtain ⟨_, c, _, hc, hclose⟩ := h.getElem?
  obtain ⟨o, _, ho, _, hopen⟩ := h'.getElem?
  obtain rfl := Option.some.inj (hc.symm.trans ho)
  exact Kind.not_mem_openers_of_mem_closers (Kind.mem_closers_of_closing hclose)
    (Kind.mem_openers_of_closing hopen)

/-- Behind an opening bracket its pair is open as well. -/
theorem openAt_opener (h : Paired ts n j) : openAt ts (n + 1) = insert (n, j) (openAt ts n) := by
  ext ⟨i, l⟩
  constructor
  · rintro ⟨hpair, hi, hl⟩
    rcases (show i = n ∨ i < n by omega) with rfl | hlt
    · exact .inl (Prod.ext rfl (hpair.right_unique h))
    · exact .inr ⟨hpair, hlt, Nat.le_of_succ_le hl⟩
  · rintro (heq | ⟨hpair, hi, hl⟩)
    · obtain ⟨rfl, rfl⟩ := Prod.mk.inj heq
      exact ⟨h, Nat.lt_succ_self _, h.lt.1⟩
    · refine ⟨hpair, Nat.lt_succ_of_lt hi, lt_of_le_of_ne hl ?_⟩
      rintro rfl
      exact hpair.ne h

/-- Behind a closing bracket its pair is not open any more. -/
theorem openAt_closer (h : Paired ts i n) : openAt ts n = insert (i, n) (openAt ts (n + 1)) := by
  ext ⟨l, j⟩
  constructor
  · rintro ⟨hpair, hl, hj⟩
    rcases hj.eq_or_lt with rfl | hlt
    · exact .inl (Prod.ext (hpair.left_unique h) rfl)
    · exact .inr ⟨hpair, Nat.lt_succ_of_lt hl, hlt⟩
  · rintro (heq | ⟨hpair, hl, hj⟩)
    · obtain ⟨rfl, rfl⟩ := Prod.mk.inj heq
      exact ⟨h, h.lt.1, le_rfl⟩
    · refine ⟨hpair, lt_of_le_of_ne (Nat.lt_succ_iff.1 hl) ?_, Nat.le_of_succ_le hj⟩
      rintro rfl
      exact h.ne hpair

/-- A token that is no bracket neither opens a pair nor closes one. -/
theorem openAt_plain (ht : ts[n]? = some t) (hopen : t.kind ∉ Kind.openers)
    (hclose : t.kind ∉ Kind.closers) : openAt ts (n + 1) = openAt ts n := by
  ext ⟨i, j⟩
  refine and_congr_right fun hpair => ?_
  obtain ⟨o, c, ho, hc, hclosing⟩ := hpair.getElem?
  have hi : i ≠ n := by
    rintro rfl
    obtain rfl := Option.some.inj (ht.symm.trans ho)
    exact hopen (Kind.mem_openers_of_closing hclosing)
  have hj : j ≠ n := by
    rintro rfl
    obtain rfl := Option.some.inj (ht.symm.trans hc)
    exact hclose (Kind.mem_closers_of_closing hclosing)
  simp only
  omega

/-- As many brackets are awaited in front of a token of nested ones as there are pairs open. -/
theorem Nested.ncard_openAt (h : Nested (as ++ bs)) {st : List Kind} (hst : Token.awaited [] as = some st) :
    (openAt (as ++ bs) as.length).ncard = st.length := by
  induction as using List.reverseRecOn generalizing bs st with
  | nil =>
    cases hst
    rw [List.length_nil, List.length_nil, Set.ncard_eq_zero (finite_openAt _ _), Set.eq_empty_iff_forall_notMem]
    exact fun p hp => Nat.not_lt_zero _ hp.2.1
  | append_singleton as t ih =>
    rw [awaited_append, Option.bind_eq_some_iff] at hst
    obtain ⟨f, hf, hst⟩ := hst
    rw [Token.awaited, Option.bind_eq_some_iff] at hst
    obtain ⟨e, he, hnil⟩ := hst
    cases hnil
    rw [List.append_assoc, List.singleton_append] at h ⊢
    rw [List.length_append, List.length_singleton]
    have ih := ih h hf
    obtain ⟨f', hf', hrest⟩ := h.exists_awaited
    obtain rfl := Option.some.inj (hf.symm.trans hf')
    rw [Token.awaited, he, Option.bind_some] at hrest
    obtain hc | hclose | ⟨hopen, hclose⟩ := t.kind.side
    · rw [Kind.awaited_of_closing hc, Option.some.injEq] at he
      subst he
      obtain ⟨us, c, vs, rfl, hus, rfl, -⟩ := exists_closer hrest
      have hpair : Paired (as ++ t :: (us ++ c :: vs)) as.length (as ++ t :: us).length :=
        ⟨as, t, us, c, vs, rfl, hc, hus, rfl, rfl⟩
      rw [openAt_opener hpair, Set.ncard_insert_of_notMem _ (finite_openAt _ _), ih, List.length_cons]
      exact fun hmem => Nat.lt_irrefl _ hmem.2.1
    · obtain rfl := (Kind.awaited_closer_eq_some_iff hclose).1 he
      obtain ⟨us, o, vs, rfl, ho, hvs, -⟩ := exists_opener hf
      have hpair : Paired (us ++ o :: vs ++ t :: bs) us.length (us ++ o :: vs).length :=
        ⟨us, o, vs, t, bs, by simp, ho, hvs, rfl, rfl⟩
      rw [openAt_closer hpair, Set.ncard_insert_of_notMem _ (finite_openAt _ _), List.length_cons] at ih
      · omega
      · exact fun hmem => Nat.lt_irrefl _ hmem.2.2
    · rw [Kind.awaited_of_neither hopen hclose, Option.some.injEq] at he
      subst he
      rw [openAt_plain (t := t) (by simp) hopen hclose, ih]

end Token

namespace Layout

/-- The scan counts the brackets that are awaited. -/
theorem depthPast_of_awaited {st e : List Kind} {ts : List Token} (h : Token.awaited st ts = some e) :
    depthPast st.length ts = e.length := by
  induction ts generalizing st with
  | nil =>
    cases h
    rfl
  | cons t ts ih =>
    rw [Token.awaited, Option.bind_eq_some_iff] at h
    obtain ⟨f, hf, h⟩ := h
    rw [depthPast_cons, Kind.awaited_depth hf]
    exact ih h

end Layout

end Renumber
