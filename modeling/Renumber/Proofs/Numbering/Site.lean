import Renumber.Numbering
import Renumber.Proofs.Tree.Path

/-!
# The parts of an error call

What makes a node an error call is said by the trees below it, trivia left out: the callee, the
parentheses and at most two arguments. `call?_eq_some_iff` takes a call apart into the lists of trees
that its code is put between, and `put_eq` says what the code makes of them. The rest of the theory knows
the matcher and the edits by these two.
-/

namespace Renumber.Tree

@[simp] theorem kind_node (k : Kind) (cs : List Tree) : (node k cs).kind = k := rfl
@[simp] theorem isNode_node (k : Kind) (cs : List Tree) : (node k cs).isNode = true := rfl
@[simp] theorem children_node (k : Kind) (cs : List Tree) : (node k cs).children = cs := rfl

/-! ## Trees that are not trivia -/

/-- The trees of a list that are not trivia. -/
def solid (ts : List Tree) : List Tree := ts.filter fun t => !t.kind.isTrivia

@[simp] theorem solid_nil : solid [] = [] := rfl

@[simp] theorem solid_append (ts us : List Tree) : solid (ts ++ us) = solid ts ++ solid us :=
  List.filter_append ..

theorem solid_cons_of_trivia {t : Tree} (h : t.kind.isTrivia = true) (ts : List Tree) :
    solid (t :: ts) = solid ts := by
  simp [solid, h]

theorem solid_cons_of_not_trivia {t : Tree} (h : t.kind.isTrivia = false) (ts : List Tree) :
    solid (t :: ts) = t :: solid ts := by
  simp [solid, h]

/-- The trees that are not trivia, with their indices counted from a number on. -/
def solidFrom (i : Nat) : List Tree → List (Nat × Tree)
  | [] => []
  | t :: ts => if t.kind.isTrivia then solidFrom (i + 1) ts else (i, t) :: solidFrom (i + 1) ts

theorem significant_eq (t : Tree) : t.significant = solidFrom 0 t.children := by
  have h (ts : List Tree) (i : Nat) :
      ((ts.zipIdx i).map fun e => (e.2, e.1)).filter (fun e => !e.2.kind.isTrivia) =
        solidFrom i ts := by
    induction ts generalizing i with
    | nil => rfl
    | cons t ts ih =>
      rw [solidFrom, ← ih]
      cases ht : t.kind.isTrivia <;> simp [List.zipIdx_cons, ht]
  exact h t.children 0

@[simp] theorem map_snd_solidFrom (i : Nat) (ts : List Tree) :
    (solidFrom i ts).map Prod.snd = solid ts := by
  induction ts generalizing i with
  | nil => rfl
  | cons t ts ih =>
    rw [solidFrom]
    cases ht : t.kind.isTrivia
    · rw [solid_cons_of_not_trivia ht]; simp [ih]
    · rw [solid_cons_of_trivia ht]; simp [ih]

theorem solidFrom_eq_nil {i : Nat} {ts : List Tree} : solidFrom i ts = [] ↔ solid ts = [] := by
  rw [← map_snd_solidFrom i ts, List.map_eq_nil_iff]

theorem solidFrom_append (i : Nat) (ts us : List Tree) :
    solidFrom i (ts ++ us) = solidFrom i ts ++ solidFrom (i + ts.length) us := by
  induction ts generalizing i with
  | nil => rfl
  | cons t ts ih =>
    rw [List.cons_append, solidFrom, solidFrom, ih, List.length_cons, Nat.add_right_comm,
      Nat.add_assoc]
    split <;> rfl

/-- The indices come one for each tree that is not trivia. -/
theorem solidFrom_eq_zip (i : Nat) (ts : List Tree) : ∃ is : List Nat,
    is.length = (solid ts).length ∧ solidFrom i ts = is.zip (solid ts) := by
  refine ⟨(solidFrom i ts).map Prod.fst, ?_, ?_⟩
  · rw [← map_snd_solidFrom i ts, List.length_map, List.length_map]
  · rw [← map_snd_solidFrom i ts, List.zip_map']
    simp

/-- The first of the trees that are not trivia, with what stands around it. -/
theorem solidFrom_eq_cons {i j : Nat} {t : Tree} {ts : List Tree} {rest : List (Nat × Tree)}
    (h : solidFrom i ts = (j, t) :: rest) : ∃ us vs, ts = us ++ t :: vs ∧ solid us = [] ∧
      t.kind.isTrivia = false ∧ j = i + us.length ∧ solidFrom (j + 1) vs = rest := by
  induction ts generalizing i with
  | nil => cases h
  | cons u ts ih =>
    rw [solidFrom] at h
    cases hu : u.kind.isTrivia with
    | true =>
      rw [if_pos hu] at h
      obtain ⟨us, vs, rfl, hus, ht, rfl, hrest⟩ := ih h
      exact ⟨u :: us, vs, rfl, by rw [solid_cons_of_trivia hu, hus], ht,
        by rw [List.length_cons]; omega, hrest⟩
    | false =>
      rw [hu] at h
      injection h with h hrest
      injection h with hj ht
      subst hj ht
      exact ⟨[], ts, rfl, rfl, hu, rfl, hrest⟩

/-! ## Arguments -/

/-- The trees hold one parenthesis, of a kind. -/
def Bracket (k : Kind) (ts : List Tree) : Prop := ∃ t, solid ts = [t] ∧ t.kind = k

/-- The tree may be an argument of an error call. -/
def Positional (t : Tree) : Prop := t.isPositional = true ∧ t.kind.isTrivia = false

/-- The children of a call trailer with the arguments that they hold, and the children that there are
when a code has been put in. -/
inductive Args : List Tree → Arguments → (UInt64 → List Tree) → Prop
  | empty {ws ys : List Tree} {l : Tree} (hws : solid ws = []) (hl : l.kind = .lParen)
      (hys : Bracket .rParen ys) :
      Args (ws ++ l :: ys) (.empty [ws.length]) fun n => ws ++ l :: numberArgList n :: ys
  | one {xs ps qs ys : List Tree} {m : Tree} (hxs : Bracket .lParen xs) (hps : solid ps = [])
      (hm : m.Positional) (hqs : solid qs = []) (hys : Bracket .rParen ys) :
      Args (xs ++ node .argList (ps ++ m :: qs) :: ys) (.one [xs.length, ps.length]) fun n =>
        xs ++ node .argList (ps ++ numberLiteral n :: comma :: blanks " " :: m :: qs) :: ys
  | two {xs ps us vs ws ys : List Tree} {o c m : Tree} (hxs : Bracket .lParen xs)
      (hps : solid ps = []) (ho : o.Positional) (hus : solid us = []) (hc : c.kind = .comma)
      (hvs : solid vs = []) (hm : m.Positional) (hws : solid ws = []) (hys : Bracket .rParen ys) :
      Args (xs ++ node .argList (ps ++ o :: (us ++ c :: (vs ++ m :: ws))) :: ys)
        (.two [xs.length, ps.length]
          [xs.length, ps.length + 1 + us.length + 1 + vs.length]) fun n =>
        xs ++ node .argList (ps ++ numberLiteral n :: (us ++ c :: (vs ++ m :: ws))) :: ys

theorem Bracket.exists_solidFrom {k : Kind} {ts : List Tree} (h : Bracket k ts) (i : Nat) :
    ∃ j t, solidFrom i ts = [(j, t)] ∧ t.kind = k := by
  obtain ⟨t, ht, hk⟩ := h
  obtain ⟨is, hlen, hfrom⟩ := solidFrom_eq_zip i ts
  rw [ht] at hlen hfrom
  match is, hlen with
  | [j], _ => exact ⟨j, t, hfrom, hk⟩

theorem Bracket.of_append {k : Kind} {us vs : List Tree} {t : Tree} (hus : solid us = [])
    (ht : t.kind.isTrivia = false) (hvs : solid vs = []) (hk : t.kind = k) :
    Bracket k (us ++ t :: vs) :=
  ⟨t, by rw [solid_append, hus, solid_cons_of_not_trivia ht, hvs]; rfl, hk⟩

theorem solidFrom_append_cons {i : Nat} {us : List Tree} (hus : solid us = []) {t : Tree}
    (ht : t.kind.isTrivia = false) (vs : List Tree) : solidFrom i (us ++ t :: vs) =
      (i + us.length, t) :: solidFrom (i + us.length + 1) vs := by
  rw [solidFrom_append, solidFrom_eq_nil.2 hus, solidFrom, ht]
  rfl

/-- A call trailer has the arguments that its children hold. -/
theorem arguments?_of_args {us : List Tree} {a : Arguments} {f : UInt64 → List Tree}
    (h : Args us a f) (k : Kind) : (node k us).arguments? = some a := by
  unfold arguments?
  rw [significant_eq, children]
  cases h with
  | empty hws hl hys =>
    obtain ⟨j, r, hr, hrk⟩ := hys.exists_solidFrom (0 + _ + 1)
    rw [solidFrom_append_cons hws (by rw [hl]; rfl), hr]
    simp [hl, hrk]
  | one hxs hps hm hqs hys =>
    obtain ⟨i, l, hl, hlk⟩ := hxs.exists_solidFrom 0
    obtain ⟨j, r, hr, hrk⟩ := hys.exists_solidFrom (0 + _ + 1)
    rw [solidFrom_append, hl, solidFrom, kind_node, if_neg (by decide), hr]
    simp only [List.cons_append, List.nil_append, hlk, hrk, kind_node, isNode_node, beq_self_eq_true,
      Bool.and_self, if_true]
    rw [significant_eq, children, solidFrom_append_cons hps hm.2, solidFrom_eq_nil.2 hqs]
    simp [hm.1]
  | two hxs hps ho hus hc hvs hm hws hys =>
    obtain ⟨i, l, hl, hlk⟩ := hxs.exists_solidFrom 0
    obtain ⟨j, r, hr, hrk⟩ := hys.exists_solidFrom (0 + _ + 1)
    rw [solidFrom_append, hl, solidFrom, kind_node, if_neg (by decide), hr]
    simp only [List.cons_append, List.nil_append, hlk, hrk, kind_node, isNode_node, beq_self_eq_true,
      Bool.and_self, if_true]
    rw [significant_eq, children, solidFrom_append_cons hps ho.2,
      solidFrom_append_cons hus (by rw [hc]; rfl), solidFrom_append_cons hvs hm.2,
      solidFrom_eq_nil.2 hws]
    simp [ho.1, hm.1, hc]

/-- The children of an argument list that has arguments. -/
theorem args_of_argList {xs bs ys : List Tree} (hxs : Bracket .lParen xs)
    (hys : Bracket .rParen ys) {a : Arguments}
    (h : (match solidFrom 0 bs with
      | [(a, first)] => if first.isPositional then some (Arguments.one [xs.length, a]) else none
      | [(a, first), (_, comma), (b, second)] =>
        if comma.kind == .comma && first.isPositional && second.isPositional then
          some (.two [xs.length, a] [xs.length, b])
        else none
      | _ => none) = some a) : ∃ f, Args (xs ++ node .argList bs :: ys) a f := by
  split at h
  · rename_i i m hsolid
    obtain ⟨ps, qs, rfl, hps, hm, rfl, hqs⟩ := solidFrom_eq_cons hsolid
    split at h <;> rename_i hpos
    · injection h with h
      subst h
      rw [Nat.zero_add]
      exact ⟨_, .one hxs hps ⟨hpos, hm⟩ (solidFrom_eq_nil.1 hqs) hys⟩
    · cases h
  · rename_i i o j c k m hsolid
    obtain ⟨ps, mid, rfl, hps, ho, rfl, hmid⟩ := solidFrom_eq_cons hsolid
    obtain ⟨us, mid, rfl, hus, -, rfl, hmid⟩ := solidFrom_eq_cons hmid
    obtain ⟨vs, ws, rfl, hvs, hm, rfl, hws⟩ := solidFrom_eq_cons hmid
    split at h <;> rename_i hpos
    · injection h with h
      subst h
      simp only [Bool.and_eq_true, beq_iff_eq] at hpos
      rw [Nat.zero_add]
      exact ⟨_, .two hxs hps ⟨hpos.1.2, ho⟩ hus hpos.1.1 hvs ⟨hpos.2, hm⟩
        (solidFrom_eq_nil.1 hws) hys⟩
    · cases h
  · cases h

/-- The children of a call trailer that has arguments are of one of the three forms. -/
theorem args_of_arguments? {k : Kind} {us : List Tree} {a : Arguments}
    (h : (node k us).arguments? = some a) : ∃ f, Args us a f := by
  unfold arguments? at h
  rw [significant_eq, children] at h
  split at h
  · rename_i i l j r hsolid
    obtain ⟨ws, ys, rfl, hws, -, rfl, hys⟩ := solidFrom_eq_cons hsolid
    split at h <;> rename_i hk
    · injection h with h
      subst h
      simp only [Bool.and_eq_true, beq_iff_eq] at hk
      obtain ⟨vs, ws', rfl, hvs, hr, -, hws'⟩ := solidFrom_eq_cons hys
      rw [Nat.zero_add]
      exact ⟨_, .empty hws hk.1 (.of_append hvs hr (solidFrom_eq_nil.1 hws') hk.2)⟩
    · cases h
  · rename_i i l j args m r hsolid
    obtain ⟨ws, mid, rfl, hws, hl, rfl, hmid⟩ := solidFrom_eq_cons hsolid
    obtain ⟨us, ys, rfl, hus, -, rfl, hys⟩ := solidFrom_eq_cons hmid
    obtain ⟨vs, ws', rfl, hvs, hr, -, hws'⟩ := solidFrom_eq_cons hys
    split at h <;> rename_i hk
    · simp only [Bool.and_eq_true, beq_iff_eq] at hk
      obtain ⟨⟨⟨hlk, hak⟩, hnode⟩, hrk⟩ := hk
      cases args with
      | token t => cases hnode
      | node k' bs =>
        obtain rfl : k' = .argList := hak
        have hlen : (ws ++ l :: us).length = 0 + ws.length + 1 + us.length := by
          simp only [List.length_append, List.length_cons]; omega
        rw [significant_eq, children, ← hlen] at h
        have := args_of_argList (.of_append hws hl hus hlk)
          (.of_append hvs hr (solidFrom_eq_nil.1 hws') hrk) h
        rwa [List.append_assoc] at this
    · cases h
  · cases h

/-! ## Calls -/

/-- The trees hold the callee of a shape and nothing else. -/
def Callee : Shape → List Tree → Prop
  | .result, ts => ∃ r a, solid ts = [r, a] ∧ r.isNameOf "result" = true ∧
      a.attribute? = some "error"
  | .logger m, ts => ∃ r l a, solid ts = [r, l, a] ∧ r.isNameOf "self" = true ∧
      l.attribute? = some "logger" ∧ a.attribute? = some m.name

theorem ofName?_eq_some_iff {s : String} {m : LoggerMethod} :
    LoggerMethod.ofName? s = some m ↔ s = m.name := by
  unfold LoggerMethod.ofName?
  cases m <;> simp only [beq_iff_eq, LoggerMethod.name] <;> split <;> simp_all

/-- The trailer of a call is the parentheses around its arguments. -/
theorem callOf?_eq_some_iff {shape : Shape} {i : Nat} {t : Tree} {c : Call} :
    callOf? shape i t = some c ↔
      ∃ us a f, t = node .callTrailer us ∧ Args us a f ∧ c = ⟨shape, i, a.below i⟩ := by
  constructor
  · intro h
    unfold callOf? at h
    split at h
    · rename_i us
      obtain ⟨a, ha, rfl⟩ := Option.map_eq_some_iff.1 h
      obtain ⟨f, hf⟩ := args_of_arguments? ha
      exact ⟨us, a, f, rfl, hf, rfl⟩
    · cases h
  · rintro ⟨us, a, f, rfl, hargs, rfl⟩
    rw [callOf?, arguments?_of_args hargs]
    rfl

/-- An error call: a callee and a call trailer with arguments, and nothing after them. -/
theorem call?_eq_some_iff {t : Tree} {c : Call} : t.call? = some c ↔
    ∃ callee us trailing a f, t = node .powerExpr (callee ++ node .callTrailer us :: trailing) ∧
      Callee c.shape callee ∧ solid trailing = [] ∧ Args us a f ∧
      c = ⟨c.shape, callee.length, a.below callee.length⟩ := by
  constructor
  · intro h
    unfold call? at h
    split at h
    · rename_i cs
      rw [significant_eq, children_node] at h
      split at h
      · rename_i i₁ r i₂ a j t hsolid
        obtain ⟨ws, mid, rfl, hws, hr, rfl, hmid⟩ := solidFrom_eq_cons hsolid
        obtain ⟨us, mid, rfl, hus, ha, rfl, hmid⟩ := solidFrom_eq_cons hmid
        obtain ⟨vs, trailing, rfl, hvs, -, rfl, htrailing⟩ := solidFrom_eq_cons hmid
        have hlen : 0 + ws.length + 1 + us.length + 1 + vs.length =
            (ws ++ r :: us ++ a :: vs).length := by
          simp only [List.length_append, List.length_cons]; omega
        rw [hlen] at h
        split at h <;> rename_i hcallee
        · obtain ⟨args, b, f, rfl, hargs, rfl⟩ := callOf?_eq_some_iff.1 h
          simp only [Bool.and_eq_true, beq_iff_eq] at hcallee
          refine ⟨ws ++ r :: us ++ a :: vs, args, trailing, b, f, by simp, ?_,
            solidFrom_eq_nil.1 htrailing, hargs, rfl⟩
          exact ⟨r, a, by simp [hws, hus, hvs, solid_cons_of_not_trivia, hr, ha], hcallee⟩
        · cases h
      · rename_i i₁ r i₂ l i₃ a j t hsolid
        obtain ⟨ws, mid, rfl, hws, hr, rfl, hmid⟩ := solidFrom_eq_cons hsolid
        obtain ⟨us, mid, rfl, hus, hl, rfl, hmid⟩ := solidFrom_eq_cons hmid
        obtain ⟨vs, mid, rfl, hvs, ha, rfl, hmid⟩ := solidFrom_eq_cons hmid
        obtain ⟨xs, trailing, rfl, hxs, -, rfl, htrailing⟩ := solidFrom_eq_cons hmid
        have hlen : 0 + ws.length + 1 + us.length + 1 + vs.length + 1 + xs.length =
            (ws ++ r :: us ++ l :: vs ++ a :: xs).length := by
          simp only [List.length_append, List.length_cons]; omega
        rw [hlen] at h
        split at h <;> rename_i hcallee
        · simp only [Option.bind_eq_bind, Option.bind_eq_some_iff] at h
          obtain ⟨m, ⟨s, hs, hm⟩, h⟩ := h
          obtain rfl := ofName?_eq_some_iff.1 hm
          obtain ⟨args, b, f, rfl, hargs, rfl⟩ := callOf?_eq_some_iff.1 h
          simp only [Bool.and_eq_true, beq_iff_eq] at hcallee
          refine ⟨ws ++ r :: us ++ l :: vs ++ a :: xs, args, trailing, b, f, by simp, ?_,
            solidFrom_eq_nil.1 htrailing, hargs, rfl⟩
          exact ⟨r, l, a, by simp [hws, hus, hvs, hxs, solid_cons_of_not_trivia, hr, hl, ha],
            hcallee.1, hcallee.2, hs⟩
        · cases h
      · cases h
    · cases h
  · rintro ⟨callee, us, trailing, a, f, rfl, hcallee, htrailing, hargs, hc⟩
    have htrailer : solidFrom 0 (callee ++ node .callTrailer us :: trailing) =
        solidFrom 0 callee ++ [(callee.length, node .callTrailer us)] := by
      rw [solidFrom_append, solidFrom, kind_node, if_neg (by decide), solidFrom_eq_nil.2 htrailing,
        Nat.zero_add]
    have hcall := callOf?_eq_some_iff.2 ⟨us, a, f, rfl, hargs, hc⟩
    obtain ⟨is, hlen, hfrom⟩ := solidFrom_eq_zip 0 callee
    unfold call?
    dsimp only
    rw [significant_eq, children_node, htrailer, hfrom]
    cases hshape : c.shape with
    | result =>
      rw [hshape] at hcallee hcall
      obtain ⟨r, b, hsolid, hr, hb⟩ := hcallee
      rw [hsolid] at hlen ⊢
      match is, hlen with
      | [i, j], _ => simp [hr, hb, hcall]
    | logger m =>
      rw [hshape] at hcallee hcall
      obtain ⟨r, l, b, hsolid, hr, hl, hb⟩ := hcallee
      rw [hsolid] at hlen ⊢
      match is, hlen with
      | [i, j, k], _ => simp [hr, hl, hb, ofName?_eq_some_iff.2 rfl, hcall]

end Renumber.Tree

namespace Renumber

/-! ## What a code makes of a call -/

/-- What a code makes of the call that a node is: behind the opening parenthesis, in front of the only
argument or in the place of the first of two. -/
def Call.put (c : Call) (code : UInt64) (t : Tree) : Tree :=
  let new :=
    match c.arguments with
    | .empty p => Tree.substitute (fun opening => [opening, .numberArgList code]) p t
    | .one p =>
      Tree.substitute (fun a => [.numberLiteral code, .comma, .blanks " ", a]) p t
    | .two p _ => Tree.substitute (fun _ => [.numberLiteral code]) p t
  new.headD t

namespace Tree

/-- What a code makes of an error call. -/
theorem put_eq {callee us trailing : List Tree} {a : Arguments} {f : UInt64 → List Tree}
    (h : Args us a f) (shape : Shape) (n : UInt64) :
    Call.put ⟨shape, callee.length, a.below callee.length⟩ n
        (node .powerExpr (callee ++ node .callTrailer us :: trailing)) =
      node .powerExpr (callee ++ node .callTrailer (f n) :: trailing) := by
  cases h <;> simp [Call.put, Arguments.below, substitute]

/-! ## Writing a code never fails

Each argument has a parent to be edited in, the parentheses are there, and the one blank that an
argument gets is one that may stand there. -/

/-- There are no trivia in front of an element that stands right behind a token that is none. -/
theorem leading_eq_nil {root : Tree} {p : List Nat} {i : Nat} {t : Token}
    (hbefore : at? (p ++ [i]) root = some (token t)) (ht : t.kind.isTrivia = false) :
    root.leading (p ++ [i + 1]) = [] := by
  unfold leading
  split
  · rfl
  · rename_i q hfirst
    obtain ⟨u, -, hu⟩ := Option.bind_eq_some_iff.1 hfirst
    have hzero := eq_zero_of_firstToken? hu
    have hsibling : siblingBefore? (p ++ [i + 1] ++ q) = some (p ++ [i]) := by
      rw [List.append_assoc, List.singleton_append, siblingBefore?_append hzero]
    have htoken : tokenBefore? root (p ++ [i + 1] ++ q) = some (p ++ [i]) := by
      rw [tokenBefore?, hsibling]
      simp [hbefore, lastToken?]
    cases root.leaves.length with
    | zero => rfl
    | succ n =>
      rw [triviaBefore, htoken]
      simp [hbefore, ht]

theorem setLeading_of_leading_eq_nil {root : Tree} {p : List Nat} {text : String}
    (h : root.leading p = []) (hne : text ≠ "") (htext : text.toList.all isHorizontal = true)
    {t : Tree} (hinsert : root.insertBefore p [blanks text] = .ok t) :
    root.setLeading p text = (t, .ok ()) := by
  simp [setLeading, h, hne, htext, hinsert, removeAll]

section
variable {callee us trailing : List Tree} {a : Arguments} {f : UInt64 → List Tree}

theorem write_eq (h : Args us a f) (shape : Shape) (n : UInt64) (line : Nat) :
    Call.write ⟨shape, callee.length, a.below callee.length⟩ n line
        (node .powerExpr (callee ++ node .callTrailer us :: trailing)) =
      .ok (node .powerExpr (callee ++ node .callTrailer (f n) :: trailing)) := by
  cases h with
  | @empty ws ys l hws hl hys =>
    have hfind : (ws ++ l :: ys).findIdx? (fun v => v.kind == .lParen) = some ws.length := by
      have hnone : ws.findIdx? (fun v => v.kind == .lParen) = none := by
        rw [List.findIdx?_eq_none_iff]
        intro w hw
        have htriv : w.kind.isTrivia = true := by
          have := List.filter_eq_nil_iff.1 hws w hw
          simpa using this
        rw [beq_eq_false_iff_ne]
        intro hk
        rw [hk] at htriv
        cases htriv
      rw [List.findIdx?_append, hnone, List.findIdx?_cons, hl]
      simp
    simp [Call.write, Arguments.below, hfind, insertAfter, edit, substitute]
  | @one xs ps qs ys m hxs hps hm hqs hys =>
    have hlength : ps.length + 2 = (ps ++ [numberLiteral n, comma]).length := by simp
    generalize hroot : node .powerExpr (callee ++ node .callTrailer (xs ++
      node .argList ((ps ++ [numberLiteral n, comma]) ++ m :: qs) :: ys) :: trailing) = root
    have hinsert : (node .powerExpr (callee ++ node .callTrailer (xs ++
        node .argList (ps ++ m :: qs) :: ys) :: trailing)).insertBefore
          [callee.length, xs.length, ps.length] [numberLiteral n, comma] = .ok root := by
      rw [← hroot]
      simp [insertBefore, edit, substitute]
    have hcomma : at? ([callee.length, xs.length] ++ [ps.length + 1]) root =
        some (token ⟨.comma, ","⟩) := by
      rw [← hroot]
      simp [at?, comma]
    have hblank : root.insertBefore [callee.length, xs.length, ps.length + 2] [blanks " "] =
        .ok (node .powerExpr (callee ++ node .callTrailer (xs ++ node .argList
          (ps ++ numberLiteral n :: comma :: blanks " " :: m :: qs) :: ys) :: trailing)) := by
      rw [← hroot, hlength]
      simp only [insertBefore, edit, substitute_append_cons]
      simp [substitute]
    have hset := setLeading_of_leading_eq_nil (leading_eq_nil hcomma rfl) (by decide) (by decide)
      hblank
    simp only [Call.write, Arguments.below, hinsert, alongside, bind, Except.bind]
    rw [show [callee.length, xs.length, ps.length + 2] =
      [callee.length, xs.length] ++ [ps.length + 1 + 1] from rfl, hset]
    rfl
  | two hxs hps ho hus hc hvs hm hws hys =>
    simp [Call.write, Arguments.below, replace, edit, substitute]

end

/-- A code can be written into every error call. -/
theorem write_of_call? {t : Tree} {c : Call} (h : t.call? = some c) (n : UInt64) (line : Nat) :
    c.write n line t = .ok (c.put n t) := by
  obtain ⟨callee, us, trailing, a, f, rfl, -, -, hargs, hc⟩ := call?_eq_some_iff.1 h
  rw [hc, write_eq hargs, put_eq hargs]

end Tree

end Renumber
