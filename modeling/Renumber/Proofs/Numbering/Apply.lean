import Renumber.Proofs.Numbering.Overwrite
import Renumber.Proofs.Tree.Splice

/-!
# Codes in any order

A code may be given to any call of a tree, in any order, and the source may have problems: all that is needed
of the tree is that it is regular, and it stays so (`Reached.regular`). Giving a code to a call swaps that call
for another one (`exists_applyCode`). The other calls are then found again: those around it look like they did
to the matcher, those beside it are the same, and those inside it are in its arguments, of which the
first of two is gone and the only one has moved (`applyCode_agrees`).
-/

namespace Renumber.Tree

/-! ## Regular trees stay regular -/

theorem Regular.of_at? {t e : Tree} {p : List Nat} (h : t.Regular) (he : at? p t = some e) :
    e.Regular := by
  induction p generalizing t with
  | nil =>
    obtain rfl := Option.some.inj he
    exact h
  | cons i p ih =>
    obtain ⟨k, us, c, vs, rfl, rfl, hc⟩ := at?_cons_eq_some_iff.1 he
    exact ih (h.of_mem (List.mem_append_right _ List.mem_cons_self)) hc

/-- A regular tree with a regular element in the place of a node. -/
theorem Swapped.regular {k : Kind} {cs : List Tree} {e root root' : Tree} {p : List Nat}
    (h : Swapped (node k cs) e p root root') (hroot : root.Regular) (he : e.Regular) :
    root'.Regular := by
  induction h with
  | here => exact he
  | @child p c c' k us vs h ih =>
    have hc : c.Regular := hroot.of_mem (List.mem_append_right _ List.mem_cons_self)
    cases hroot with
    | node hk hflat hcs =>
      obtain ⟨hus, hvs⟩ := List.forall_mem_append.1 hcs
      refine .node hk (fun hk' => ?_)
        (List.forall_mem_append.2 ⟨hus, List.forall_mem_cons.2 ⟨ih hc, (List.forall_mem_cons.1 hvs).2⟩⟩)
      -- A token holds no node, so the child is not one of the tokens of a flat node.
      obtain ⟨w, rfl⟩ := hflat hk' c (List.mem_append_right _ List.mem_cons_self)
      cases h

/-- A regular tree with regular elements put in among the children of a node that may hold nodes. -/
theorem Regular.edit {f : Tree → List Tree} {root root' e : Tree} {q : List Nat} {k : Kind}
    {us vs : List Tree} (h : root.Regular) (hat : at? q root = some (.node k (us ++ e :: vs)))
    (hk : k.isFlat = false) (hf : ∀ t ∈ f e, t.Regular)
    (hedit : root.edit (q ++ [us.length]) f = .ok root') : root'.Regular := by
  obtain ⟨t, ht, hswap⟩ := exists_edit hat f
  obtain rfl := Except.ok.inj (ht.symm.trans hedit)
  refine hswap.regular h ?_
  cases h.of_at? hat with
  | node hnode _ hcs =>
    obtain ⟨hus, hvs⟩ := List.forall_mem_append.1 hcs
    refine .node hnode (fun hflat => ?_) (List.forall_mem_append.2 ⟨hus, List.forall_mem_append.2
      ⟨hf, (List.forall_mem_cons.1 hvs).2⟩⟩)
    rw [hk] at hflat
    cases hflat

/-- The same for an edit of a node: what holds a node is of a kind that may. -/
theorem Regular.edit_node {f : Tree → List Tree} {root root' : Tree} {p : List Nat} {k : Kind}
    {cs : List Tree} (h : root.Regular) (hat : at? p root = some (.node k cs))
    (hf : ∀ t ∈ f (.node k cs), t.Regular) (hedit : root.edit p f = .ok root') : root'.Regular := by
  have hp : p ≠ [] := by
    rintro rfl
    cases hedit
  obtain ⟨q, j, us, vs, rfl, hq⟩ := exists_parent hat hp
  refine h.edit hq ?_ hf hedit
  cases h.of_at? hq with
  | node _ hflat _ =>
    rw [← Bool.not_eq_true]
    intro hj
    obtain ⟨w, hw⟩ := hflat hj (.node k cs) (List.mem_append_right _ List.mem_cons_self)
    cases hw

theorem regular_numberLiteral (n : UInt64) : (numberLiteral n).Regular := by
  refine .node rfl (fun h => ?_) fun c hc => ?_
  · cases h
  · rw [List.mem_singleton.1 hc]
    exact .token _

theorem regular_argList {cs : List Tree} (h : ∀ c ∈ cs, c.Regular) : (node .argList cs).Regular :=
  .node rfl (fun hflat => Bool.noConfusion hflat) h

theorem regular_numberArgList (n : UInt64) : (numberArgList n).Regular :=
  regular_argList (List.forall_mem_singleton.2 (regular_numberLiteral n))

/-- The parentheses of a call with a code are regular if they were before. -/
theorem regular_of_args {us : List Tree} {a : Arguments} {f : UInt64 → List Tree} (h : Args us a f)
    (hus : ∀ t ∈ us, t.Regular) (n : UInt64) : ∀ t ∈ f n, t.Regular := by
  have hcode := regular_numberLiteral n
  cases h with
  | empty =>
    obtain ⟨hws, hys⟩ := List.forall_mem_append.1 hus
    obtain ⟨hl, hys⟩ := List.forall_mem_cons.1 hys
    have hlist := regular_numberArgList n
    exact List.forall_mem_append.2 ⟨hws, List.forall_mem_cons.2 ⟨hl, List.forall_mem_cons.2 ⟨hlist, hys⟩⟩⟩
  | one =>
    obtain ⟨hxs, hlist, hys⟩ := regular_among hus
    obtain ⟨hps, hm⟩ := List.forall_mem_append.1 hlist
    refine List.forall_mem_append.2 ⟨hxs, List.forall_mem_cons.2 ⟨regular_argList ?_, hys⟩⟩
    refine List.forall_mem_append.2 ⟨hps, List.forall_mem_cons.2 ⟨hcode, ?_⟩⟩
    exact List.forall_mem_cons.2 ⟨.token _, List.forall_mem_cons.2 ⟨.token _, hm⟩⟩
  | two =>
    obtain ⟨hxs, hlist, hys⟩ := regular_among hus
    obtain ⟨hps, hm⟩ := List.forall_mem_append.1 hlist
    refine List.forall_mem_append.2 ⟨hxs, List.forall_mem_cons.2 ⟨regular_argList ?_, hys⟩⟩
    exact List.forall_mem_append.2 ⟨hps, List.forall_mem_cons.2 ⟨hcode, (List.forall_mem_cons.1 hm).2⟩⟩

theorem regular_put {t : Tree} {c : Call} (ht : t.Regular) (h : t.call? = some c) (n : UInt64) :
    (c.put n t).Regular := by
  obtain ⟨callee, us, trailing, a, f, rfl, -, -, hargs, hc⟩ := call?_eq_some_iff.1 h
  obtain ⟨hcallee, hus, htrailing⟩ := regular_among fun _ => ht.of_mem
  have htrailer : (node .callTrailer (f n)).Regular :=
    .node rfl (fun hflat => Bool.noConfusion hflat) (regular_of_args hargs hus n)
  rw [hc, put_eq hargs]
  exact .node rfl (fun hflat => Bool.noConfusion hflat)
    (List.forall_mem_append.2 ⟨hcallee, List.forall_mem_cons.2 ⟨htrailer, htrailing⟩⟩)

/-! ## Giving a code swaps a call -/

theorem exists_applyCode {root t : Tree} {p : List Nat} {c : Call} (hat : at? p root = some t)
    (hcall : t.call? = some c) {s : Series} (hs : s.current ≠ Series.last) :
    ∃ root' fix, root.applyCode p t c s = .ok (root', fix, ⟨s.current + 1⟩) ∧
      fix.code = s.current + 1 ∧ fix.shape = c.shape ∧
      Swapped t (c.put (s.current + 1) t) p root root' := by
  obtain ⟨root', hswap⟩ := exists_swapped hat (c.put (s.current + 1) t)
  have hsubst : substitute (fun _ => [c.put (s.current + 1) t]) p root = [root'] := by
    have := hswap.substitute_eq (f := fun _ => [c.put (s.current + 1) t]) (r := []) rfl
    rwa [List.append_nil] at this
  have hnext : s.next = .ok (s.current + 1, ⟨s.current + 1⟩) := by rw [Series.next, if_neg hs]
  refine ⟨root', ⟨root.lineOf p, s.current + 1, c.fixKind t, c.shape⟩, ?_, rfl, rfl, hswap⟩
  rw [applyCode, hnext]
  simp only [bind, Except.bind, write_of_call? hcall, hsubst]
  rfl

/-- What a code does to a tree when it is given to a call as it was found earlier, before it got another
one: the new elements come in where the nodes that were found then are now. -/
inductive Late (n : UInt64) (root root' : Tree) : Prop
  | replaced {p : List Nat} {k : Kind} {cs : List Tree} (hat : at? p root = some (node k cs))
      (h : root.replace p (numberLiteral n) = .ok root')
  | preceded {p : List Nat} {k : Kind} {cs : List Tree} (hat : at? p root = some (node k cs))
      (h : root.insertBefore p [numberLiteral n, comma, blanks " "] = .ok root')
  | opened {p : List Nat} {us vs : List Tree} {l : Tree}
      (hat : at? p root = some (node .callTrailer (us ++ l :: vs)))
      (h : root.insertAfter (p ++ [us.length]) [numberArgList n] = .ok root')

/-- The trees of a source that there are when calls have been given codes, in any order and from any
series, each as it is found in the tree then or as it was found earlier. -/
inductive Reached (source : String) : Tree → Prop
  | parsed : Reached source (parse source).tree
  | applied {root root' t : Tree} {p : List Nat} {c : Call} {s s' : Series} {fix : Fix}
      (h : Reached source root) (hat : at? p root = some t) (hcall : t.call? = some c)
      (happly : root.applyCode p t c s = .ok (root', fix, s')) : Reached source root'
  | late {root root' : Tree} {n : UInt64} (h : Reached source root) (hlate : Late n root root') :
      Reached source root'

theorem Late.regular {n : UInt64} {root root' : Tree} (h : Late n root root')
    (hroot : root.Regular) : root'.Regular := by
  have hcode := regular_numberLiteral n
  cases h with
  | replaced hat h => exact hroot.edit_node hat (List.forall_mem_singleton.2 hcode) h
  | preceded hat h =>
    refine hroot.edit_node hat (List.forall_mem_append.2 ⟨?_, List.forall_mem_singleton.2
      (hroot.of_at? hat)⟩) h
    exact List.forall_mem_cons.2 ⟨hcode, List.forall_mem_cons.2
      ⟨.token _, List.forall_mem_singleton.2 (.token _)⟩⟩
  | opened hat h =>
    have hopen := (hroot.of_at? hat).of_mem (List.mem_append_right _ List.mem_cons_self)
    exact hroot.edit hat rfl (List.forall_mem_cons.2
      ⟨hopen, List.forall_mem_singleton.2 (regular_numberArgList n)⟩) h

theorem Reached.regular {source : String} {root : Tree} (h : Reached source root) :
    root.Regular := by
  induction h with
  | parsed => exact regular_parse source
  | late _ hlate ih => exact hlate.regular ih
  | @applied root root' t p c s s' fix _ hat hcall happly ih =>
    by_cases hs : s.current = Series.last
    · rw [applyCode, Series.next_eq_error_iff.2 ⟨hs, rfl⟩] at happly
      cases happly
    · obtain ⟨_, _, happly', -, -, hswap⟩ := exists_applyCode hat hcall hs
      obtain ⟨rfl, -⟩ := Prod.mk.inj (Except.ok.inj (happly.symm.trans happly'))
      have hput := regular_put (ih.of_at? hat) hcall (s.current + 1)
      obtain ⟨_, _, _, _, _, rfl, -⟩ := call?_eq_some_iff.1 hcall
      exact hswap.regular ih hput

/-! ## The call that got a code -/

/-- The texts of the arguments of the call that a node is; no text where the path of an argument leads
nowhere. -/
def textsOfArguments (c : Call) (t : Tree) : List (Option String) :=
  c.arguments.paths.map fun p => (at? p t).map text

theorem textsOfArguments_below {callee us trailing : List Tree} (a : Arguments) (shape : Shape) :
    textsOfArguments ⟨shape, callee.length, a.below callee.length⟩
        (node .powerExpr (callee ++ node .callTrailer us :: trailing)) =
      a.paths.map fun p => (at? p (node .callTrailer us)).map text := by
  rw [textsOfArguments, paths_below, List.map_map]
  exact List.map_congr_left fun p _ => by rw [Function.comp, at?_append_cons]

/-- The parentheses of a call with a code are those of a call again, with the code for its first argument
and the last argument that there was for its second. -/
theorem exists_args_again {us : List Tree} {a : Arguments} {f : UInt64 → List Tree}
    (h : Framed us a f) (n : UInt64) (k : Kind) : ∃ b g, Args (f n) b g ∧
      (b.paths.map fun p => (at? p (node k (f n))).map text) =
        some (toString n.toNat) ::
          (a.paths.map fun p => (at? p (node k us)).map text).getLast?.toList ∧
      none ∉ b.paths.map fun p => (at? p (node k (f n))).map text := by
  have hcode := positional_numberLiteral n
  have hcomma : Bracket .comma [comma, blanks " "] := ⟨comma, rfl, rfl⟩
  cases h with
  | empty F =>
    refine ⟨_, _, F.args_one hcode, ?_, ?_⟩
    · simp [Arguments.paths, Frame.at?_fill_first, text_numberLiteral]
    · simp [Arguments.paths, Frame.at?_fill_first]
  | one F hm =>
    refine ⟨_, _, F.args_two hcode hcomma hm, ?_, ?_⟩
    · simp only [Arguments.paths, List.map_cons, List.map_nil, Frame.at?_fill_first,
        Frame.at?_fill_last, Option.map_some, text_numberLiteral]
      rfl
    · simp only [Arguments.paths, List.map_cons, List.map_nil, Frame.at?_fill_first,
        Frame.at?_fill_last]
      simp
  | two F ho hmid _ hm =>
    refine ⟨_, _, F.args_two hcode hmid hm, ?_, ?_⟩
    · simp only [Arguments.paths, List.map_cons, List.map_nil, Frame.at?_fill_first,
        Frame.at?_fill_last, Option.map_some, text_numberLiteral]
      rfl
    · simp only [Arguments.paths, List.map_cons, List.map_nil, Frame.at?_fill_first,
        Frame.at?_fill_last]
      simp

theorem exists_call?_put {t : Tree} {c : Call} (ht : t.Regular) (h : t.call? = some c) (n : UInt64) :
    ∃ d, (c.put n t).call? = some d ∧ d.shape = c.shape ∧
      textsOfArguments d (c.put n t) =
        some (toString n.toNat) :: (textsOfArguments c t).getLast?.toList ∧
      none ∉ textsOfArguments d (c.put n t) := by
  obtain ⟨callee, us, trailing, a, f, rfl, hcallee, htrailing, hargs, hc⟩ := call?_eq_some_iff.1 h
  obtain ⟨-, hus, -⟩ := regular_among fun _ => ht.of_mem
  obtain ⟨b, g, hb, htexts, hsome⟩ := exists_args_again (framed_of_args hargs hus) n .callTrailer
  rw [hc, put_eq hargs]
  refine ⟨⟨c.shape, callee.length, b.below callee.length⟩,
    call?_eq_some_iff.2 ⟨callee, f n, trailing, b, g, rfl, hcallee, htrailing, hb, rfl⟩, rfl, ?_, ?_⟩
  · rw [textsOfArguments_below, textsOfArguments_below, htexts]
  · rwa [textsOfArguments_below]

/-! ## The calls around it -/

theorem Alike.refl (ts : List Tree) : Alike ts ts := by
  induction ts using forest_induction with
  | nil => exact .nil
  | token t => exact .token .nil
  | append ts us hts hus => exact hts.append hus
  | plain k cs _ ih => exact .node (fun _ => ih) .nil
  | call => exact .node (fun hk => absurd rfl hk) .nil

theorem Swapped.alike {cs ds : List Tree} {root root' : Tree} {p : List Nat}
    (h : Swapped (node .powerExpr cs) (node .powerExpr ds) p root root') : Alike [root] [root'] := by
  induction h with
  | here => exact .node (fun hk => absurd rfl hk) .nil
  | child k us vs _ ih => exact .node (fun _ => (Alike.refl us).append (ih.append (Alike.refl vs))) .nil

/-- A call around one that got a code is a call as before. -/
theorem exists_call?_around {cs ds : List Tree} {u u' : Tree} {i : Nat} {r : List Nat} {d : Call}
    (h : Swapped (node .powerExpr cs) (node .powerExpr ds) (i :: r) u u') (hu : u.Regular)
    (hd : u.call? = some d) : ∃ d', u'.call? = some d' ∧ d'.shape = d.shape ∧
      d'.arguments.paths.length = d.arguments.paths.length := by
  cases h with
  | child k us vs h =>
    exact exists_call?_of_alike hd (fun _ => hu.of_mem)
      ((Alike.refl us).append (h.alike.append (Alike.refl vs)))

/-! ## The calls inside it -/

theorem powers_le_powersOf {t : Tree} {ts : List Tree} (h : t ∈ ts) : t.powers ≤ powersOf ts := by
  obtain ⟨us, vs, rfl⟩ := List.append_of_mem h
  rw [powersOf_append, powersOf_cons]
  omega

theorem powers_le_of_at? {t e : Tree} {p : List Nat} (h : at? p t = some e) :
    e.powers ≤ t.powers := by
  induction p generalizing t with
  | nil =>
    obtain rfl := Option.some.inj h
    exact Nat.le_refl _
  | cons i p ih =>
    obtain ⟨k, us, c, vs, rfl, rfl, hc⟩ := at?_cons_eq_some_iff.1 h
    have hle := ih hc
    rw [powers_node, powersOf_append, powersOf_cons]
    omega

theorem powers_pos_of_call? {t : Tree} {c : Call} (h : t.call? = some c) : 0 < t.powers := by
  obtain ⟨callee, us, trailing, a, f, rfl, -⟩ := call?_eq_some_iff.1 h
  rw [powers_node, if_pos rfl]
  omega

section
variable {k : Kind} {r : List Nat} {u : Tree} {d : Call}

/-- A call below a node is not among the children that hold none. -/
theorem exists_of_at?_among {xs ms ys : List Tree} (h : at? r (node k (xs ++ (ms ++ ys))) = some u)
    (hu : u.call? = some d) (hr : r ≠ []) (hxs : powersOf xs = 0) (hys : powersOf ys = 0) :
    ∃ j m z, ms[j]? = some m ∧ r = (xs.length + j) :: z ∧ at? z m = some u := by
  obtain ⟨i, z, rfl⟩ := List.exists_cons_of_ne_nil hr
  rw [at?, Option.bind_eq_some_iff, children_node] at h
  obtain ⟨m, hm, hz⟩ := h
  have hpos : 0 < m.powers := Nat.lt_of_lt_of_le (powers_pos_of_call? hu) (powers_le_of_at? hz)
  by_cases hi : i < xs.length
  · rw [List.getElem?_append_left hi] at hm
    have := powers_le_powersOf (List.mem_of_getElem? hm)
    omega
  · rw [List.getElem?_append_right (by omega)] at hm
    by_cases hj : i - xs.length < ms.length
    · rw [List.getElem?_append_left hj] at hm
      refine ⟨i - xs.length, m, z, hm, ?_, hz⟩
      rw [Nat.add_sub_cancel' (by omega)]
    · rw [List.getElem?_append_right (by omega)] at hm
      have := powers_le_powersOf (List.mem_of_getElem? hm)
      omega

/-- A call below a node that holds no other call is that of its one child that may hold some. -/
theorem exists_of_at?_child {xs ys : List Tree} {c : Tree}
    (h : at? r (node k (xs ++ c :: ys)) = some u) (hu : u.call? = some d) (hr : r ≠ [])
    (hxs : powersOf xs = 0) (hys : powersOf ys = 0) : ∃ z, r = xs.length :: z ∧ at? z c = some u := by
  have hone : at? r (node k (xs ++ ([c] ++ ys))) = some u := h
  obtain ⟨j, m, z, hm, rfl, hz⟩ := exists_of_at?_among hone hu hr hxs hys
  obtain ⟨hj, rfl⟩ := List.getElem?_eq_some_iff.1 hm
  obtain rfl : j = 0 := by simpa using hj
  exact ⟨z, rfl, hz⟩

theorem ne_nil_of_call? (hk : k ≠ .powerExpr) {cs : List Tree} (h : at? r (node k cs) = some u)
    (hu : u.call? = some d) : r ≠ [] := by
  rintro rfl
  obtain rfl := Option.some.inj h
  rw [call?_eq_none hk] at hu
  cases hu

/-- A call in a frame is in one of the trees that fill it. -/
theorem Frame.exists_of_at? (F : Frame) {ts : List Tree} (hk : k ≠ .powerExpr)
    (h : at? r (node k (F.fill ts)) = some u) (hu : u.call? = some d) :
    ∃ j m z, ts[j]? = some m ∧ r = F.path j ++ z ∧ at? z m = some u := by
  obtain ⟨w, rfl, hw⟩ := exists_of_at?_child h hu (ne_nil_of_call? hk h hu) F.powersOf_before
    F.powersOf_after
  obtain ⟨j, m, z, hm, rfl, hz⟩ := exists_of_at?_among hw hu (ne_nil_of_call? (by decide) hw hu)
    F.powersOf_front F.powersOf_back
  exact ⟨j, m, z, hm, rfl, hz⟩

end

/-- A call in the parentheses of one that gets a code is in its only argument, which moves, or in the
first of two, which goes, or else it stays where it is. -/
theorem Framed.call_cases {us : List Tree} {a : Arguments} {f : UInt64 → List Tree}
    (h : Framed us a f) {r : List Nat} {u : Tree} {d : Call}
    (hu : at? r (node .callTrailer us) = some u) (hd : u.call? = some d) (n : UInt64) :
    (∃ b z, a = .one b ∧ b ≠ [] ∧ r = b ++ z ∧
      at? (alongside 3 b ++ z) (node .callTrailer (f n)) = some u) ∨
    (∃ b m, a = .two b m ∧ b <+: r) ∨
    ∃ b m, a = .two b m ∧ at? r (node .callTrailer (f n)) = some u := by
  cases h with
  | empty F =>
    have hle := powers_le_of_at? hu
    have hpos := powers_pos_of_call? hd
    rw [powers_node, if_neg (by decide), powersOf_append, F.powersOf_before, F.powersOf_after] at hle
    omega
  | @one F m =>
    obtain ⟨j, m', z, hm', rfl, hz⟩ := F.exists_of_at? (by decide) hu hd
    obtain ⟨hj, rfl⟩ := List.getElem?_eq_some_iff.1 hm'
    obtain rfl : j = 0 := by simpa using hj
    have hlast : at? (F.path 3) (node .callTrailer (F.fill (numberLiteral n ::
        ([comma, blanks " "] ++ [m])))) = some m := F.at?_fill .callTrailer rfl
    refine .inl ⟨F.path 0, z, rfl, List.cons_ne_nil _ _, rfl, ?_⟩
    rw [show alongside 3 (F.path 0) = F.path 3 from rfl, at?_append, hlast]
    exact hz
  | @two F o m mid =>
    obtain ⟨j, m', z, hm', rfl, hz⟩ := F.exists_of_at? (by decide) hu hd
    cases j with
    | zero => exact .inr (.inl ⟨_, _, rfl, List.prefix_append _ _⟩)
    | succ j =>
      have hrest : at? (F.path (j + 1)) (node .callTrailer (F.fill (numberLiteral n ::
          (mid ++ [m])))) = some m' := F.at?_fill .callTrailer hm'
      refine .inr (.inr ⟨_, _, rfl, ?_⟩)
      rw [at?_append, hrest]
      exact hz

/-! ## All calls -/

/-- Where the element at the end of a path is when a call has got a code: the only argument of the call,
and what is in it, is behind the code, the comma and the blank. -/
def moved (m : Entry) (q : List Nat) : List Nat :=
  match m.2.2.arguments with
  | .one a =>
    if (m.1 ++ a).isPrefixOf q then alongside 3 (m.1 ++ a) ++ q.drop (m.1 ++ a).length else q
  | _ => q

theorem moved_eq_self {m : Entry} {q : List Nat} (h : ¬ m.1 <+: q) : moved m q = q := by
  unfold moved
  split
  · rename_i a _
    have ha : ¬ (m.1 ++ a) <+: q := fun hprefix => h ((List.prefix_append m.1 a).trans hprefix)
    rw [if_neg (by rwa [List.isPrefixOf_iff_prefix])]
  · rfl

theorem moved_append {m : Entry} {a : List Nat} (h : m.2.2.arguments = .one a) (z : List Nat) :
    moved m (m.1 ++ a ++ z) = alongside 3 (m.1 ++ a) ++ z := by
  have hprefix : (m.1 ++ a).isPrefixOf (m.1 ++ a ++ z) = true := by
    rw [List.isPrefixOf_iff_prefix]
    exact List.prefix_append _ _
  unfold moved
  rw [h]
  dsimp only
  rw [if_pos hprefix, List.drop_left]

/-- A call inside one that gets a code is the same afterwards, unless it was in the argument that the code
takes the place of. -/
theorem exists_moved {t u : Tree} {c d : Call} {p r : List Nat} (ht : t.Regular)
    (hc : t.call? = some c) (n : UInt64) (hu : at? r t = some u) (hd : u.call? = some d)
    (hr : r ≠ []) (hcovers : covers (p, t, c) (p ++ r) = false) :
    ∃ z, moved (p, t, c) (p ++ r) = p ++ z ∧ at? z (c.put n t) = some u := by
  obtain ⟨callee, us, trailing, a, f, rfl, hcallee, htrailing, hargs, hc'⟩ := call?_eq_some_iff.1 hc
  obtain ⟨hcallee0, hus, htrailing0⟩ := quiet_of_call ht hcallee htrailing
  obtain ⟨w, rfl, hw⟩ := exists_of_at?_child hu hd hr hcallee0 htrailing0
  have hput : c.put n (node .powerExpr (callee ++ node .callTrailer us :: trailing)) =
      node .powerExpr (callee ++ node .callTrailer (f n) :: trailing) := by rw [hc', put_eq hargs]
  have harguments : c.arguments = a.below callee.length := by rw [hc']
  rw [hput]
  rcases (framed_of_args hargs hus).call_cases hw hd n with ⟨b, z, rfl, hb, rfl, hz⟩ | ⟨b, m, rfl, hb⟩ |
    ⟨b, m, rfl, hz⟩
  · refine ⟨callee.length :: (alongside 3 b ++ z), ?_, ?_⟩
    · have hmoved := moved_append
        (m := (p, node .powerExpr (callee ++ node .callTrailer us :: trailing), c)) harguments z
      have hstep : alongside 3 (callee.length :: b) = callee.length :: alongside 3 b :=
        alongside_append 3 [callee.length] hb
      rw [alongside_append 3 p (List.cons_ne_nil _ _), hstep] at hmoved
      simpa using hmoved
    · rw [at?_append_cons, hz]
  · have hcovered : covers (p, node .powerExpr (callee ++ node .callTrailer us :: trailing), c)
        (p ++ callee.length :: w) = true := by
      rw [covers, harguments]
      exact List.isPrefixOf_iff_prefix.2
        ((List.prefix_append_right_inj p).2 (List.cons_prefix_cons.2 ⟨rfl, hb⟩))
    rw [hcovered] at hcovers
    cases hcovers
  · refine ⟨callee.length :: w, ?_, ?_⟩
    · unfold moved
      rw [harguments]
      rfl
    · rw [at?_append_cons, hz]

/-- The matcher and the edits agree on every tree that there is on the way. A code can be given to any call,
as long as the series has one. What was a call then is one again, of the same shape: its first argument is
the code, and the last argument that it had, if any, is its second. And every other call is still one, of the
same shape and with as many arguments, but for those in an argument that the code takes the place of. -/
theorem applyCode_agrees {source : String} {root t : Tree} {p : List Nat} {c : Call}
    (h : Reached source root) (hat : at? p root = some t) (hcall : t.call? = some c) (s : Series) :
    (s.current = Series.last →
      root.applyCode p t c s = .error (.seriesExhausted Series.last)) ∧
    (s.current ≠ Series.last → ∃ root' fix,
      root.applyCode p t c s = .ok (root', fix, ⟨s.current + 1⟩) ∧
      fix.code = s.current + 1 ∧ fix.shape = c.shape ∧
      (∃ t' c', at? p root' = some t' ∧ t'.call? = some c' ∧ c'.shape = c.shape ∧
        textsOfArguments c' t' =
          some (toString (s.current + 1).toNat) :: (textsOfArguments c t).getLast?.toList ∧
        none ∉ textsOfArguments c' t') ∧
      ∀ q u d, at? q root = some u → u.call? = some d → q ≠ p → covers (p, t, c) q = false →
        ∃ u' d', at? (moved (p, t, c) q) root' = some u' ∧ u'.call? = some d' ∧
          d'.shape = d.shape ∧ d'.arguments.paths.length = d.arguments.paths.length) := by
  refine ⟨fun hs => ?_, fun hs => ?_⟩
  · rw [applyCode, Series.next_eq_error_iff.2 ⟨hs, rfl⟩]
    rfl
  · have ht : t.Regular := h.regular.of_at? hat
    obtain ⟨root', fix, happly, hcode, hshape, hswap⟩ := exists_applyCode hat hcall hs
    obtain ⟨c', hc', hshape', htexts, hsome⟩ := exists_call?_put ht hcall (s.current + 1)
    refine ⟨root', fix, happly, hcode, hshape, ⟨_, c', hswap.at?_right, hc', hshape', htexts, hsome⟩, ?_⟩
    intro q u d hu hd hq hcovers
    by_cases hpq : p <+: q
    · obtain ⟨r, rfl⟩ := hpq
      have hr : r ≠ [] := fun hr => hq (by rw [hr, List.append_nil])
      rw [at?_append, hat, Option.bind_some] at hu
      obtain ⟨z, hmoved, hz⟩ := exists_moved ht hcall (s.current + 1) hu hd hr hcovers
      refine ⟨u, d, ?_, hd, rfl, rfl⟩
      rw [hmoved, at?_append, hswap.at?_right, Option.bind_some, hz]
    · rw [moved_eq_self hpq]
      by_cases hqp : q <+: p
      · obtain ⟨r, rfl⟩ := hqp
        have hr : r ≠ [] := fun hr => hq (by rw [hr, List.append_nil])
        obtain ⟨i, r, rfl⟩ := List.exists_cons_of_ne_nil hr
        obtain ⟨v, u', hqswap, hrswap⟩ := hswap.of_append
        obtain rfl := Option.some.inj (hqswap.at?_left.symm.trans hu)
        obtain ⟨callee, us, trailing, a, f, rfl, -, -, hargs, hc⟩ := call?_eq_some_iff.1 hcall
        rw [hc, put_eq hargs] at hrswap
        obtain ⟨d', hd', hsame⟩ := exists_call?_around hrswap (h.regular.of_at? hu) hd
        exact ⟨u', d', hqswap.at?_right, hd', hsame⟩
      · exact ⟨u, d, (hswap.apart hpq hqp).trans hu, hd, rfl, rfl⟩

set_option maxRecDepth 4000 in
/-- A source with a problem, and a call in the only argument of another one. The outer call gets a code, and
the inner one is found behind it. -/
theorem applyCode_agrees_nested :
    (parse "result.error(result.error())\n)").errors ≠ [] ∧ ∃ t c root' fix,
      at? [0, 0, 0] (parse "result.error(result.error())\n)").tree = some t ∧
      t.call? = some c ∧
      (parse "result.error(result.error())\n)").tree.applyCode [0, 0, 0] t c ⟨6⟩ =
        .ok (root', fix, ⟨7⟩) ∧
      ∃ u d, at? [0, 0, 0, 2, 1, 3] root' = some u ∧ u.call? = some d ∧
        d.shape = .result ∧ d.arguments.paths.length = 0 := by
  have hlex : lex "result.error(result.error())\n)" = Lexeme.sound [⟨.ident, "result"⟩, ⟨.dot, "."⟩,
      ⟨.ident, "error"⟩, ⟨.lParen, "("⟩, ⟨.ident, "result"⟩, ⟨.dot, "."⟩, ⟨.ident, "error"⟩, ⟨.lParen, "("⟩,
      ⟨.rParen, ")"⟩, ⟨.rParen, ")"⟩, ⟨.newline, "\n"⟩, ⟨.rParen, ")"⟩, ⟨.newline, ""⟩] := by cbv
  have herrors := errors_parse_ne_nil_of_lex hlex (by decide +kernel)
  have houter : (at? [0, 0, 0] (parse "result.error(result.error())\n)").tree).bind call? =
      some ⟨.result, 2, .one [2, 1, 0]⟩ := by
    rw [tree_parse_of_lex hlex]
    decide +kernel
  have hinner : (at? [0, 0, 0, 2, 1, 0] (parse "result.error(result.error())\n)").tree).bind
      call? = some ⟨.result, 2, .empty [2, 0]⟩ := by
    rw [tree_parse_of_lex hlex]
    decide +kernel
  obtain ⟨t, hat, hcall⟩ := Option.bind_eq_some_iff.1 houter
  obtain ⟨u, hu, hd⟩ := Option.bind_eq_some_iff.1 hinner
  obtain ⟨root', fix, happly, -, -, -, hothers⟩ :=
    (applyCode_agrees .parsed hat hcall ⟨6⟩).2 (by decide)
  obtain ⟨u', d', hu', hd', hshape, hlength⟩ := hothers _ u _ hu hd (by decide) rfl
  exact ⟨herrors, t, _, root', fix, hat, hcall, happly, u', d', hu', hd', hshape, hlength⟩

end Renumber.Tree
