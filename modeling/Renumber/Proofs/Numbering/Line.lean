import Renumber.Proofs.Numbering.Overwrite

/-!
# The lines of calls

A fix reports the line that the walk has reached when it comes to the call. The walk counts the line feeds
of what it has made of the text so far, and a code that takes the place of an argument takes the line
feeds in that argument away (`FixKind.lost`). So the line that is reported is the line of the call in the
text that was parsed, less the line feeds that earlier codes took away (`lines_of_fixes`). Behind an
argument of several lines it is too small (`line_behind_argument`).

`Goes` is the walk without the series and the trees that it makes. What it leaves open is which calls
the fixes belong to: `Told` says so.
-/

namespace Renumber

/-- How many line feeds a code took away. -/
def FixKind.lost : FixKind → Nat
  | .inserted => 0
  | .replaced previous => previous.toList.count '\n'

/-- How many line feeds some codes took away. -/
def linesLost (fixes : List Fix) : Nat := (fixes.map fun f => f.kind.lost).sum

theorem linesLost_cons (f : Fix) (fs : List Fix) :
    linesLost (f :: fs) = f.kind.lost + linesLost fs := rfl

theorem linesLost_append (fs gs : List Fix) :
    linesLost (fs ++ gs) = linesLost fs + linesLost gs := by
  simp [linesLost]

namespace Tree

/-! ## Line feeds -/

@[simp] theorem feeds_nil : feeds [] = 0 := rfl

@[simp] theorem feeds_cons (t : Token) (ts : List Token) :
    feeds (t :: ts) = t.text.toList.count '\n' + feeds ts := rfl

@[simp] theorem feeds_append (ts us : List Token) : feeds (ts ++ us) = feeds ts + feeds us := by
  induction ts with
  | nil => simp
  | cons t ts ih => simp [ih, Nat.add_assoc]

theorem count_text (t : Tree) : t.text.toList.count '\n' = feeds t.leaves := by
  rw [text, Token.toList_textOf]
  induction t.leaves with
  | nil => rfl
  | cons u us ih => simp [ih]

/-- There is no line feed in the numeral of a code. -/
@[simp] theorem count_numeral (n : UInt64) : (Token.numeral n).text.toList.count '\n' = 0 := by
  obtain ⟨c, ds, htext, hdigits⟩ := Token.exists_digits n
  refine List.count_eq_zero.2 fun h => ?_
  rw [htext] at h
  exact absurd (hdigits _ h) (by decide)

/-! ## The walk from line to line -/

theorem renumberAll_append (ts us : List Tree) :
    renumberAll (ts ++ us) = (do
      let r ← renumberAll ts
      let q ← renumberAll us
      return (r.1 ++ q.1, r.2 ++ q.2)) := by
  induction ts with
  | nil => simp [renumberAll]
  | cons t ts ih => simp [renumberAll_cons, ih]

/-- The walk over some trees goes from one line to another, and makes some fixes. -/
def Goes (l : Nat) (ts : List Tree) (fixes : List Fix) (l' : Nat) : Prop :=
  ∃ s ts' s', (renumberAll ts).run.run ⟨s, l⟩ = (.ok (ts', fixes), ⟨s', l'⟩)

section
variable {l l' : Nat} {ts us : List Tree} {fixes : List Fix}

theorem Goes.nil (h : Goes l [] fixes l') : fixes = [] ∧ l' = l := by
  obtain ⟨s, ts', s', h⟩ := h
  rw [renumberAll, Numbering.pure_eq_ok_iff] at h
  obtain ⟨hr, hc⟩ := h
  cases hr
  cases hc
  exact ⟨rfl, rfl⟩

theorem Goes.token {t : Token} (h : Goes l [.token t] fixes l') :
    fixes = [] ∧ l' = l + feeds [t] := by
  obtain ⟨s, ts', s', h⟩ := h
  obtain ⟨t', rfl, hrun⟩ := renumberAll_singleton_eq_ok_iff.1 h
  simp only [renumber, Numbering.bind_eq_ok_iff, Numbering.run_pass,
    Numbering.pure_eq_ok_iff] at hrun
  obtain ⟨_, c₁, hpass, hr, hc⟩ := hrun
  cases hpass
  cases hr
  cases hc
  exact ⟨rfl, rfl⟩

theorem Goes.append (h : Goes l (ts ++ us) fixes l') :
    ∃ fs gs l₁, fixes = fs ++ gs ∧ Goes l ts fs l₁ ∧ Goes l₁ us gs l' := by
  obtain ⟨s, vs, s', h⟩ := h
  simp only [renumberAll_append, Numbering.bind_eq_ok_iff, Numbering.pure_eq_ok_iff] at h
  obtain ⟨⟨ts', fs⟩, ⟨s₁, l₁⟩, hts, ⟨us', gs⟩, c, hus, hr, rfl⟩ := h
  cases hr
  exact ⟨fs, gs, l₁, rfl, ⟨s, ts', s₁, hts⟩, s₁, us', s', hus⟩

theorem Goes.plain {k : Kind} {cs : List Tree} (hcall : (node k cs).call? = none)
    (h : Goes l [node k cs] fixes l') : Goes l cs fixes l' := by
  obtain ⟨s, ts', s', h⟩ := h
  obtain ⟨t', rfl, hrun⟩ := renumberAll_singleton_eq_ok_iff.1 h
  simp only [renumber_plain hcall, Numbering.bind_eq_ok_iff, Numbering.pure_eq_ok_iff] at hrun
  obtain ⟨⟨cs', fs⟩, c, hcs, hr, rfl⟩ := hrun
  cases hr
  exact ⟨s, cs', s', hcs⟩

/-- A call is told on the line that is reached, and the walk goes on into what its code makes of it. -/
theorem Goes.call {k : Kind} {cs : List Tree} {c : Call} (hcall : (node k cs).call? = some c)
    (h : Goes l [node k cs] fixes l') : ∃ code fs,
      fixes = ⟨l, code, c.fixKind (node k cs), c.shape⟩ :: fs ∧
        Goes l (c.put code (node k cs)).children fs l' := by
  obtain ⟨s, ts', s', h⟩ := h
  obtain ⟨t', rfl, hrun⟩ := renumberAll_singleton_eq_ok_iff.1 h
  simp only [renumber_call hcall, Numbering.bind_eq_ok_iff, Numbering.pure_eq_ok_iff,
    Numbering.record_eq_ok_iff] at hrun
  obtain ⟨fix, c₁, ⟨-, rfl, rfl⟩, ⟨cs', fs⟩, c₂, hcs, hr, rfl⟩ := hrun
  cases hr
  exact ⟨_, fs, rfl, _, cs', s', hcs⟩

/-- The walk passes over trees without calls. -/
theorem Goes.quiet (hquiet : powersOf ts = 0) (h : Goes l ts fixes l') :
    fixes = [] ∧ l' = l + feeds (leavesOf ts) := by
  induction ts using forest_induction generalizing l l' fixes with
  | nil => simpa using h.nil
  | token t => simpa using h.token
  | append ts us hts hus =>
    rw [powersOf_append] at hquiet
    obtain ⟨fs, gs, l₁, rfl, h₁, h₂⟩ := h.append
    obtain ⟨rfl, rfl⟩ := hts (by omega) h₁
    obtain ⟨rfl, rfl⟩ := hus (by omega) h₂
    simp [Nat.add_assoc]
  | plain k cs hcall ih =>
    rw [powersOf_cons, powers_node] at hquiet
    simpa using ih (by omega) (h.plain hcall)
  | call => simp at hquiet

/-- The walk over what fills the frame of a call. -/
theorem Goes.fill {F : Frame} (h : Goes l (F.fill ts) fixes l') : ∃ l₁,
    Goes (l + feeds (leavesOf (F.before ++ F.front))) ts fixes l₁ ∧
      l' = l₁ + feeds (leavesOf (F.back ++ F.after)) := by
  have hlist := call?_eq_none (k := .argList) (by decide) (F.front ++ (ts ++ F.back))
  rw [Frame.fill, ← List.singleton_append] at h
  obtain ⟨_, _, _, rfl, hbefore, h⟩ := h.append
  obtain ⟨_, _, _, rfl, h, hafter⟩ := h.append
  obtain ⟨_, _, _, rfl, hfront, h⟩ := (h.plain hlist).append
  obtain ⟨fs, _, l₁, rfl, hts, hback⟩ := h.append
  obtain ⟨rfl, rfl⟩ := hbefore.quiet F.powersOf_before
  obtain ⟨rfl, rfl⟩ := hfront.quiet F.powersOf_front
  obtain ⟨rfl, rfl⟩ := hback.quiet F.powersOf_back
  obtain ⟨rfl, rfl⟩ := hafter.quiet F.powersOf_after
  exact ⟨l₁, by simpa [Nat.add_assoc] using hts, by simp [Nat.add_assoc]⟩

end

/-- The walk over the last argument of a call, which comes behind a code. -/
theorem Goes.message {l l' : Nat} {F : Frame} {n : UInt64} {mid : List Tree} {m : Tree}
    {fixes : List Fix} (hmid : powersOf mid = 0)
    (h : Goes l (F.fill (numberLiteral n :: (mid ++ [m]))) fixes l') : ∃ l₁,
      Goes (l + feeds (leavesOf (F.before ++ F.front)) + feeds (leavesOf mid)) [m] fixes l₁ ∧
        l' = l₁ + feeds (leavesOf (F.back ++ F.after)) := by
  obtain ⟨l₁, hfill, rfl⟩ := h.fill
  rw [← List.singleton_append] at hfill
  obtain ⟨_, _, _, rfl, hcode, hrest⟩ := hfill.append
  obtain ⟨_, fs, _, rfl, hquiet, hm⟩ := hrest.append
  obtain ⟨rfl, rfl⟩ := hcode.quiet (by simp [numberLiteral])
  obtain ⟨rfl, rfl⟩ := hquiet.quiet hmid
  refine ⟨l₁, ?_, rfl⟩
  simpa using hm

/-! ## What stands in front of a path -/

/-- Tokens are given for each path, as those before it are for the paths below some children that stand
behind some tokens; the first child has an index. -/
def Preceded (before : List Nat → List Token) (p : List Nat) (i : Nat) (ws : List Token)
    (ts : List Tree) : Prop :=
  ∀ us t vs q, ts = us ++ t :: vs →
    before (p ++ (i + us.length) :: q) = ws ++ leavesOf us ++ leavesBefore q t

theorem preceded_root (k : Kind) (cs : List Tree) :
    Preceded (fun p => leavesBefore p (node k cs)) [] 0 [] cs := by
  rintro us t vs q rfl
  simp only [List.nil_append, Nat.zero_add]
  exact leavesBefore_append_cons k us vs t q

section
variable {before : List Nat → List Token} {p : List Nat} {i : Nat} {ws : List Token}
  {ts us : List Tree}

theorem Preceded.append (h : Preceded before p i ws (ts ++ us)) : Preceded before p i ws ts ∧
    Preceded before p (i + ts.length) (ws ++ leavesOf ts) us := by
  refine ⟨fun vs t xs q hts => h vs t (xs ++ us) q (by rw [hts]; simp), fun vs t xs q hus => ?_⟩
  have := h (ts ++ vs) t xs q (by rw [hus]; simp)
  simpa only [List.length_append, leavesOf_append, List.append_assoc, Nat.add_assoc] using this

theorem Preceded.node {k : Kind} {cs : List Tree} (h : Preceded before p i ws (.node k cs :: ts)) :
    Preceded before (p ++ [i]) 0 ws cs := by
  rintro us t vs q rfl
  have := h [] _ ts (us.length :: q) rfl
  rw [leavesBefore_append_cons] at this
  simpa using this

theorem Preceded.before_eq {t : Tree} (h : Preceded before p i ws (t :: ts)) :
    before (p ++ [i]) = ws := by
  simpa [leavesBefore] using h [] t ts [] rfl

/-- What stands in front of what fills the frame of a call. -/
theorem Preceded.fill {F : Frame} (h : Preceded before p 0 ws (F.fill ts)) :
    Preceded before (p ++ [F.before.length]) F.front.length
      (ws ++ leavesOf (F.before ++ F.front)) ts := by
  have := h.append.2.node.append.2.append.1
  simpa using this

end

/-! ## The fixes of the calls -/

/-- Some fixes are those of some calls, one after another. Each reports the line of its call less the
line feeds that are lost by then; some are before the first. -/
inductive Told (before : List Nat → List Token) : Nat → List Entry → List Fix → Prop
  | nil {d : Nat} : Told before d [] []
  | cons {d : Nat} {m : Entry} {ms : List Entry} {f : Fix} {fs : List Fix}
      (hline : f.line + d = feeds (before m.1) + 1) (hkind : f.kind = m.2.2.fixKind m.2.1)
      (hshape : f.shape = m.2.2.shape) (h : Told before (d + f.kind.lost) ms fs) :
      Told before d (m :: ms) (f :: fs)

theorem Told.append {before : List Nat → List Token} {d : Nat} {ms ns : List Entry}
    {fs gs : List Fix} (h : Told before d ms fs) (h' : Told before (d + linesLost fs) ns gs) :
    Told before d (ms ++ ns) (fs ++ gs) := by
  induction h with
  | nil => exact h'
  | cons hline hkind hshape _ ih =>
    exact .cons hline hkind hshape (ih (by rwa [linesLost_cons, ← Nat.add_assoc] at h'))

theorem Told.length_eq {before : List Nat → List Token} {d : Nat} {ms : List Entry}
    {fs : List Fix} (h : Told before d ms fs) : fs.length = ms.length := by
  induction h with
  | nil => rfl
  | cons _ _ _ _ ih => rw [List.length_cons, List.length_cons, ih]

/-- The fix of one of the calls. -/
theorem Told.fix_of_getElem? {before : List Nat → List Token} {d : Nat} {ms : List Entry}
    {fs : List Fix} (h : Told before d ms fs) {i : Nat} {m : Entry} {f : Fix}
    (hm : ms[i]? = some m) (hf : fs[i]? = some f) :
    f.kind = m.2.2.fixKind m.2.1 ∧ f.shape = m.2.2.shape ∧
      f.line + (d + linesLost (fs.take i)) = feeds (before m.1) + 1 := by
  induction h generalizing i with
  | nil => cases hm
  | cons hline hkind hshape _ ih =>
    cases i with
    | zero =>
      cases hm
      cases hf
      exact ⟨hkind, hshape, hline⟩
    | succ i =>
      obtain ⟨hk, hs, hl⟩ := ih hm hf
      refine ⟨hk, hs, ?_⟩
      rw [List.take_succ_cons, linesLost_cons]
      omega

/-- Some trees stand behind some tokens. Wherever the walk over them starts, if it has lost some line feeds
by then, its fixes are those of some calls, and it ends at the line where the trees end, less the line
feeds that are lost. -/
def Tells (before : List Nat → List Token) (ws : List Token) (ts : List Tree)
    (ms : List Entry) : Prop :=
  ∀ d l fixes l', l + d = feeds ws + 1 → Goes l ts fixes l' →
    Told before d ms fixes ∧ l' + (d + linesLost fixes) = feeds (ws ++ leavesOf ts) + 1

section
variable {before : List Nat → List Token} {p : List Nat} {i : Nat} {ws : List Token}
  {ts us : List Tree}

theorem Tells.quiet (h : powersOf ts = 0) : Tells before ws ts [] := by
  intro d l fixes l' hl hgoes
  obtain ⟨rfl, rfl⟩ := hgoes.quiet h
  refine ⟨.nil, ?_⟩
  rw [feeds_append, linesLost]
  simp only [List.map_nil, List.sum_nil]
  omega

theorem Tells.append {ms ns : List Entry} (h : Tells before ws ts ms)
    (h' : Tells before (ws ++ leavesOf ts) us ns) : Tells before ws (ts ++ us) (ms ++ ns) := by
  intro d l fixes l' hl hgoes
  obtain ⟨fs, gs, l₁, rfl, hts, hus⟩ := hgoes.append
  obtain ⟨htold, hl₁⟩ := h d l fs l₁ hl hts
  obtain ⟨htold', hl'⟩ := h' _ l₁ gs l' hl₁ hus
  refine ⟨htold.append htold', ?_⟩
  rwa [linesLost_append, leavesOf_append, ← List.append_assoc, ← Nat.add_assoc d]

/-- What a code takes away of a call with two arguments. -/
theorem fixKind_two {callee trailing mid : List Tree} {o m : Tree} {F : Frame} (shape : Shape)
    (q : List Nat) :
    Call.fixKind ⟨shape, callee.length, (Arguments.two (F.path 0) q).below callee.length⟩
      (node .powerExpr (callee ++ node .callTrailer (F.fill (o :: (mid ++ [m]))) :: trailing)) =
        .replaced o.text := by
  simp only [Call.fixKind, Arguments.below, Frame.path, Frame.fill, Nat.add_zero]
  rw [at?_append_cons, at?_append_cons, List.cons_append, at?_append_cons]
  rfl

theorem Args.feeds_eq {us : List Tree} {q : List Nat} {f : UInt64 → List Tree}
    (h : Args us (.empty q) f) (n : UInt64) : feeds (leavesOf (f n)) = feeds (leavesOf us) := by
  cases h
  simp [numberArgList]

/-- The calls in the parentheses of a call that gets a code. -/
theorem told_args {callee us trailing : List Tree} {a : Arguments} {f : UInt64 → List Tree}
    {shape : Shape} {m : Entry} {d l l' : Nat} {code : UInt64} {fs : List Fix}
    (hm : m = (p, node .powerExpr (callee ++ node .callTrailer us :: trailing),
      ⟨shape, callee.length, a.below callee.length⟩)) (hargs : Args us a f)
    (hreg : ∀ t ∈ us, t.Regular)
    (ih : ∀ ts, sizeOf ts < sizeOf us → (∀ t ∈ ts, t.Regular) → ∀ p i ws,
      Preceded before p i ws ts → Tells before ws ts (kept (callsFrom p i ts)))
    (hpre : Preceded before (p ++ [callee.length]) 0 ws us) (hl : l + d = feeds ws + 1)
    (h : Goes l (f code) fs l') :
    Told before (d + (m.2.2.fixKind m.2.1).lost)
        (spared m (kept (callsFrom (p ++ [callee.length]) 0 us))) fs ∧
      l' + (d + (m.2.2.fixKind m.2.1).lost + linesLost fs) = feeds (ws ++ leavesOf us) + 1 := by
  cases framed_of_args hargs hreg with
  | empty F =>
    have hquiet : powersOf (F.before ++ F.after) = 0 := by
      simp [F.powersOf_before, F.powersOf_after]
    obtain ⟨rfl, rfl⟩ := h.quiet (by simp [F.powersOf_fill, numberLiteral])
    rw [callsFrom_eq_nil hquiet, kept_nil, hargs.feeds_eq code, feeds_append]
    subst hm
    exact ⟨.nil, by show _ + _ + (d + 0 + 0) = _; omega⟩
  | @one F msg hpos hmr =>
    obtain ⟨l₁, hgoes, rfl⟩ := h.message (by simp [comma, blanks])
    have htells := ih [msg] (F.sizeOf_lt_fill _) (by simpa using hmr) _ _ _ hpre.fill
    obtain ⟨htold, hl₁⟩ := htells d _ fs l₁ (by simp [comma, blanks]; omega) hgoes
    have hlost : (m.2.2.fixKind m.2.1).lost = 0 := by subst hm; rfl
    rw [F.callsFrom_fill, spared_of_not_two (by subst hm; intro q r h; cases h), hlost]
    refine ⟨htold, ?_⟩
    simp only [Frame.fill, leavesOf_append, leavesOf_cons, leavesOf_nil, leaves_node, feeds_append,
      feeds_nil] at hl₁ ⊢
    omega
  | @two F old msg mid hpos hmid hquiet hpos' hmr =>
    obtain ⟨l₁, hgoes, rfl⟩ := h.message hquiet
    rw [show old :: (mid ++ [msg]) = [old] ++ (mid ++ [msg]) from rfl] at hpre
    have htells := ih [msg] (F.sizeOf_last_lt_fill _ _ _) (by simpa using hmr) _ _ _
      hpre.fill.append.2.append.2
    have hlost : (m.2.2.fixKind m.2.1).lost = feeds old.leaves := by
      rw [← count_text]
      subst hm
      rw [fixKind_two]
      rfl
    obtain ⟨htold, hl₁⟩ := htells (d + feeds old.leaves) _ fs l₁ (by simp; omega) hgoes
    have hself : m.1 ++ [callee.length] = p ++ [callee.length] := by subst hm; rfl
    rw [← hself, F.spared_two hquiet (by subst hm; rfl), hself, hlost]
    refine ⟨htold, ?_⟩
    simp only [Frame.fill, leavesOf_append, leavesOf_cons, leavesOf_nil, leaves_node, feeds_append,
      feeds_nil] at hl₁ ⊢
    omega

/-- The fixes of the walk are those of the calls that are kept. -/
theorem tells_kept (hreg : ∀ t ∈ ts, t.Regular) (hpre : Preceded before p i ws ts) :
    Tells before ws ts (kept (callsFrom p i ts)) := by
  induction ts using forest_induction generalizing p i ws with
  | nil =>
    rw [callsFrom_nil, kept_nil]
    exact .quiet (by simp)
  | token t =>
    rw [callsFrom_eq_nil (by simp), kept_nil]
    exact .quiet (by simp)
  | append ts us ihts ihus =>
    rw [kept_callsFrom_append]
    exact (ihts (fun t ht => hreg t (List.mem_append_left _ ht)) hpre.append.1).append
      (ihus (fun t ht => hreg t (List.mem_append_right _ ht)) hpre.append.2)
  | plain k cs hcall ih =>
    intro d l fixes l' hl hgoes
    have hcs : ∀ c ∈ cs, c.Regular := fun c hc => (hreg _ List.mem_cons_self).of_mem hc
    rw [callsFrom_cons, callsAt_plain _ hcall, callsFrom_nil, List.append_nil, leavesOf_cons,
      leaves_node, leavesOf_nil, List.append_nil]
    exact ih hcs hpre.node d l fixes l' hl (hgoes.plain hcall)
  | call shape callee us trailing a f hcallee htrailing hargs _ ihus _ =>
    intro d l fixes l' hl hgoes
    obtain ⟨hcallee0, hus, htrailing0⟩ := quiet_of_call (hreg _ List.mem_cons_self) hcallee htrailing
    have hcall := call?_eq_some_iff.2 ⟨callee, us, trailing, a, f, rfl, hcallee, htrailing, hargs,
      (rfl : (⟨shape, callee.length, a.below callee.length⟩ : Call) = _)⟩
    obtain ⟨code, fs, rfl, hrest⟩ := hgoes.call hcall
    rw [put_eq hargs, children_node, ← List.singleton_append] at hrest
    obtain ⟨_, _, _, rfl, hfront, hrest⟩ := hrest.append
    obtain ⟨fs, _, _, rfl, htrailer, hback⟩ := hrest.append
    obtain ⟨rfl, rfl⟩ := hfront.quiet hcallee0
    obtain ⟨rfl, rfl⟩ := hback.quiet htrailing0
    have htrailer := htrailer.plain (call?_eq_none (by decide) _)
    have hinside := hpre.node.append.2.node
    rw [Nat.zero_add] at hinside
    rw [callsFrom_call hcallee htrailing hargs hcallee0 htrailing0, kept_cons, kept_spared]
    generalize hm : ((p ++ [i], node .powerExpr (callee ++ node .callTrailer us :: trailing),
      ⟨shape, callee.length, a.below callee.length⟩) : Entry) = m
    have hl₁ : l + feeds (leavesOf callee) + d = feeds (ws ++ leavesOf callee) + 1 := by
      rw [feeds_append]
      omega
    obtain ⟨htold, hl'⟩ := told_args hm.symm hargs hus (fun ts h hr p i ws => ihus ts h hr)
      hinside hl₁ htrailer
    have hself : m.1 = p ++ [i] := by rw [← hm]
    have hkind : Call.fixKind ⟨shape, callee.length, a.below callee.length⟩
      (node .powerExpr (callee ++ node .callTrailer us :: trailing)) = m.2.2.fixKind m.2.1 := by
        rw [← hm]
    rw [hkind, List.nil_append, List.append_nil]
    refine ⟨.cons (by rw [hself, hpre.before_eq]; exact hl) rfl (by rw [← hm]) htold, ?_⟩
    rw [linesLost_cons]
    simp only [leavesOf_append, leavesOf_cons, leaves_node, leavesOf_nil, feeds_append] at hl' ⊢
    simp only [feeds_nil]
    omega

end

end Tree

theorem Tree.goes_of_fixText {dedent : Bool} {source : String} {s s' : Series} {o : Outcome}
    (h : fixText dedent source s = (.ok o, s')) :
    ∃ l', Goes 1 [(parse (numberedText dedent source)).tree] o.fixes l' := by
  obtain ⟨-, -, line, hrun⟩ := fixText_eq_ok_iff.1 h
  exact ⟨line, s, _, s', renumberAll_singleton_eq_ok_iff.2 ⟨_, rfl, hrun⟩⟩

/-- The calls that get a code have a fix each, in order. A fix reports the line of its call in the text
that was parsed, less the line feeds in the arguments that the codes before it took the place of. -/
theorem lines_of_fixes {dedent : Bool} {source : String} {s s' : Series} {o : Outcome}
    (h : fixText dedent source s = (.ok o, s')) :
    let root := (parse (numberedText dedent source)).tree
    o.fixes.length = (Tree.kept root.calls).length ∧
      ∀ i p t c f, (Tree.kept root.calls)[i]? = some (p, t, c) → o.fixes[i]? = some f →
        f.kind = c.fixKind t ∧ f.shape = c.shape ∧
          f.line + linesLost (o.fixes.take i) = root.lineOf p := by
  intro root
  obtain ⟨cs, hroot⟩ : ∃ cs, root = .node .module cs := ⟨_, rfl⟩
  have hreg : root.Regular := regular_parse (numberedText dedent source)
  obtain ⟨l', hgoes⟩ := Tree.goes_of_fixText h
  have hpre : Tree.Preceded (fun p => Tree.leavesBefore p root) [] 0 [] cs := by
    rw [hroot]
    exact Tree.preceded_root _ cs
  have htells := Tree.tells_kept (fun c hc => hreg.of_mem (by rw [hroot]; exact hc)) hpre
  rw [show (parse (numberedText dedent source)).tree = root from rfl, hroot] at hgoes
  have hgoes := hgoes.plain (Tree.call?_eq_none (by decide) cs)
  obtain ⟨htold, -⟩ := htells 0 1 o.fixes l' (by simp) hgoes
  rw [← Tree.calls_module, ← hroot] at htold
  refine ⟨htold.length_eq, fun i p t c f hm hf => ?_⟩
  obtain ⟨hkind, hshape, hline⟩ := htold.fix_of_getElem? hm hf
  exact ⟨hkind, hshape, by rwa [Nat.zero_add] at hline⟩

theorem lex_two : lex "result.error(\x22\x22\x22\n\x22\x22\x22, x)\nresult.error(y)\n" = Lexeme.sound
    [⟨.ident, "result"⟩, ⟨.dot, "."⟩, ⟨.ident, "error"⟩, ⟨.lParen, "("⟩,
     ⟨.str, "\x22\x22\x22\n\x22\x22\x22"⟩, ⟨.comma, ","⟩, ⟨.whitespace, " "⟩, ⟨.ident, "x"⟩,
     ⟨.rParen, ")"⟩, ⟨.newline, "\n"⟩, ⟨.ident, "result"⟩, ⟨.dot, "."⟩, ⟨.ident, "error"⟩, ⟨.lParen, "("⟩,
     ⟨.ident, "y"⟩, ⟨.rParen, ")"⟩, ⟨.newline, "\n"⟩] := by
  cbv

theorem lineOf_calls_two :
    let root := (parse "result.error(\x22\x22\x22\n\x22\x22\x22, x)\nresult.error(y)\n").tree
    (Tree.kept root.calls).map (fun m => root.lineOf m.1) = [1, 3] := by
  rw [tree_parse_of_lex lex_two]
  decide +kernel

/-- A first argument of two lines, and a call behind it. -/
theorem lines_of_fixes_two :
    let source := "result.error(\x22\x22\x22\n\x22\x22\x22, x)\nresult.error(y)\n"
    let root := (parse source).tree
    ∃ o s', fixText false source ⟨100⟩ = (.ok o, s') ∧
      o.fixes.length = (Tree.kept root.calls).length ∧
      ∀ i p t c f, (Tree.kept root.calls)[i]? = some (p, t, c) → o.fixes[i]? = some f →
        f.kind = c.fixKind t ∧ f.shape = c.shape ∧
          f.line + linesLost (o.fixes.take i) = root.lineOf p := by
  have herrors := errors_parse_of_lex lex_two (by decide +kernel)
  intro source root
  have hcalls : (Tree.kept root.calls).length = 2 := by
    rw [← List.length_map, show _ = [1, 3] from lineOf_calls_two]
    rfl
  have hroom : 100 + (Tree.kept root.calls).length < 2 ^ 64 := by
    rw [hcalls]
    decide
  obtain ⟨o, s', h⟩ : ∃ o s', fixText false source ⟨100⟩ = (.ok o, s') := exists_fixText herrors hroom
  have hlines := lines_of_fixes h
  exact ⟨o, s', h, hlines⟩

set_option maxRecDepth 4000 in
/-- The second call stands on the third line of the text, and is reported on the second. -/
theorem line_behind_argument :
    let source := "result.error(\x22\x22\x22\n\x22\x22\x22, x)\nresult.error(y)\n"
    let root := (parse source).tree
    (fixText false source ⟨100⟩).1.map (fun o => o.fixes.map Fix.line) = .ok [1, 2] ∧
      (Tree.kept root.calls).map (fun m => root.lineOf m.1) = [1, 3] := by
  have hlines : (fixText false "result.error(\x22\x22\x22\n\x22\x22\x22, x)\nresult.error(y)\n" ⟨100⟩).1.map
      (fun o => o.fixes.map Fix.line) = .ok [1, 2] := by cbv
  exact ⟨hlines, lineOf_calls_two⟩

end Renumber
