import Renumber.Proofs.Lossless
import Renumber.Proofs.Numbering.Frame
import Renumber.Proofs.Sound

/-!
# Numbering as a patch

The walk edits the tree that it goes over, and goes on into what it has put in. Seen from outside, it
patches the text: `Patched` says that one text comes from another by edits at given places, with
everything between them kept. The edits are those of the calls of the unchanged tree that are kept
(`kept`), in order, each with the next code (`Tree.patches_kept`).
-/

namespace Renumber

/-- Some bytes of a text and the text to put in their place. -/
structure Edit where
  start : Nat
  old : String
  new : String
deriving DecidableEq, Repr

/-- A text that starts at a byte offset, and what edits make of it: no two of them overlap, each comes
after the ones before it, each finds the bytes that it replaces, and all other bytes stay. -/
def Patched : Nat → List Edit → String → String → Prop
  | _, [], text, out => out = text
  | o, e :: es, text, out => ∃ gap rest out', text = gap ++ e.old ++ rest ∧
      out = gap ++ e.new ++ out' ∧ e.start = o + gap.utf8ByteSize ∧
      Patched (e.start + e.old.utf8ByteSize) es rest out'

/-- Text in front of the edits stays. -/
theorem Patched.gap {o : Nat} {es : List Edit} {text out : String} (gap : String)
    (h : Patched (o + gap.utf8ByteSize) es text out) : Patched o es (gap ++ text) (gap ++ out) := by
  cases es with
  | nil => exact congrArg (gap ++ ·) h
  | cons e es =>
    obtain ⟨gap', rest, out', rfl, rfl, hstart, h⟩ := h
    refine ⟨gap ++ gap', rest, out', ?_, ?_, ?_, h⟩
    · simp only [String.append_assoc]
    · simp only [String.append_assoc]
    · rw [hstart, String.utf8ByteSize_append, Nat.add_assoc]

/-- Edits of two texts one after another. -/
theorem Patched.append {o : Nat} {es fs : List Edit} {text out text' out' : String}
    (h : Patched o es text out) (h' : Patched (o + text.utf8ByteSize) fs text' out') :
    Patched o (es ++ fs) (text ++ text') (out ++ out') := by
  induction es generalizing o text out with
  | nil =>
    obtain rfl : out = text := h
    exact h'.gap out
  | cons e es ih =>
    obtain ⟨gap, rest, end', rfl, rfl, hstart, h⟩ := h
    refine ⟨gap, rest ++ text', end' ++ out', ?_, ?_, hstart, ih h ?_⟩
    · simp only [String.append_assoc]
    · simp only [String.append_assoc]
    · rw [hstart]
      simpa only [String.utf8ByteSize_append, Nat.add_assoc] using h'

theorem Patched.append_right {o : Nat} {es : List Edit} {text out : String}
    (h : Patched o es text out) (post : String) : Patched o es (text ++ post) (out ++ post) := by
  have hpost : Patched (o + text.utf8ByteSize) [] post post := rfl
  simpa using h.append hpost

/-- A text is cut in one way at a byte offset. -/
theorem append_inj_of_size {a b c d : String} (h : a ++ b = c ++ d)
    (hsize : a.utf8ByteSize = c.utf8ByteSize) : a = c ∧ b = d := by
  have hlist := congrArg String.toList h
  rw [String.toList_append, String.toList_append] at hlist
  rw [← String.utf8Len_toList, ← String.utf8Len_toList] at hsize
  rcases List.append_eq_append_iff.1 hlist with ⟨cs, hc, hb⟩ | ⟨cs, ha, hd⟩
  · rw [hc, String.utf8Len_append] at hsize
    obtain rfl : cs = [] := String.utf8Len_eq_zero.1 (by omega)
    exact ⟨String.toList_injective (by simpa using hc.symm), String.toList_injective hb⟩
  · rw [ha, String.utf8Len_append] at hsize
    obtain rfl : cs = [] := String.utf8Len_eq_zero.1 (by omega)
    exact ⟨String.toList_injective (by simpa using ha), String.toList_injective hd.symm⟩

/-- There is one text that edits make of a text. -/
theorem Patched.unique {o : Nat} {es : List Edit} {text out out' : String} (h : Patched o es text out)
    (h' : Patched o es text out') : out = out' := by
  induction es generalizing o text out out' with
  | nil => exact (show out = text from h).trans (show out' = text from h').symm
  | cons e es ih =>
    obtain ⟨gap, rest, end₁, rfl, rfl, hstart, h⟩ := h
    obtain ⟨gap', rest', end₂, htext, rfl, hstart', h'⟩ := h'
    rw [String.append_assoc, String.append_assoc] at htext
    obtain ⟨rfl, hbehind⟩ := append_inj_of_size htext (by omega)
    obtain rfl := (String.append_right_inj _).1 hbehind
    rw [ih h h']

namespace Tree

/-- The text of some trees. -/
def textsOf (ts : List Tree) : String := Token.textOf (leavesOf ts)

@[simp] theorem textsOf_nil : textsOf [] = "" := by simp [textsOf]

@[simp] theorem textsOf_append (ts us : List Tree) :
    textsOf (ts ++ us) = textsOf ts ++ textsOf us := by
  simp [textsOf]

@[simp] theorem textsOf_cons (t : Tree) (ts : List Tree) :
    textsOf (t :: ts) = t.text ++ textsOf ts := by
  simp [textsOf, text]

@[simp] theorem text_node (k : Kind) (cs : List Tree) : (node k cs).text = textsOf cs := by
  simp [textsOf, text]

theorem text_numberLiteral (n : UInt64) : (numberLiteral n).text = toString n.toNat := by
  simp [numberLiteral, text]

@[simp] theorem text_comma : comma.text = "," := by
  simp [comma, text]

@[simp] theorem text_blanks (s : String) : (blanks s).text = s := by
  simp [blanks, text]

theorem size_eq (t : Tree) : t.size = t.text.utf8ByteSize := by
  rw [size, text, Token.utf8ByteSize_textOf]

/-! ## Offsets -/

/-- An offset is given for each path, as it is for the paths below some children that start at a byte
offset; the first child has an index. -/
def Placed (off : List Nat → Nat) (p : List Nat) (i o : Nat) (ts : List Tree) : Prop :=
  ∀ us t vs q, ts = us ++ t :: vs →
    off (p ++ (i + us.length) :: q) = o + (textsOf us).utf8ByteSize + offsetOf q t

theorem offsetOf_append_cons (k : Kind) (us vs : List Tree) (t : Tree) (q : List Nat) :
    offsetOf (us.length :: q) (node k (us ++ t :: vs)) =
      (textsOf us).utf8ByteSize + offsetOf q t := by
  simp [offsetOf, leavesBefore, textsOf, Token.utf8ByteSize_textOf]

theorem placed_root (k : Kind) (cs : List Tree) :
    Placed (fun p => offsetOf p (node k cs)) [] 0 0 cs := by
  rintro us t vs q rfl
  simp only [List.nil_append, Nat.zero_add]
  exact offsetOf_append_cons k us vs t q

theorem Placed.append {off : List Nat → Nat} {p : List Nat} {i o : Nat} {ts us : List Tree}
    (h : Placed off p i o (ts ++ us)) : Placed off p i o ts ∧
      Placed off p (i + ts.length) (o + (textsOf ts).utf8ByteSize) us := by
  refine ⟨fun vs t ws q hts => h vs t (ws ++ us) q (by rw [hts]; simp), fun vs t ws q hus => ?_⟩
  have := h (ts ++ vs) t ws q (by rw [hus]; simp)
  simpa only [List.length_append, textsOf_append, String.utf8ByteSize_append, Nat.add_assoc]
    using this

theorem Placed.node {off : List Nat → Nat} {p : List Nat} {i o : Nat} {k : Kind}
    {cs ts : List Tree} (h : Placed off p i o (.node k cs :: ts)) :
    Placed off (p ++ [i]) 0 o cs := by
  rintro us t vs q rfl
  have := h [] _ ts (us.length :: q) rfl
  rw [offsetOf_append_cons] at this
  simpa [Nat.add_assoc] using this

/-- What is placed in a node that is itself placed after others. -/
theorem Placed.inside {off : List Nat → Nat} {p : List Nat} {o : Nat} {k : Kind}
    {us cs vs : List Tree} (h : Placed off p 0 o (us ++ .node k cs :: vs)) :
    Placed off (p ++ [us.length]) 0 (o + (textsOf us).utf8ByteSize) cs := by
  have := h.append.2.node
  rwa [Nat.zero_add] at this

theorem Placed.off_eq {off : List Nat → Nat} {p : List Nat} {o : Nat} {us vs : List Tree}
    {t : Tree} (h : Placed off p 0 o (us ++ t :: vs)) :
    off (p ++ [us.length]) = o + (textsOf us).utf8ByteSize := by
  have := h us t vs [] rfl
  simpa [offsetOf, leavesBefore, Token.sizeOf] using this

/-! ## The edits of the calls that are kept -/

/-- What a code does to the text of a call: it takes the place of the first argument of two, stands with
a comma in front of the only argument, or stands behind the opening parenthesis. -/
def editOf (off : List Nat → Nat) : Entry × Nat → Edit
  | ((p, t, c), code) =>
    match c.arguments with
    | .empty q => ⟨off (p ++ q) + ((t.at? q).map size).getD 0, "", toString code⟩
    | .one q => ⟨off (p ++ q), "", toString code ++ ", "⟩
    | .two q _ => ⟨off (p ++ q), ((t.at? q).map text).getD "", toString code⟩

/-- What numbering tells about a call that gets a code. -/
def factsOf : Entry × Nat → UInt64 × FixKind × Shape
  | ((_, t, c), code) => (.ofNat code, c.fixKind t, c.shape)

/-- The walk gives some trees, at a byte offset, the codes after a number for some calls, and patches
their text as these codes ask for. -/
def Patches (off : List Nat → Nat) (o n : Nat) (ms : List Entry) (ts : List Tree) : Prop :=
  n + ms.length < 2 ^ 64 → ∃ ts',
    Coded (.ofNat n) ts ts' ((ms.zipIdx (n + 1)).map factsOf) (.ofNat (n + ms.length)) ∧
      Patched o ((ms.zipIdx (n + 1)).map (editOf off)) (textsOf ts) (textsOf ts')

theorem patches_of_powersOf {ts : List Tree} (h : powersOf ts = 0) (off : List Nat → Nat)
    (o n : Nat) : Patches off o n [] ts :=
  fun _ => ⟨ts, coded_self h _, rfl⟩

theorem Patches.append {off : List Nat → Nat} {o n : Nat} {ms ns : List Entry}
    {ts us : List Tree} (h : Patches off o n ms ts)
    (h' : Patches off (o + (textsOf ts).utf8ByteSize) (n + ms.length) ns us) :
    Patches off o n (ms ++ ns) (ts ++ us) := by
  intro hroom
  rw [List.length_append] at hroom
  obtain ⟨ts', hts, hpatch⟩ := h (by omega)
  obtain ⟨us', hus, hpatch'⟩ := h' (by omega)
  refine ⟨ts' ++ us', ?_, ?_⟩
  · rw [List.zipIdx_append, List.map_append, List.length_append, ← Nat.add_assoc,
      Nat.add_right_comm n 1]
    exact hts.append hus
  · rw [List.zipIdx_append, List.map_append, textsOf_append, textsOf_append,
      Nat.add_right_comm n 1]
    exact hpatch.append hpatch'

/-! ## Calls -/

theorem ofNat_succ (n : Nat) : UInt64.ofNat n + 1 = UInt64.ofNat (n + 1) := by
  rw [UInt64.ofNat_add]; rfl

theorem toNat_ofNat_of_lt {n : Nat} (h : n < 2 ^ 64) : (UInt64.ofNat n).toNat = n :=
  UInt64.toNat_ofNat_of_lt' h

/-- The text of a filled frame is that of what fills it, between two texts. -/
theorem Frame.textsOf_fill (F : Frame) (ts : List Tree) : textsOf (F.fill ts) =
    textsOf F.before ++ textsOf F.front ++ (textsOf ts ++ (textsOf F.back ++ textsOf F.after)) := by
  simp [Frame.fill, String.append_assoc]

section
variable {off : List Nat → Nat} {p : List Nat} {o n : Nat} {shape : Shape}
  {callee us trailing : List Tree} {m : Entry} {F : Frame}

/-- Where what fills a frame is placed. -/
theorem Placed.fill {ts : List Tree} (h : Placed off p 0 o (F.fill ts)) :
    Placed off (p ++ [F.before.length]) F.front.length
      (o + (textsOf F.before ++ textsOf F.front).utf8ByteSize) ts := by
  have := h.inside.append.2.append.1
  rwa [Nat.zero_add, Nat.add_assoc, ← String.utf8ByteSize_append] at this

/-- Where the first argument of a call is placed. -/
theorem Placed.off_fill {t : Tree} {ts : List Tree}
    (h : Placed off (p ++ [callee.length]) 0 o (F.fill (t :: ts))) :
    off (p ++ callee.length :: F.path 0) =
      o + (textsOf F.before ++ textsOf F.front).utf8ByteSize := by
  have := h.fill [] t ts [] rfl
  simpa [Frame.path, offsetOf, leavesBefore, Token.sizeOf] using this

/-- The edit of a call without arguments. -/
theorem editOf_empty {ws ys : List Tree} {l : Tree}
    (hm : m = (p, node .powerExpr (callee ++ node .callTrailer us :: trailing),
      ⟨shape, callee.length, (Arguments.empty [ws.length]).below callee.length⟩))
    (hus : us = ws ++ l :: ys) (h : Placed off (p ++ [callee.length]) 0 o us) :
    editOf off (m, n) = ⟨o + (textsOf ws ++ l.text).utf8ByteSize, "", toString n⟩ := by
  subst hm hus
  have hoff := h.off_eq
  simp only [List.append_assoc, List.cons_append, List.nil_append] at hoff
  simp only [editOf, Arguments.below]
  rw [at?_append_cons, at?_append_cons, at?, hoff]
  simp [size_eq, String.utf8ByteSize_append, Nat.add_assoc]

/-- The edit of a call with one argument. -/
theorem editOf_one {t : Tree}
    (hm : m = (p, node .powerExpr (callee ++ node .callTrailer (F.fill [t]) :: trailing),
      ⟨shape, callee.length, (Arguments.one (F.path 0)).below callee.length⟩))
    (h : Placed off (p ++ [callee.length]) 0 o (F.fill [t])) : editOf off (m, n) =
      ⟨o + (textsOf F.before ++ textsOf F.front).utf8ByteSize, "", toString n ++ ", "⟩ := by
  subst hm
  simp only [editOf, Arguments.below, h.off_fill]

/-- The edit of a call with two arguments. -/
theorem editOf_two {t : Tree} {ts : List Tree} {q : List Nat}
    (hm : m = (p, node .powerExpr (callee ++ node .callTrailer (F.fill (t :: ts)) :: trailing),
      ⟨shape, callee.length, (Arguments.two (F.path 0) q).below callee.length⟩))
    (h : Placed off (p ++ [callee.length]) 0 o (F.fill (t :: ts))) : editOf off (m, n) =
      ⟨o + (textsOf F.before ++ textsOf F.front).utf8ByteSize, t.text, toString n⟩ := by
  subst hm
  simp only [editOf, Arguments.below, h.off_fill]
  rw [at?_append_cons, F.at?_fill_first]
  rfl

end

theorem args_empty {us : List Tree} {q : List Nat} {f : UInt64 → List Tree}
    (h : Args us (.empty q) f) : ∃ ws l ys, us = ws ++ l :: ys ∧ q = [ws.length] ∧
      f = fun n => ws ++ l :: numberArgList n :: ys := by
  cases h with
  | empty => exact ⟨_, _, _, rfl, rfl, rfl⟩

/-- The edit of a call and those of the calls in its arguments, as patches of the text between its
parentheses. -/
theorem exists_patch_args {off : List Nat → Nat} {p : List Nat} {o n : Nat} {shape : Shape}
    {callee us trailing : List Tree} {a : Arguments} {f : UInt64 → List Tree} {m : Entry}
    {ms : List Entry} (hm : m = (p, node .powerExpr (callee ++ node .callTrailer us :: trailing),
      ⟨shape, callee.length, a.below callee.length⟩)) (hargs : Args us a f)
    (hreg : ∀ t ∈ us, t.Regular) (hplaced : Placed off (p ++ [callee.length]) 0 o us)
    (ih : ∀ ts, sizeOf ts < sizeOf us → (∀ t ∈ ts, t.Regular) → ∀ p i o n, Placed off p i o ts →
      Patches off o n (kept (callsFrom p i ts)) ts)
    (hms : ms = spared m (kept (callsFrom (p ++ [callee.length]) 0 us)))
    (hroom : n + ms.length < 2 ^ 64) :
    ∃ us', Coded (.ofNat n) (f (.ofNat n)) us' ((ms.zipIdx (n + 1)).map factsOf)
        (.ofNat (n + ms.length)) ∧
      Patched o (editOf off (m, n) :: (ms.zipIdx (n + 1)).map (editOf off))
        (textsOf us) (textsOf us') := by
  have hn : (UInt64.ofNat n).toNat = n := toNat_ofNat_of_lt (by omega)
  cases framed_of_args hargs hreg with
  | empty F =>
    have hquiet : powersOf (F.before ++ F.after) = 0 := by
      simp [F.powersOf_before, F.powersOf_after]
    rw [callsFrom_eq_nil hquiet, kept_nil] at hms
    obtain rfl : ms = [] := hms
    refine ⟨_, coded_self (by simp [F.powersOf_fill, numberLiteral]) _, ?_⟩
    obtain ⟨ws, l, ys, hus, rfl, hf⟩ := args_empty hargs
    rw [hf, hus, editOf_empty hm hus hplaced]
    refine ⟨textsOf ws ++ l.text, textsOf ys, textsOf ys, ?_, ?_, rfl, rfl⟩
    · simp [String.append_assoc]
    · simp [numberArgList, text_numberLiteral, hn, String.append_assoc]
  | @one F msg hpos hmr =>
    rw [F.callsFrom_fill, spared_of_not_two (by subst hm; intro q r h; cases h)] at hms
    obtain ⟨ts', hcoded, hpatch⟩ := ih [msg] (F.sizeOf_lt_fill _) (by simpa using hmr) _ _ _ n
      hplaced.fill (hms ▸ hroom)
    rw [← hms] at hcoded hpatch
    refine ⟨_, (F.coded_message_iff (by simp [comma, blanks])).2 ⟨ts', rfl, hcoded⟩, ?_⟩
    have hbehind := hpatch.append_right (textsOf F.back ++ textsOf F.after)
    rw [editOf_one hm hplaced, F.textsOf_fill, F.textsOf_fill]
    refine ⟨textsOf F.before ++ textsOf F.front, _, _, ?_, ?_, rfl, by simpa using hbehind⟩
    · simp
    · have hsep : ", " = "," ++ " " := rfl
      simp only [textsOf_append, textsOf_cons, textsOf_nil, text_numberLiteral, hn, text_comma,
        text_blanks, String.append_empty, String.append_assoc, hsep]
  | @two F old msg mid hpos hmid hquiet hpos' hmr =>
    have hself : m.1 ++ [callee.length] = p ++ [callee.length] := by subst hm; rfl
    rw [← hself, F.spared_two hquiet (by subst hm; rfl), hself] at hms
    have hedit := editOf_two (n := n) hm hplaced
    rw [show old :: (mid ++ [msg]) = [old] ++ (mid ++ [msg]) from rfl] at hplaced
    have hlast := hplaced.fill.append.2.append.2
    rw [List.length_singleton] at hlast
    obtain ⟨ts', hcoded, hpatch⟩ := ih [msg] (F.sizeOf_last_lt_fill _ _ _) (by simpa using hmr) _ _ _ n
      hlast (hms ▸ hroom)
    rw [← hms] at hcoded hpatch
    refine ⟨_, (F.coded_message_iff hquiet).2 ⟨ts', rfl, hcoded⟩, ?_⟩
    have hbehind := hpatch.append_right (textsOf F.back ++ textsOf F.after)
    rw [hedit, F.textsOf_fill, F.textsOf_fill]
    refine ⟨textsOf F.before ++ textsOf F.front, _, _, ?_, ?_, rfl,
      .gap (textsOf mid) (by simpa using hbehind)⟩
    · simp [String.append_assoc]
    · simp [text_numberLiteral, hn, String.append_assoc]

theorem ofNat_ne_last {n : Nat} (h : n + 1 < 2 ^ 64) : UInt64.ofNat n ≠ Series.last := by
  intro heq
  have := congrArg UInt64.toNat heq
  rw [toNat_ofNat_of_lt (by omega), show Series.last.toNat = 2 ^ 64 - 1 from rfl] at this
  omega

/-- The walk gives codes to the calls that are kept and patches the text with them. -/
theorem patches_kept {off : List Nat → Nat} {ts : List Tree} (hreg : ∀ t ∈ ts, t.Regular)
    (p : List Nat) (i o n : Nat) (hplaced : Placed off p i o ts) :
    Patches off o n (kept (callsFrom p i ts)) ts := by
  revert p i o n
  induction ts using forest_induction with
  | nil =>
    intro p i o n _
    rw [callsFrom_nil, kept_nil]
    exact patches_of_powersOf (by simp) off o n
  | token t =>
    intro p i o n _
    rw [callsFrom_eq_nil (by simp), kept_nil]
    exact patches_of_powersOf (by simp) off o n
  | append ts us ihts ihus =>
    intro p i o n hplaced
    rw [kept_callsFrom_append]
    exact (ihts (fun t ht => hreg t (List.mem_append_left _ ht)) _ _ _ _ hplaced.append.1).append
      (ihus (fun t ht => hreg t (List.mem_append_right _ ht)) _ _ _ _ hplaced.append.2)
  | plain k cs hcall ih =>
    intro p i o n hplaced hroom
    rw [callsFrom_cons, callsAt_plain _ hcall, callsFrom_nil, List.append_nil] at hroom ⊢
    have hcs : ∀ c ∈ cs, c.Regular := fun c hc => (hreg _ List.mem_cons_self).of_mem hc
    obtain ⟨cs', hcoded, hpatch⟩ := ih hcs _ _ _ n hplaced.node hroom
    refine ⟨[node k cs'], ?_, by simpa using hpatch⟩
    rw [← List.append_nil (List.map factsOf _)]
    exact .plain hcall hcoded .nil
  | call shape callee us trailing a f hcallee htrailing hargs _ ihus _ =>
    intro p i o n hplaced hroom
    have hcs : ∀ c ∈ callee ++ node .callTrailer us :: trailing, c.Regular :=
      fun c hc => (hreg _ List.mem_cons_self).of_mem hc
    obtain ⟨hcalleer, hus, htrailingr⟩ := regular_among hcs
    have hcallee0 := powersOf_callee hcalleer hcallee
    have htrailing0 := powersOf_eq_zero_of_solid htrailingr htrailing
    have hcall := call?_eq_some_iff.2 ⟨callee, us, trailing, a, f, rfl, hcallee, htrailing, hargs,
      (rfl : (⟨shape, callee.length, a.below callee.length⟩ : Call) = _)⟩
    rw [callsFrom_cons, callsFrom_nil, List.append_nil, kept_callsAt_call _ hcall,
      callsFrom_inside (by decide) hcallee0 htrailing0] at hroom ⊢
    generalize hm : (p ++ [i], node .powerExpr (callee ++ node .callTrailer us :: trailing),
      (⟨shape, callee.length, a.below callee.length⟩ : Call)) = m at hroom ⊢
    generalize hms : spared m (kept (callsFrom (p ++ [i] ++ [callee.length]) 0 us)) = ms at hroom ⊢
    rw [List.length_cons] at hroom
    obtain ⟨us', hcoded, hpatch⟩ := exists_patch_args (n := n + 1) hm.symm hargs hus
      hplaced.node.inside ihus hms.symm (by omega)
    have hfacts : factsOf (m, n + 1) = (UInt64.ofNat n + 1,
        Call.fixKind ⟨shape, callee.length, a.below callee.length⟩
          (node .powerExpr (callee ++ node .callTrailer us :: trailing)), shape) := by
      rw [← hm, ofNat_succ]
      rfl
    refine ⟨[node .powerExpr (callee ++ node .callTrailer us' :: trailing)], ?_, ?_⟩
    · refine (coded_call_iff hcallee htrailing hargs).2 ⟨ofNat_ne_last (by omega), callee, us',
        trailing, [], (ms.zipIdx (n + 1 + 1)).map factsOf, [], _, _, rfl, ?_,
        coded_self hcallee0 _, ?_, coded_self htrailing0 _⟩
      · rw [List.zipIdx_cons, List.map_cons, hfacts, List.nil_append, List.append_nil]
      · rw [ofNat_succ, List.length_cons, Nat.add_comm ms.length, ← Nat.add_assoc]
        exact hcoded
    · have := (hpatch.append_right (textsOf trailing)).gap (textsOf callee)
      simpa [List.zipIdx_cons] using this

end Tree

/-! ## Texts -/

/-- A series that has a code for every call that is kept takes a walk over the tree of a text to its end,
and the walk patches the text. -/
theorem exists_walk {text : String} {s : Series}
    (hroom : s.current.toNat + (Tree.kept (parse text).tree.calls).length < 2 ^ 64) :
    let root := (parse text).tree
    let numbered := (Tree.kept root.calls).zipIdx (s.current.toNat + 1)
    ∃ t, Tree.Coded s.current [root] [t] (numbered.map Tree.factsOf)
        (.ofNat (s.current.toNat + (Tree.kept root.calls).length)) ∧
      Patched 0 (numbered.map (Tree.editOf fun p => root.offsetOf p)) text t.text := by
  intro root numbered
  obtain ⟨cs, hroot⟩ : ∃ cs, root = .node .module cs := ⟨_, rfl⟩
  have hreg : root.Regular := regular_parse text
  have hcalls : root.calls = Tree.callsFrom [] 0 cs := by rw [hroot, Tree.calls_module]
  have hplaced : Tree.Placed (fun p => root.offsetOf p) [] 0 0 cs := by
    rw [hroot]
    exact Tree.placed_root _ cs
  obtain ⟨cs', hcoded, hpatch⟩ := Tree.patches_kept
    (fun c hc => hreg.of_mem (by rw [hroot]; exact hc)) [] 0 0 s.current.toNat hplaced
    (by rw [← hcalls]; exact hroom)
  rw [← hcalls] at hcoded hpatch
  rw [UInt64.ofNat_toNat] at hcoded
  have hwalk := Tree.coded_module_iff.2 ⟨cs', rfl, hcoded⟩
  rw [← hroot] at hwalk
  have htext : Tree.textsOf cs = text := by
    rw [← Tree.text_node .module, ← hroot]
    exact text_parse text
  rw [htext, ← Tree.text_node .module] at hpatch
  exact ⟨_, hwalk, hpatch⟩

/-- A text without problems is numbered if there is a code for every call that is kept. -/
theorem exists_fixText {dedent : Bool} {source : String} {s : Series}
    (herrors : (parse (numberedText dedent source)).errors = [])
    (hroom : s.current.toNat +
      (Tree.kept (parse (numberedText dedent source)).tree.calls).length < 2 ^ 64) :
    ∃ o s', fixText dedent source s = (.ok o, s') := by
  obtain ⟨t, hwalk, -⟩ := exists_walk hroom
  obtain ⟨o, hfix, -⟩ := Tree.fixText_of_coded herrors hwalk
  exact ⟨o, _, hfix⟩

/-- The numbered text is the one that the edits of the calls make of the text. -/
theorem exists_output_of_lex (dedent : Bool) (s : Series) {source text out : String} {ts : List Token}
    {es : List Edit} (htext : numberedText dedent source = text) (hlex : lex text = Lexeme.sound ts)
    (hfaults : (Grammar.readFile ts).faults = [])
    (hedits : ((Tree.kept (treeOf ts).calls).zipIdx (s.current.toNat + 1)).map
      (Tree.editOf fun p => (treeOf ts).offsetOf p) = es)
    (hroom : s.current.toNat + es.length < 2 ^ 64) (hpatched : Patched 0 es text out) :
    ∃ o s', fixText dedent source s = (.ok o, s') ∧ o.output = out := by
  subst htext
  have htree := tree_parse_of_lex hlex
  rw [← hedits, List.length_map, List.length_zipIdx, ← htree] at hroom
  rw [← hedits, ← htree] at hpatched
  obtain ⟨t, hwalk, hpatch⟩ := exists_walk hroom
  obtain ⟨o, hfix, hroot, -⟩ := Tree.fixText_of_coded (errors_parse_of_lex hlex hfaults) hwalk
  obtain rfl := (List.cons.inj hroot).1
  exact ⟨o, _, hfix, hpatch.unique hpatched⟩

/-- Numbering a text without problems gives the next codes, one after another, to the calls of its tree
that are kept, and patches the text by the edits of these codes; the series then stands at the last of
them. -/
theorem fixText_patches (dedent : Bool) (source : String) (s : Series)
    (herrors : (parse (numberedText dedent source)).errors = [])
    (hroom : s.current.toNat +
      (Tree.kept (parse (numberedText dedent source)).tree.calls).length < 2 ^ 64) :
    let text := numberedText dedent source
    let root := (parse text).tree
    let numbered := (Tree.kept root.calls).zipIdx (s.current.toNat + 1)
    ∃ o s', fixText dedent source s = (.ok o, s') ∧
      s'.current.toNat = s.current.toNat + (Tree.kept root.calls).length ∧
      o.fixes.map Fix.facts = numbered.map Tree.factsOf ∧
      Patched 0 (numbered.map (Tree.editOf fun p => root.offsetOf p)) text o.output := by
  intro text root numbered
  obtain ⟨t, hwalk, hpatch⟩ := exists_walk hroom
  obtain ⟨o, hfix, htree, hfacts⟩ := Tree.fixText_of_coded herrors hwalk
  obtain rfl := (List.cons.inj htree).1
  exact ⟨o, _, hfix, Tree.toNat_ofNat_of_lt hroom, hfacts, hpatch⟩

set_option maxRecDepth 4000 in
/-- A call in the first argument of another one gets no code, a call in the second one does. -/
theorem fixText_patches_nested :
    let source := "result.error(result.error(), self.logger.error(x))\n"
    let root := (parse source).tree
    let numbered := (Tree.kept root.calls).zipIdx 7
    (Tree.kept root.calls).length = 2 ∧
    ∃ o s', fixText false source ⟨6⟩ = (.ok o, s') ∧ s'.current.toNat = 8 ∧
      o.fixes.map Fix.facts = numbered.map Tree.factsOf ∧
      Patched 0 (numbered.map (Tree.editOf fun p => root.offsetOf p)) source o.output := by
  have hlex : lex "result.error(result.error(), self.logger.error(x))\n" = Lexeme.sound
      [⟨.ident, "result"⟩, ⟨.dot, "."⟩, ⟨.ident, "error"⟩, ⟨.lParen, "("⟩, ⟨.ident, "result"⟩, ⟨.dot, "."⟩,
       ⟨.ident, "error"⟩, ⟨.lParen, "("⟩, ⟨.rParen, ")"⟩, ⟨.comma, ","⟩, ⟨.whitespace, " "⟩,
       ⟨.ident, "self"⟩, ⟨.dot, "."⟩, ⟨.ident, "logger"⟩, ⟨.dot, "."⟩, ⟨.ident, "error"⟩, ⟨.lParen, "("⟩,
       ⟨.ident, "x"⟩, ⟨.rParen, ")"⟩, ⟨.rParen, ")"⟩, ⟨.newline, "\n"⟩] := by cbv
  have herrors := errors_parse_of_lex hlex (by decide +kernel)
  have hcalls : (Tree.kept (parse "result.error(result.error(), self.logger.error(x))\n").tree.calls).length =
      2 := by
    rw [tree_parse_of_lex hlex]
    decide +kernel
  intro source root numbered
  refine ⟨hcalls, ?_⟩
  obtain ⟨o, s', hfix, hs, h⟩ := fixText_patches false source ⟨6⟩ herrors (by
    show 6 + (Tree.kept root.calls).length < _
    rw [hcalls]; decide)
  refine ⟨o, s', hfix, ?_, h⟩
  rw [hs]
  show 6 + (Tree.kept root.calls).length = 8
  rw [hcalls]

end Renumber
