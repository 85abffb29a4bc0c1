import Renumber.Proofs.Numbering.Quiet

/-!
# Around the arguments

The parentheses of a call, the list of arguments in them, and the trivia around the arguments make a frame
that holds no call and that no code changes (`Frame`). In regular trees a call has its arguments in such
a frame, unless it has none, and a code comes into the frame in front of the last argument
(`framed_of_args`). What happens to a call happens to what fills its frame: the walk (`Frame.coded_fill_iff`)
and the calls below it (`Frame.callsFrom_fill`).
-/

namespace Renumber.Tree

theorem Bracket.exists_append {k : Kind} {ts : List Tree} (h : Bracket k ts) :
    ∃ us t vs, ts = us ++ t :: vs ∧ solid us = [] ∧ t.kind = k ∧ solid vs = [] := by
  obtain ⟨t, ht, hk⟩ := h
  obtain ⟨is, hlen, hfrom⟩ := solidFrom_eq_zip 0 ts
  rw [ht] at hlen hfrom
  match is, hlen with
  | [i], _ =>
    obtain ⟨us, vs, rfl, hus, -, -, hvs⟩ := solidFrom_eq_cons hfrom
    exact ⟨us, t, vs, rfl, hus, hk, solidFrom_eq_nil.1 hvs⟩

/-- Parentheses around a list of arguments, with the trivia before and after the arguments. -/
structure Frame where
  /-- The trees in front of the list of arguments. -/
  before : List Tree
  /-- The trees in the list of arguments, in front of the arguments. -/
  front : List Tree
  /-- The trees in the list of arguments, behind the arguments. -/
  back : List Tree
  /-- The trees behind the list of arguments. -/
  after : List Tree
  opens : Bracket .lParen before
  closes : Bracket .rParen after
  solid_front : solid front = []
  solid_back : solid back = []
  powersOf_before : powersOf before = 0
  powersOf_front : powersOf front = 0
  powersOf_back : powersOf back = 0
  powersOf_after : powersOf after = 0

namespace Frame

variable (F : Frame)

/-- The children of a call trailer that has some trees for arguments. -/
def fill (ts : List Tree) : List Tree :=
  F.before ++ node .argList (F.front ++ (ts ++ F.back)) :: F.after

/-- The path from a call trailer to one of the trees that fill its frame. -/
def path (i : Nat) : List Nat := [F.before.length, F.front.length + i]

theorem at?_fill (k : Kind) {ts : List Tree} {i : Nat} {t : Tree}
    (h : ts[i]? = some t) : at? (F.path i) (node k (F.fill ts)) = some t := by
  obtain ⟨hi, rfl⟩ := List.getElem?_eq_some_iff.1 h
  rw [path, fill, at?_append_cons, at?, children_node, List.getElem?_append_right (by omega),
    Nat.add_sub_cancel_left, List.getElem?_append_left hi, h]
  rfl

theorem at?_fill_first (k : Kind) (t : Tree) (ts : List Tree) :
    at? (F.path 0) (node k (F.fill (t :: ts))) = some t :=
  F.at?_fill k rfl

theorem at?_fill_last (k : Kind) (o m : Tree) (mid : List Tree) :
    at? (F.path (mid.length + 1)) (node k (F.fill (o :: (mid ++ [m])))) = some m :=
  F.at?_fill k (by simp)

/-- The walk goes over what fills a frame. -/
theorem coded_fill_iff {s s' : UInt64} {ts vs : List Tree}
    {fs : List (UInt64 × FixKind × Shape)} : Coded s (F.fill ts) vs fs s' ↔
      ∃ ts', vs = F.fill ts' ∧ Coded s ts ts' fs s' := by
  have hlist := call?_eq_none (k := .argList) (by decide) (F.front ++ (ts ++ F.back))
  simp only [fill, coded_append_iff, coded_quiet_iff F.powersOf_before, coded_plain_iff hlist,
    coded_quiet_iff F.powersOf_front, coded_quiet_iff F.powersOf_back,
    coded_quiet_iff F.powersOf_after]
  constructor
  · rintro ⟨_, _, _, _, _, rfl, rfl, ⟨rfl, rfl, rfl⟩, _, _, _, _, _, rfl, rfl,
      ⟨_, _, _, _, _, rfl, rfl, ⟨rfl, rfl, rfl⟩, ts', _, _, _, _, rfl, rfl, hts, rfl, rfl, rfl⟩,
      rfl, rfl, rfl⟩
    exact ⟨ts', rfl, by simpa using hts⟩
  · rintro ⟨ts', rfl, hts⟩
    exact ⟨_, _, [], fs, s, rfl, rfl, ⟨rfl, rfl, rfl⟩, _, _, fs, [], s', rfl, by simp,
      ⟨_, _, [], fs, s, rfl, rfl, ⟨rfl, rfl, rfl⟩, ts', _, fs, [], s', rfl, by simp, hts, rfl, rfl,
        rfl⟩, rfl, rfl, rfl⟩

/-- The calls in a frame are those of what fills it. -/
theorem callsFrom_fill (p : List Nat) (ts : List Tree) :
    callsFrom p 0 (F.fill ts) = callsFrom (p ++ [F.before.length]) F.front.length ts := by
  rw [fill, callsFrom_inside (by decide) F.powersOf_before F.powersOf_after,
    callsFrom_among F.powersOf_front F.powersOf_back, Nat.zero_add]

/-- The walk goes on into the last argument of a call with a code. -/
theorem coded_message_iff {s s' n : UInt64} {mid vs : List Tree} {m : Tree}
    {fs : List (UInt64 × FixKind × Shape)} (hmid : powersOf mid = 0) :
    Coded s (F.fill (numberLiteral n :: (mid ++ [m]))) vs fs s' ↔
      ∃ ms, vs = F.fill (numberLiteral n :: (mid ++ ms)) ∧ Coded s [m] ms fs s' := by
  simp only [coded_fill_iff, coded_numeral_iff, coded_append_iff, coded_quiet_iff hmid]
  constructor
  · rintro ⟨_, rfl, _, rfl, _, ms, _, _, _, rfl, rfl, ⟨rfl, rfl, rfl⟩, hms⟩
    exact ⟨ms, rfl, hms⟩
  · rintro ⟨ms, rfl, hms⟩
    exact ⟨_, rfl, _, rfl, _, ms, [], fs, s, rfl, rfl, ⟨rfl, rfl, rfl⟩, hms⟩

/-- The calls of two arguments that are left by the call that they are given to are those of the second
one. -/
theorem spared_two {e : Entry} {i : Nat} {q : List Nat} {o m : Tree} {mid : List Tree}
    (hmid : powersOf mid = 0) (he : e.2.2.arguments = .two (i :: F.path 0) q) :
    spared e (kept (callsFrom (e.1 ++ [i]) 0 (F.fill (o :: (mid ++ [m]))))) =
      kept (callsFrom (e.1 ++ [i] ++ [F.before.length]) (F.front.length + 1 + mid.length) [m]) := by
  have hcode : e.1 ++ i :: F.path 0 = e.1 ++ [i] ++ [F.before.length] ++ [F.front.length] := by
    simp [path]
  rw [callsFrom_fill, show o :: (mid ++ [m]) = [o] ++ (mid ++ [m]) from rfl, kept_callsFrom_append,
    spared_append, ← kept_spared, spared_callsFrom_self he hcode, kept_nil, List.nil_append,
    kept_callsFrom_append, callsFrom_eq_nil hmid, kept_nil, List.nil_append, ← kept_spared,
    spared_callsFrom_of_ne he ⟨[], hcode⟩ (by simp only [List.length_singleton]; omega),
    List.length_singleton]

theorem powersOf_fill (ts : List Tree) : powersOf (F.fill ts) = powersOf ts := by
  simp [fill, F.powersOf_before, F.powersOf_front, F.powersOf_back, F.powersOf_after]

theorem sizeOf_lt_fill (ts : List Tree) : sizeOf ts < sizeOf (F.fill ts) :=
  sizeOf_lt_among F.before F.front ts F.back F.after .argList

/-- The last of some trees that fill a frame is smaller than the frame with all of them. -/
theorem sizeOf_last_lt_fill (o : Tree) (mid : List Tree) (m : Tree) :
    sizeOf [m] < sizeOf (F.fill (o :: (mid ++ [m]))) := by
  have hfill := F.sizeOf_lt_fill (o :: (mid ++ [m]))
  have hmids := sizeOf_append mid [m]
  have hpos : 0 < sizeOf mid := by
    cases mid <;> simp only [List.nil.sizeOf_spec, List.cons.sizeOf_spec] <;> omega
  simp only [List.cons.sizeOf_spec] at hfill hmids ⊢
  omega

/-- A frame with one argument is that of a call. -/
theorem args_one {m : Tree} (hm : m.Positional) : Args (F.fill [m]) (.one (F.path 0)) fun n =>
    F.fill (numberLiteral n :: ([comma, blanks " "] ++ [m])) :=
  .one F.opens F.solid_front hm F.solid_back F.closes

/-- A frame with two arguments and a comma between them is that of a call. -/
theorem args_two {o m : Tree} {mid : List Tree} (ho : o.Positional) (hmid : Bracket .comma mid)
    (hm : m.Positional) : Args (F.fill (o :: (mid ++ [m])))
      (.two (F.path 0) (F.path (mid.length + 1))) fun n =>
        F.fill (numberLiteral n :: (mid ++ [m])) := by
  obtain ⟨us, c, vs, rfl, hus, hc, hvs⟩ := hmid.exists_append
  have hpath : Arguments.two (F.path 0) (F.path ((us ++ c :: vs).length + 1)) =
      .two [F.before.length, F.front.length]
        [F.before.length, F.front.length + 1 + us.length + 1 + vs.length] := by
    have hlen : F.front.length + ((us ++ c :: vs).length + 1) =
        F.front.length + 1 + us.length + 1 + vs.length := by
      rw [List.length_append, List.length_cons]
      omega
    rw [path, path, hlen, Nat.add_zero]
  have hargs := Args.two F.opens F.solid_front ho hus hc hvs hm F.solid_back F.closes
  rw [hpath]
  simpa only [fill, List.append_assoc, List.cons_append, List.nil_append] using hargs

end Frame

/-- The parentheses of a call by the frame of its arguments, with what a code makes of them. -/
inductive Framed : List Tree → Arguments → (UInt64 → List Tree) → Prop
  | empty (F : Frame) {p : List Nat} :
      Framed (F.before ++ F.after) (.empty p) fun n => F.fill [numberLiteral n]
  | one (F : Frame) {m : Tree} (hm : m.Positional) (hreg : m.Regular) :
      Framed (F.fill [m]) (.one (F.path 0)) fun n =>
        F.fill (numberLiteral n :: ([comma, blanks " "] ++ [m]))
  | two (F : Frame) {o m : Tree} {mid : List Tree} (ho : o.Positional) (hmid : Bracket .comma mid)
      (hquiet : powersOf mid = 0) (hm : m.Positional) (hreg : m.Regular) :
      Framed (F.fill (o :: (mid ++ [m]))) (.two (F.path 0) (F.path (mid.length + 1))) fun n =>
        F.fill (numberLiteral n :: (mid ++ [m]))

/-- In regular trees, the parentheses of a call make a frame. -/
theorem framed_of_args {us : List Tree} {a : Arguments} {f : UInt64 → List Tree}
    (h : Args us a f) (hreg : ∀ t ∈ us, t.Regular) : Framed us a f := by
  cases h with
  | @empty ws ys l hws hl hys =>
    have hopen : Bracket .lParen (ws ++ [l]) := .of_append hws (by rw [hl]; rfl) solid_nil hl
    have hwsr : ∀ t ∈ ws ++ [l], t.Regular := fun t ht => hreg t (by grind)
    have hysr : ∀ t ∈ ys, t.Regular := fun t ht => hreg t (by simp [ht])
    have := Framed.empty (p := [ws.length]) ⟨ws ++ [l], [], [], ys, hopen, hys, solid_nil,
      solid_nil, powersOf_bracket hwsr hopen rfl, powersOf_nil, powersOf_nil,
      powersOf_bracket hysr hys rfl⟩
    simpa [Frame.fill, numberArgList] using this
  | @one xs ps qs ys m hxs hps hm hqs hys =>
    obtain ⟨hxsr, hlist, hysr⟩ := regular_among hreg
    exact .one ⟨xs, ps, qs, ys, hxs, hys, hps, hqs, powersOf_bracket hxsr hxs rfl,
      powersOf_eq_zero_of_solid (fun t ht => hlist t (by simp [ht])) hps,
      powersOf_eq_zero_of_solid (fun t ht => hlist t (by simp [ht])) hqs,
      powersOf_bracket hysr hys rfl⟩ hm (hlist m (by simp))
  | @two xs ps us vs ws ys o c m hxs hps ho hus hc hvs hm hws hys =>
    obtain ⟨hxsr, hlist, hysr⟩ := regular_among hreg
    have hmid : Bracket .comma (us ++ c :: vs) := .of_append hus (by rw [hc]; rfl) hvs hc
    have hmidr : ∀ t ∈ us ++ c :: vs, t.Regular := fun t ht => hlist t (by grind)
    have := Framed.two ⟨xs, ps, ws, ys, hxs, hys, hps, hws, powersOf_bracket hxsr hxs rfl,
      powersOf_eq_zero_of_solid (fun t ht => hlist t (by simp [ht])) hps,
      powersOf_eq_zero_of_solid (fun t ht => hlist t (by simp [ht])) hws,
      powersOf_bracket hysr hys rfl⟩ ho hmid (powersOf_bracket hmidr hmid rfl) hm
      (hlist m (by simp))
    simpa [Frame.fill, Frame.path, Nat.add_assoc, Nat.add_comm, Nat.add_left_comm] using this

end Renumber.Tree
