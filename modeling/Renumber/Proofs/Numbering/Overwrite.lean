import Renumber.Proofs.Numbering.Alike
import Renumber.Proofs.Numbering.Patch
import Renumber.Proofs.Numbering.Reparse

/-!
# Renumbering overwrites

A second run over a numbered text gives every call a new code in the place of the old one. It finds the same
calls in the same order: a call that has got a code is a call with an argument, or with two if it had one
before (`arity_of_coded`), and what is no call does not become one. So it makes of the numbered trees what
it would have made of the trees themselves (`coded_again`), but for calls without arguments: their
first code becomes an argument that stays. Between the runs the text is printed and parsed, which
changes nothing, so the same holds of texts (`fixText_overwrites`).
-/

namespace Renumber

namespace Tree

/-- How many arguments a call has. -/
def arity (m : Entry) : Nat := m.2.2.arguments.paths.length

section
variable {callee us trailing : List Tree} {a : Arguments} {f : UInt64 → List Tree} {shape : Shape}

theorem arity_below (p : List Nat) (t : Tree) (i : Nat) :
    arity (p, t, ⟨shape, i, a.below i⟩) = a.paths.length := by
  rw [arity, paths_below, List.length_map]

/-- There is no call in a regular call but in its parentheses. -/
theorem quiet_of_call (h : (node .powerExpr (callee ++ node .callTrailer us :: trailing)).Regular)
    (hcallee : Callee shape callee) (htrailing : solid trailing = []) :
    powersOf callee = 0 ∧ (∀ t ∈ us, t.Regular) ∧ powersOf trailing = 0 := by
  obtain ⟨hcalleer, hus, htrailingr⟩ := regular_among fun _ => h.of_mem
  exact ⟨powersOf_callee hcalleer hcallee, hus, powersOf_eq_zero_of_solid htrailingr htrailing⟩

/-- What fills the frame in a regular call is regular. -/
theorem Frame.regular_of_call {F : Frame} {ts : List Tree}
    (h : (node .powerExpr (callee ++ node .callTrailer (F.fill ts) :: trailing)).Regular) :
    ∀ t ∈ ts, t.Regular := by
  obtain ⟨-, hfill, -⟩ := regular_among fun _ => h.of_mem
  obtain ⟨-, hlist, -⟩ := regular_among hfill
  exact fun t ht => hlist t (List.mem_append_right _ (List.mem_append_left _ ht))

/-- A walk into a call with no other call in its callee. -/
theorem coded_call_quiet_iff {s s' : UInt64} {vs : List Tree}
    {fs : List (UInt64 × FixKind × Shape)} (hcallee : Callee shape callee)
    (htrailing : solid trailing = []) (hargs : Args us a f) (hcallee0 : powersOf callee = 0)
    (htrailing0 : powersOf trailing = 0) :
    Coded s [node .powerExpr (callee ++ node .callTrailer us :: trailing)] vs fs s' ↔
      s ≠ Series.last ∧ ∃ us' gs,
        vs = [node .powerExpr (callee ++ node .callTrailer us' :: trailing)] ∧
        fs = (s + 1, Call.fixKind ⟨shape, callee.length, a.below callee.length⟩
          (node .powerExpr (callee ++ node .callTrailer us :: trailing)), shape) :: gs ∧
        Coded (s + 1) (f (s + 1)) us' gs s' := by
  simp only [coded_call_iff hcallee htrailing hargs, coded_quiet_iff hcallee0,
    coded_quiet_iff htrailing0]
  constructor
  · rintro ⟨hs, _, us', _, _, gs, _, _, _, rfl, rfl, ⟨rfl, rfl, rfl⟩, hus, rfl, rfl, rfl⟩
    exact ⟨hs, us', gs, rfl, by simp, hus⟩
  · rintro ⟨hs, us', gs, rfl, rfl, hus⟩
    exact ⟨hs, callee, us', trailing, [], gs, [], s + 1, s', rfl, by simp, ⟨rfl, rfl, rfl⟩, hus,
      rfl, rfl, rfl⟩

/-- A call with no other call in its callee, and the calls in its parentheses. -/
theorem callsFrom_call (hcallee : Callee shape callee) (htrailing : solid trailing = [])
    (hargs : Args us a f) (hcallee0 : powersOf callee = 0) (htrailing0 : powersOf trailing = 0)
    (p : List Nat) (i : Nat) :
    callsFrom p i [node .powerExpr (callee ++ node .callTrailer us :: trailing)] =
      (p ++ [i], node .powerExpr (callee ++ node .callTrailer us :: trailing),
        ⟨shape, callee.length, a.below callee.length⟩) ::
          callsFrom (p ++ [i] ++ [callee.length]) 0 us := by
  have hcall := call?_eq_some_iff.2 ⟨callee, us, trailing, a, f, rfl, hcallee, htrailing, hargs,
    (rfl : (⟨shape, callee.length, a.below callee.length⟩ : Call) = _)⟩
  rw [callsFrom_cons, callsFrom_nil, List.append_nil, callsAt_call _ hcall,
    callsFrom_inside (by decide) hcallee0 htrailing0]

end

/-- The parentheses of a call with arguments: the last of them, in front of which the code comes. All
calls that are left in the parentheses are calls of that argument. -/
theorem Framed.exists_message {us : List Tree} {a : Arguments} {f : UInt64 → List Tree}
    (h : Framed us a f) : (∃ (F : Frame) (p : List Nat), a = .empty p ∧
        f = fun n => F.fill [numberLiteral n]) ∨
      ∃ (F : Frame) (mid : List Tree) (m : Tree), Bracket .comma mid ∧ powersOf mid = 0 ∧
        m.Positional ∧ m.Regular ∧ sizeOf [m] < sizeOf us ∧
        (f = fun n => F.fill (numberLiteral n :: (mid ++ [m]))) ∧ a.paths ≠ [] ∧
        ∀ (p : List Nat) (t : Tree) (shape : Shape) (i : Nat), ∃ q j,
          spared (p, t, ⟨shape, i, a.below i⟩) (kept (callsFrom (p ++ [i]) 0 us)) =
            kept (callsFrom q j [m]) := by
  have hcomma : Bracket .comma [comma, blanks " "] := ⟨comma, rfl, rfl⟩
  cases h with
  | empty F => exact .inl ⟨F, _, rfl, rfl⟩
  | one F hm hreg =>
    refine .inr ⟨F, [comma, blanks " "], _, hcomma, by simp [comma, blanks], hm, hreg,
      F.sizeOf_lt_fill _, rfl, List.cons_ne_nil _ _, fun p t shape i => ?_⟩
    rw [F.callsFrom_fill, spared_of_not_two (by intro q r h; cases h)]
    exact ⟨_, _, rfl⟩
  | @two F o m mid ho hmid hquiet hm hreg =>
    refine .inr ⟨F, _, _, hmid, hquiet, hm, hreg, F.sizeOf_last_lt_fill o mid m, rfl,
      List.cons_ne_nil _ _, fun p t shape i => ?_⟩
    exact ⟨_, _, F.spared_two (e := (p, t, ⟨shape, i, _⟩)) hquiet rfl⟩

theorem positional_numberLiteral (n : UInt64) : (numberLiteral n).Positional := ⟨rfl, rfl⟩

/-- A second walk, over what a first one has made of some trees, ends where it ends on the trees
themselves. If every call that gets a code has an argument, it also makes the same of both. -/
theorem coded_again {ts ts₁ ts₂ : List Tree} {a a' b b' : UInt64}
    {fs gs : List (UInt64 × FixKind × Shape)} (hreg : ∀ t ∈ ts, t.Regular)
    (h₁ : Coded a ts ts₁ fs a') (h₂ : Coded b ts ts₂ gs b') (hreg₁ : ∀ t ∈ ts₁, t.Regular) :
    ∃ ts₃ hs, Coded b ts₁ ts₃ hs b' ∧
      ∀ p i, (∀ m ∈ kept (callsFrom p i ts), arity m ≠ 0) → ts₃ = ts₂ := by
  induction ts using forest_induction generalizing a a' b b' ts₁ ts₂ fs gs with
  | nil =>
    obtain ⟨rfl, rfl, rfl⟩ := coded_nil_iff.1 h₁
    obtain ⟨rfl, rfl, rfl⟩ := coded_nil_iff.1 h₂
    exact ⟨[], [], .nil, fun _ _ _ => rfl⟩
  | token t =>
    have hquiet : powersOf [token t] = 0 := by simp
    obtain ⟨rfl, rfl, rfl⟩ := (coded_quiet_iff hquiet).1 h₁
    obtain ⟨rfl, rfl, rfl⟩ := (coded_quiet_iff hquiet).1 h₂
    exact ⟨_, _, h₂, fun _ _ _ => rfl⟩
  | append ts us ihts ihus =>
    obtain ⟨ts₁, us₁, _, _, _, rfl, rfl, hts₁, hus₁⟩ := coded_append_iff.1 h₁
    obtain ⟨ts₂, us₂, _, _, _, rfl, rfl, hts₂, hus₂⟩ := coded_append_iff.1 h₂
    obtain ⟨ts₃, _, hts₃, htss⟩ := ihts (fun t ht => hreg t (List.mem_append_left _ ht)) hts₁ hts₂
      fun t ht => hreg₁ t (List.mem_append_left _ ht)
    obtain ⟨us₃, _, hus₃, huss⟩ := ihus (fun t ht => hreg t (List.mem_append_right _ ht)) hus₁ hus₂
      fun t ht => hreg₁ t (List.mem_append_right _ ht)
    refine ⟨_, _, hts₃.append hus₃, fun p i hkept => ?_⟩
    rw [kept_callsFrom_append, List.forall_mem_append] at hkept
    rw [htss p i hkept.1, huss p (i + ts.length) hkept.2]
  | plain k cs hcall ih =>
    obtain ⟨cs₁, _, _, _, _, rfl, rfl, hcs₁, hnil₁⟩ := (coded_plain_iff hcall).1 h₁
    obtain ⟨cs₂, _, _, _, _, rfl, rfl, hcs₂, hnil₂⟩ := (coded_plain_iff hcall).1 h₂
    obtain ⟨rfl, rfl, rfl⟩ := coded_nil_iff.1 hnil₁
    obtain ⟨rfl, rfl, rfl⟩ := coded_nil_iff.1 hnil₂
    have hcsr : ∀ c ∈ cs, c.Regular := fun c hc => (hreg _ List.mem_cons_self).of_mem hc
    have hcsr₁ : ∀ c ∈ cs₁, c.Regular := fun c hc => (hreg₁ _ List.mem_cons_self).of_mem hc
    obtain ⟨cs₃, _, hcs₃, hcss⟩ := ih hcsr hcs₁ hcs₂ hcsr₁
    have hcall₁ := call?_eq_none_of_alike hcall hcsr₁ hcs₁.alike
    refine ⟨_, _, .plain hcall₁ hcs₃ .nil, fun p i hkept => ?_⟩
    rw [callsFrom_cons, callsAt_plain _ hcall, callsFrom_nil, List.append_nil] at hkept
    rw [hcss _ _ hkept]
  | call shape callee us trailing c f hcallee htrailing hargs _ ih _ =>
    obtain ⟨hcallee0, husr, htrailing0⟩ := quiet_of_call (hreg _ List.mem_cons_self) hcallee htrailing
    have hwalk {s s' : UInt64} {us us' : List Tree} {c : Arguments} {f : UInt64 → List Tree}
        {gs : List (UInt64 × FixKind × Shape)} (hargs : Args us c f) (hs : s ≠ Series.last)
        (h : Coded (s + 1) (f (s + 1)) us' gs s') :=
      (coded_call_quiet_iff hcallee htrailing hargs hcallee0 htrailing0).2
        ⟨hs, us', gs, rfl, rfl, h⟩
    obtain ⟨-, us₁, _, rfl, rfl, hus₁⟩ :=
      (coded_call_quiet_iff hcallee htrailing hargs hcallee0 htrailing0).1 h₁
    obtain ⟨hb, us₂, _, rfl, rfl, hus₂⟩ :=
      (coded_call_quiet_iff hcallee htrailing hargs hcallee0 htrailing0).1 h₂
    rcases (framed_of_args hargs husr).exists_message with ⟨F, p, rfl, rfl⟩ |
      ⟨F, mid, m, hcomma, hmid, hm, hmr, hsize, rfl, hpaths, hspared⟩
    · have hquiet (n : UInt64) : powersOf (F.fill [numberLiteral n]) = 0 := by
        simp [F.powersOf_fill, numberLiteral]
      obtain ⟨rfl, rfl, rfl⟩ := (coded_quiet_iff (hquiet _)).1 hus₁
      obtain ⟨rfl, rfl, rfl⟩ := (coded_quiet_iff (hquiet _)).1 hus₂
      have hnum := positional_numberLiteral (a + 1)
      refine ⟨_, _, hwalk (F.args_one hnum) hb (coded_self (by
        simp [F.powersOf_fill, numberLiteral, comma, blanks]) _), fun p i hkept => ?_⟩
      rw [callsFrom_call hcallee htrailing hargs hcallee0 htrailing0, kept_cons] at hkept
      exact absurd (arity_below _ _ _) (hkept _ List.mem_cons_self)
    · obtain ⟨_, rfl, hm₁⟩ := (F.coded_message_iff hmid).1 hus₁
      obtain ⟨ms₂, rfl, hm₂⟩ := (F.coded_message_iff hmid).1 hus₂
      obtain ⟨m₁, rfl, halike⟩ := hm₁.alike.of_singleton
      have hmr₁ := F.regular_of_call (hreg₁ _ List.mem_cons_self)
      obtain ⟨ms₃, _, hm₃, hmss⟩ := ih [m] hsize (List.forall_mem_singleton.2 hmr) hm₁ hm₂
        (List.forall_mem_singleton.2 (hmr₁ m₁ (by simp)))
      refine ⟨_, _, hwalk (F.args_two (positional_numberLiteral (a + 1)) hcomma (hm.of_alike halike))
        hb ((F.coded_message_iff hmid).2 ⟨ms₃, rfl, hm₃⟩), fun p i hkept => ?_⟩
      rw [callsFrom_call hcallee htrailing hargs hcallee0 htrailing0, kept_cons, kept_spared]
        at hkept
      obtain ⟨q, j, hmessage⟩ := hspared (p ++ [i])
        (node .powerExpr (callee ++ node .callTrailer us :: trailing)) shape callee.length
      rw [hmessage] at hkept
      rw [hmss q j fun e he => hkept e (List.mem_cons_of_mem _ he)]

/-- Every call that there is after a walk has an argument, and it has two if every call that got a code
had one. -/
theorem arity_of_coded {ts ts' : List Tree} {s s' : UInt64}
    {fs : List (UInt64 × FixKind × Shape)} (hreg : ∀ t ∈ ts, t.Regular)
    (h : Coded s ts ts' fs s') (hreg' : ∀ t ∈ ts', t.Regular) (q : List Nat) (j : Nat) :
    (∀ m ∈ callsFrom q j ts', arity m ≠ 0) ∧
      ∀ p i, (∀ m ∈ kept (callsFrom p i ts), arity m ≠ 0) →
        ∀ m ∈ callsFrom q j ts', arity m = 2 := by
  have hnone {ts : List Tree} (hts : powersOf ts = 0) (q : List Nat) (j : Nat) {P : Entry → Prop} :
      ∀ m ∈ callsFrom q j ts, P m := by
    rw [callsFrom_eq_nil hts]
    exact List.forall_mem_nil _
  induction ts using forest_induction generalizing s s' ts' fs q j with
  | nil =>
    obtain ⟨rfl, rfl, rfl⟩ := coded_nil_iff.1 h
    exact ⟨hnone powersOf_nil q j, fun _ _ _ => hnone powersOf_nil q j⟩
  | token t =>
    have hquiet : powersOf [token t] = 0 := by simp
    obtain ⟨rfl, rfl, rfl⟩ := (coded_quiet_iff hquiet).1 h
    exact ⟨hnone hquiet q j, fun _ _ _ => hnone hquiet q j⟩
  | append ts us ihts ihus =>
    obtain ⟨ts', us', _, _, _, rfl, rfl, hts, hus⟩ := coded_append_iff.1 h
    obtain ⟨hts₁, hts₂⟩ := ihts (fun t ht => hreg t (List.mem_append_left _ ht)) hts
      (fun t ht => hreg' t (List.mem_append_left _ ht)) q j
    obtain ⟨hus₁, hus₂⟩ := ihus (fun t ht => hreg t (List.mem_append_right _ ht)) hus
      (fun t ht => hreg' t (List.mem_append_right _ ht)) q (j + ts'.length)
    simp only [callsFrom_append q, List.forall_mem_append]
    refine ⟨⟨hts₁, hus₁⟩, fun p i hkept => ?_⟩
    rw [kept_callsFrom_append, List.forall_mem_append] at hkept
    exact ⟨hts₂ p i hkept.1, hus₂ p (i + ts.length) hkept.2⟩
  | plain k cs hcall ih =>
    obtain ⟨cs', _, _, _, _, rfl, rfl, hcs, hnil⟩ := (coded_plain_iff hcall).1 h
    obtain ⟨rfl, rfl, rfl⟩ := coded_nil_iff.1 hnil
    have hcsr : ∀ c ∈ cs, c.Regular := fun c hc => (hreg _ List.mem_cons_self).of_mem hc
    have hcsr' : ∀ c ∈ cs', c.Regular := fun c hc => (hreg' _ List.mem_cons_self).of_mem hc
    have hcall' := call?_eq_none_of_alike hcall hcsr' hcs.alike
    rw [callsFrom_cons, callsAt_plain _ hcall', callsFrom_nil, List.append_nil]
    obtain ⟨hone, htwo⟩ := ih hcsr hcs hcsr' (q ++ [j]) 0
    refine ⟨hone, fun p i hkept => ?_⟩
    rw [callsFrom_cons, callsAt_plain _ hcall, callsFrom_nil, List.append_nil] at hkept
    exact htwo _ _ hkept
  | call shape callee us trailing c f hcallee htrailing hargs _ ih _ =>
    obtain ⟨hcallee0, husr, htrailing0⟩ := quiet_of_call (hreg _ List.mem_cons_self) hcallee htrailing
    obtain ⟨-, us', _, rfl, rfl, hus⟩ :=
      (coded_call_quiet_iff hcallee htrailing hargs hcallee0 htrailing0).1 h
    rcases (framed_of_args hargs husr).exists_message with ⟨F, p, rfl, rfl⟩ |
      ⟨F, mid, m, hcomma, hmid, hm, hmr, hsize, rfl, hpaths, hspared⟩
    · have hquiet (n : UInt64) : powersOf (F.fill [numberLiteral n]) = 0 := by
        simp [F.powersOf_fill, numberLiteral]
      obtain ⟨rfl, rfl, rfl⟩ := (coded_quiet_iff (hquiet _)).1 hus
      rw [callsFrom_call hcallee htrailing (F.args_one (positional_numberLiteral _)) hcallee0
        htrailing0, callsFrom_eq_nil (hquiet _)]
      refine ⟨?_, fun p i hkept => ?_⟩
      · rw [List.forall_mem_singleton, arity_below]
        exact Nat.one_ne_zero
      · rw [callsFrom_call hcallee htrailing hargs hcallee0 htrailing0, kept_cons] at hkept
        exact absurd (arity_below _ _ _) (hkept _ List.mem_cons_self)
    · obtain ⟨_, rfl, hm'⟩ := (F.coded_message_iff hmid).1 hus
      obtain ⟨m', rfl, halike⟩ := hm'.alike.of_singleton
      have hmr' := F.regular_of_call (hreg' _ List.mem_cons_self)
      have hnum : powersOf (numberLiteral (s + 1) :: mid) = 0 := by simp [numberLiteral, hmid]
      have hargs' := F.args_two (positional_numberLiteral (s + 1)) hcomma (hm.of_alike halike)
      rw [callsFrom_call hcallee htrailing hargs' hcallee0 htrailing0, F.callsFrom_fill,
        ← List.cons_append, callsFrom_append, callsFrom_eq_nil hnum, List.nil_append]
      obtain ⟨hone, htwo⟩ := ih [m] hsize (List.forall_mem_singleton.2 hmr) hm'
        (List.forall_mem_singleton.2 (hmr' m' (by simp)))
        (q ++ [j] ++ [callee.length] ++ [F.before.length])
        (F.front.length + (numberLiteral (s + 1) :: mid).length)
      simp only [List.forall_mem_cons, arity_below]
      refine ⟨⟨Nat.succ_ne_zero 1, hone⟩, fun p i hkept => ⟨rfl, ?_⟩⟩
      rw [callsFrom_call hcallee htrailing hargs hcallee0 htrailing0, kept_cons, kept_spared]
        at hkept
      obtain ⟨r, k, hmessage⟩ := hspared (p ++ [i])
        (node .powerExpr (callee ++ node .callTrailer us :: trailing)) shape callee.length
      rw [hmessage] at hkept
      exact htwo r k fun e he => hkept e (List.mem_cons_of_mem _ he)

end Tree

/-! ## Texts -/

/-- The series has a code for every call of a text that gets one. -/
def HasRoom (text : String) (s : Series) : Prop :=
  s.current.toNat + (Tree.kept (parse text).tree.calls).length < 2 ^ 64

/-- Numbering a text with one series and then with another one comes to the same as numbering it with the
other one only: all of these runs succeed, and after the first of them every call has two arguments. -/
def Overwrites (text : String) (a b : Series) : Prop :=
  ∃ o₁ o₂ o₃ a' b', fixText false text a = (.ok o₁, a') ∧ fixText false text b = (.ok o₂, b') ∧
    fixText false o₁.output b = (.ok o₃, b') ∧ o₃.output = o₂.output ∧
    ∀ m ∈ (parse o₁.output).tree.calls, Tree.arity m = 2

theorem overwrites_of_arity {text : String} {a b : Series} (herrors : (parse text).errors = [])
    (harity : ∀ m ∈ Tree.kept (parse text).tree.calls, Tree.arity m ≠ 0) (ha : HasRoom text a)
    (hb : HasRoom text b) : Overwrites text a b := by
  obtain ⟨cs, hroot⟩ : ∃ cs, (parse text).tree = .node .module cs := ⟨_, rfl⟩
  obtain ⟨t₁, h₁, -⟩ := exists_walk ha
  obtain ⟨t₂, h₂, -⟩ := exists_walk hb
  have htext : (parse (numberedText false text)).errors = [] := herrors
  obtain ⟨o₁, hfix₁, ht₁, -⟩ := Tree.fixText_of_coded htext h₁
  obtain ⟨o₂, hfix₂, ht₂, -⟩ := Tree.fixText_of_coded htext h₂
  obtain rfl := (List.cons.inj ht₁).1
  obtain rfl := (List.cons.inj ht₂).1
  -- The second run starts from the tree that the first one has printed.
  have hparse : parse o₁.output = ⟨o₁.tree, []⟩ := parse_of_coded herrors h₁
  have hreg := regular_parse text
  have hreg₁ := regular_parse o₁.output
  rw [hparse] at hreg₁
  rw [hroot] at h₁ h₂ hreg harity
  obtain ⟨cs₁, hcs₁, hcoded₁⟩ := Tree.coded_module_iff.1 h₁
  obtain ⟨cs₂, hcs₂, hcoded₂⟩ := Tree.coded_module_iff.1 h₂
  have htree₁ := (List.cons.inj hcs₁).1
  rw [htree₁] at hreg₁ hparse
  rw [Tree.calls_module] at harity
  obtain ⟨cs₃, _, hcoded₃, hsame⟩ := Tree.coded_again (fun _ => hreg.of_mem) hcoded₁ hcoded₂
    fun _ => hreg₁.of_mem
  obtain rfl := hsame [] 0 harity
  have htext₁ : (parse (numberedText false o₁.output)).errors = [] := congrArg Parse.errors hparse
  have htree : (parse (numberedText false o₁.output)).tree = .node .module cs₁ :=
    congrArg Parse.tree hparse
  have h₃ := Tree.coded_module_iff.2 ⟨cs₃, rfl, hcoded₃⟩
  rw [← htree] at h₃
  obtain ⟨o₃, hfix₃, ht₃, -⟩ := Tree.fixText_of_coded htext₁ h₃
  rw [← hroot] at hfix₃
  refine ⟨o₁, o₂, o₃, _, _, hfix₁, hfix₂, hfix₃, ?_, ?_⟩
  · rw [Outcome.output, Outcome.output, (List.cons.inj ht₃).1.symm, (List.cons.inj hcs₂).1]
  · rw [hparse, Tree.calls_module]
    exact (Tree.arity_of_coded (fun _ => hreg.of_mem) hcoded₁ (fun _ => hreg₁.of_mem) [] 0).2 [] 0
      harity

/-- Renumbering overwrites, if every call of a text that gets a code has an argument; and whatever the text
was, it does so from the first numbered text on. -/
theorem fixText_overwrites {source : String} (herrors : (parse source).errors = []) :
    ((∀ m ∈ Tree.kept (parse source).tree.calls, Tree.arity m ≠ 0) →
      ∀ a b, HasRoom source a → HasRoom source b → Overwrites source a b) ∧
    ∀ s t s', fixText false source s = (.ok t, s') →
      ∀ a b, HasRoom t.output a → HasRoom t.output b → Overwrites t.output a b := by
  refine ⟨fun harity a b ha hb => overwrites_of_arity herrors harity ha hb, ?_⟩
  intro s t s' h a b ha hb
  obtain ⟨-, hcoded⟩ := Tree.coded_of_fixText h
  have hparse : parse t.output = ⟨t.tree, []⟩ := parse_of_coded herrors hcoded
  refine overwrites_of_arity (congrArg Parse.errors hparse) ?_ ha hb
  obtain ⟨cs, hroot⟩ : ∃ cs, (parse source).tree = .node .module cs := ⟨_, rfl⟩
  have hreg := regular_parse source
  have hreg' := regular_parse t.output
  rw [hparse] at hreg' ⊢
  rw [show (parse (numberedText false source)).tree = _ from hroot] at hcoded
  obtain ⟨cs', hcs', hcoded'⟩ := Tree.coded_module_iff.1 hcoded
  rw [(List.cons.inj hcs').1] at hreg' ⊢
  rw [hroot] at hreg
  rw [Tree.calls_module]
  intro m hm
  exact (Tree.arity_of_coded (fun _ => hreg.of_mem) hcoded' (fun _ => hreg'.of_mem) [] 0).1 m
    ((Tree.kept_sublist _).subset hm)

set_option maxRecDepth 4000 in
/-- Old codes are overwritten at once; a call without arguments gets its second one in the second run. -/
theorem fixText_overwrites_nested :
    Overwrites "result.error(1, self.logger.error(x))\n" ⟨6⟩ ⟨20⟩ ∧
    ∃ t s', fixText false "result.error()\n" ⟨0⟩ = (.ok t, s') ∧
      t.output = "result.error(1)\n" ∧ Overwrites t.output ⟨6⟩ ⟨20⟩ := by
  constructor
  · have hlex : lex "result.error(1, self.logger.error(x))\n" = Lexeme.sound [⟨.ident, "result"⟩, ⟨.dot, "."⟩,
        ⟨.ident, "error"⟩, ⟨.lParen, "("⟩, ⟨.number, "1"⟩, ⟨.comma, ","⟩, ⟨.whitespace, " "⟩,
        ⟨.ident, "self"⟩, ⟨.dot, "."⟩, ⟨.ident, "logger"⟩, ⟨.dot, "."⟩, ⟨.ident, "error"⟩, ⟨.lParen, "("⟩,
        ⟨.ident, "x"⟩, ⟨.rParen, ")"⟩, ⟨.rParen, ")"⟩, ⟨.newline, "\n"⟩] := by cbv
    have hcalls : (Tree.kept (parse "result.error(1, self.logger.error(x))\n").tree.calls).map
        Tree.arity = [2, 1] := by
      rw [tree_parse_of_lex hlex]
      decide +kernel
    have hroom (s : Series) (hs : s.current.toNat < 2 ^ 64 - 2) :
        HasRoom "result.error(1, self.logger.error(x))\n" s := by
      have hlength := congrArg List.length hcalls
      rw [List.length_map] at hlength
      rw [HasRoom, hlength]
      exact Nat.add_lt_of_lt_sub hs
    have herrors := errors_parse_of_lex hlex (by decide +kernel)
    refine (fixText_overwrites herrors).1 (fun m hm => ?_) ⟨6⟩ ⟨20⟩ (hroom _ (by decide))
      (hroom _ (by decide))
    have harity := List.mem_map_of_mem (f := Tree.arity) hm
    rw [hcalls] at harity
    simp only [List.mem_cons, List.not_mem_nil, or_false] at harity
    omega
  · have hlex₀ : lex "result.error()\n" = Lexeme.sound [⟨.ident, "result"⟩, ⟨.dot, "."⟩, ⟨.ident, "error"⟩,
        ⟨.lParen, "("⟩, ⟨.rParen, ")"⟩, ⟨.newline, "\n"⟩] := by cbv
    have hpatched : Patched 0 [⟨13, "", "1"⟩] "result.error()\n" "result.error(1)\n" :=
      ⟨"result.error(", ")\n", ")\n", by decide, by decide, rfl, rfl⟩
    obtain ⟨t, s', hfix, htext⟩ := exists_output_of_lex false ⟨0⟩ rfl hlex₀ (by decide +kernel)
      (by decide +kernel) (by decide) hpatched
    have hlex : lex "result.error(1)\n" = Lexeme.sound [⟨.ident, "result"⟩, ⟨.dot, "."⟩, ⟨.ident, "error"⟩,
        ⟨.lParen, "("⟩, ⟨.number, "1"⟩, ⟨.rParen, ")"⟩, ⟨.newline, "\n"⟩] := by cbv
    have hlength : (Tree.kept (parse "result.error(1)\n").tree.calls).length = 1 := by
      rw [tree_parse_of_lex hlex]
      decide +kernel
    have hroom (s : Series) (hs : s.current.toNat < 2 ^ 64 - 1) : HasRoom "result.error(1)\n" s := by
      rw [HasRoom, hlength]
      exact Nat.add_lt_of_lt_sub hs
    refine ⟨t, s', hfix, htext, ?_⟩
    rw [← htext] at hroom
    exact (fixText_overwrites (Tree.coded_of_fixText hfix).1).2 _ t s' hfix ⟨6⟩ ⟨20⟩
      (hroom _ (by decide)) (hroom _ (by decide))

end Renumber
