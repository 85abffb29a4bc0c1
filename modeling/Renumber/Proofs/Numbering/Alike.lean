import Renumber.Proofs.Numbering.Frame

/-!
# Trees that the matcher cannot tell apart

What numbering changes lies below expressions with trailers, and the matcher does not look into those when
it decides about a node further up. `Alike` trees are equal but for what lies below such expressions:
numbering makes alike trees of trees (`Coded.alike`), and of two nodes above alike trees one is a call only
if the other one is, of the same shape and with as many arguments (`exists_call?_of_alike`).
-/

namespace Renumber.Tree

/-- The trees are equal but for what lies below expressions with trailers. -/
inductive Alike : List Tree → List Tree → Prop
  | nil : Alike [] []
  | token {t : Token} {ts us : List Tree} (h : Alike ts us) : Alike (token t :: ts) (token t :: us)
  | node {k : Kind} {cs ds ts us : List Tree} (hcs : k ≠ .powerExpr → Alike cs ds)
      (hts : Alike ts us) : Alike (node k cs :: ts) (node k ds :: us)

namespace Alike

theorem symm {ts us : List Tree} (h : Alike ts us) : Alike us ts := by
  induction h with
  | nil => exact .nil
  | token _ ih => exact .token ih
  | node _ _ ihcs ihts => exact .node ihcs ihts

theorem append {ts us ts' us' : List Tree} (h : Alike ts us) (h' : Alike ts' us') :
    Alike (ts ++ ts') (us ++ us') := by
  induction h with
  | nil => exact h'
  | token _ ih => exact .token ih
  | node hcs _ _ ih => exact .node hcs ih

/-- What is like several trees is like the first and like the second of them. -/
theorem of_append {ts us vs : List Tree} (h : Alike (ts ++ us) vs) :
    ∃ ts' us', vs = ts' ++ us' ∧ Alike ts ts' ∧ Alike us us' := by
  induction ts generalizing vs with
  | nil => exact ⟨[], vs, rfl, .nil, h⟩
  | cons t ts ih =>
    rw [List.cons_append] at h
    cases h with
    | token h =>
      obtain ⟨ts', us', rfl, hts, hus⟩ := ih h
      exact ⟨_ :: ts', us', rfl, .token hts, hus⟩
    | node hcs h =>
      obtain ⟨ts', us', rfl, hts, hus⟩ := ih h
      exact ⟨_ :: ts', us', rfl, .node hcs hts, hus⟩

theorem of_cons {t : Tree} {us vs : List Tree} (h : Alike (t :: us) vs) :
    ∃ t' us', vs = t' :: us' ∧ Alike [t] [t'] ∧ Alike us us' := by
  cases h with
  | token h => exact ⟨_, _, rfl, .token .nil, h⟩
  | node hcs h => exact ⟨_, _, rfl, .node hcs .nil, h⟩

/-- Trees without calls are like themselves only. -/
theorem eq_of_powersOf {ts us : List Tree} (h : Alike ts us) (hts : powersOf ts = 0) : us = ts := by
  induction h with
  | nil => rfl
  | token _ ih =>
    rw [powersOf_cons] at hts
    rw [ih (by omega)]
  | @node k _ _ _ _ _ _ ihcs ihts =>
    rw [powersOf_cons, powers_node] at hts
    have hk : k ≠ .powerExpr := by
      rintro rfl
      rw [if_pos rfl] at hts
      omega
    rw [ihcs hk (by omega), ihts (by omega)]

theorem of_kind {t : Tree} {u : Tree} (h : Alike [t] [u]) : u.kind = t.kind := by
  cases h with
  | token => rfl
  | node => rfl

theorem map_kind_solid {ts us : List Tree} (h : Alike ts us) :
    (solid us).map kind = (solid ts).map kind := by
  induction h with
  | nil => rfl
  | @token t _ _ _ ih =>
    cases ht : t.kind.isTrivia with
    | true => rw [solid_cons_of_trivia (by exact ht), solid_cons_of_trivia (by exact ht), ih]
    | false =>
      rw [solid_cons_of_not_trivia (by exact ht), solid_cons_of_not_trivia (by exact ht),
        List.map_cons, List.map_cons, ih]
  | @node k _ _ _ _ _ _ _ ih =>
    cases hk : k.isTrivia with
    | true => rw [solid_cons_of_trivia (by exact hk), solid_cons_of_trivia (by exact hk), ih]
    | false =>
      rw [solid_cons_of_not_trivia (by exact hk), solid_cons_of_not_trivia (by exact hk),
        List.map_cons, List.map_cons, ih]
      rfl

end Alike

/-- What numbering makes of trees is like them. -/
theorem Coded.alike {s s' : UInt64} {ts ts' : List Tree} {fs : List (UInt64 × FixKind × Shape)}
    (h : Coded s ts ts' fs s') : Alike ts ts' := by
  induction h with
  | nil => exact .nil
  | token _ ih => exact .token ih
  | plain _ _ _ ihcs ihts => exact .node (fun _ => ihcs) ihts
  | call hcall _ _ _ _ ihts => exact .node (fun hk => absurd (kind_of_call? hcall) hk) ihts

/-! ## The matcher -/

section
variable {t u : Tree} {us vs : List Tree}

theorem isPositional_argument (cs : List Tree) :
    (node .argument cs).isPositional = ((solid cs).head?.map kind == some .star) := by
  rw [isPositional, significant_eq, children_node, ← map_snd_solidFrom 0 cs, List.head?_map,
    Option.map_map]
  rfl

theorem isPositional_node {k : Kind} (hk : k ≠ .argument) (cs : List Tree) :
    (node k cs).isPositional = true := by
  unfold isPositional
  split
  · rename_i h; cases h
  · rename_i h
    injection h with h
    exact absurd h hk
  · rfl

/-- What is like a positional argument is one. -/
theorem Positional.of_alike (h : t.Positional) (halike : Alike [t] [u]) : u.Positional := by
  refine ⟨?_, halike.of_kind ▸ h.2⟩
  cases halike with
  | token => exact h.1
  | @node k cs ds _ _ hcs =>
    by_cases hk : k = .argument
    · subst hk
      have hkinds := (hcs (by decide)).map_kind_solid
      have hpos := h.1
      rw [isPositional_argument, ← List.head?_map] at hpos ⊢
      rwa [hkinds]
    · exact isPositional_node hk ds

theorem Alike.of_singleton (h : Alike [t] us) : ∃ u, us = [u] ∧ Alike [t] [u] := by
  obtain ⟨u, us', rfl, hu, hus⟩ := h.of_cons
  cases hus
  exact ⟨u, rfl, hu⟩

/-- What is like a frame that is filled is the frame, filled with the like. -/
theorem Alike.of_fill {F : Frame} (h : Alike (F.fill us) vs) :
    ∃ us', vs = F.fill us' ∧ Alike us us' := by
  obtain ⟨before, list, rfl, hbefore, hlist⟩ := h.of_append
  obtain rfl := hbefore.eq_of_powersOf F.powersOf_before
  cases hlist with
  | node harguments hafter =>
    obtain rfl := hafter.eq_of_powersOf F.powersOf_after
    obtain ⟨front, rest, rfl, hfront, hrest⟩ := (harguments (by decide)).of_append
    obtain rfl := hfront.eq_of_powersOf F.powersOf_front
    obtain ⟨us', back, rfl, hus, hback⟩ := hrest.of_append
    obtain rfl := hback.eq_of_powersOf F.powersOf_back
    exact ⟨us', rfl, hus⟩

/-- What is like the parentheses of a call are parentheses of a call with as many arguments. -/
theorem args_of_alike {a : Arguments} {f : UInt64 → List Tree} (h : Args us a f)
    (hreg : ∀ t ∈ us, t.Regular) (halike : Alike us vs) :
    ∃ b g, Args vs b g ∧ b.paths.length = a.paths.length := by
  cases framed_of_args h hreg with
  | empty F =>
    have hquiet : powersOf (F.before ++ F.after) = 0 := by
      rw [powersOf_append, F.powersOf_before, F.powersOf_after]
    obtain rfl := halike.eq_of_powersOf hquiet
    exact ⟨_, _, h, rfl⟩
  | one F hm =>
    obtain ⟨_, rfl, hfill⟩ := halike.of_fill
    obtain ⟨m', rfl, hm'⟩ := hfill.of_singleton
    exact ⟨_, _, F.args_one (hm.of_alike hm'), rfl⟩
  | two F ho hmid hquiet hm =>
    obtain ⟨_, rfl, hfill⟩ := halike.of_fill
    obtain ⟨o', _, rfl, ho', hrest⟩ := hfill.of_cons
    obtain ⟨mid', _, rfl, hmid', hlast⟩ := hrest.of_append
    obtain rfl := hmid'.eq_of_powersOf hquiet
    obtain ⟨m', rfl, hm'⟩ := hlast.of_singleton
    exact ⟨_, _, F.args_two (ho.of_alike ho') hmid (hm.of_alike hm'), rfl⟩

theorem paths_below (a : Arguments) (i : Nat) : (a.below i).paths = a.paths.map (i :: ·) := by
  cases a <;> rfl

/-- A node above trees like those of a call is a call of the same shape with as many arguments. -/
theorem exists_call?_of_alike {k : Kind} {c : Call} (h : (node k us).call? = some c)
    (hreg : ∀ t ∈ us, t.Regular) (halike : Alike us vs) : ∃ d, (node k vs).call? = some d ∧
      d.shape = c.shape ∧ d.arguments.paths.length = c.arguments.paths.length := by
  obtain ⟨callee, args, trailing, a, f, hnode, hcallee, htrailing, hargs, hc⟩ :=
    call?_eq_some_iff.1 h
  injection hnode with hk hus
  subst hk hus
  obtain ⟨hcalleer, hargsr, htrailingr⟩ := regular_among hreg
  obtain ⟨callee', vs', rfl, hcallee', hvs⟩ := halike.of_append
  obtain rfl := hcallee'.eq_of_powersOf (powersOf_callee hcalleer hcallee)
  cases hvs with
  | node hargs' htrailing' =>
    obtain rfl := htrailing'.eq_of_powersOf (powersOf_eq_zero_of_solid htrailingr htrailing)
    obtain ⟨b, g, hb, hlength⟩ := args_of_alike hargs hargsr (hargs' (by decide))
    refine ⟨⟨c.shape, callee'.length, b.below callee'.length⟩,
      call?_eq_some_iff.2 ⟨_, _, _, b, g, rfl, hcallee, htrailing, hb, rfl⟩, rfl, ?_⟩
    rw [hc, paths_below, paths_below, List.length_map, List.length_map, hlength]

/-- A node above trees like those of a node that is no call is no call. -/
theorem call?_eq_none_of_alike {k : Kind} (h : (node k us).call? = none)
    (hreg : ∀ t ∈ vs, t.Regular) (halike : Alike us vs) : (node k vs).call? = none := by
  rw [Option.eq_none_iff_forall_ne_some]
  intro c hc
  obtain ⟨d, hd, -, -⟩ := exists_call?_of_alike hc hreg halike.symm
  rw [h] at hd
  cases hd

end

end Renumber.Tree
