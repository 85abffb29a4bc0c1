import Renumber.Proofs.Grammar.Tidy
import Renumber.Proofs.Numbering.Overwrite

/-!
# Trees that differ in trivia only

The matcher passes over trivia. Of two trees that are equal without their trivia one is an error call only if
the other one is, with the same receiver (`exists_twin`) and with arguments that are equal without their
trivia (`Paired`); so the matcher finds the same in both (`matched_congr`). The trees are those that a text
may be parsed as, or elements of such trees (`Inside`).
-/

namespace Renumber.Tree

/-! ## Orderly trees -/

/-- The tree is one that a text may be parsed as. -/
structure Orderly (t : Tree) : Prop where
  regular : t.Regular
  tidy : t.Tidy

theorem Orderly.of_mem {t c : Tree} (h : t.Orderly) (hc : c ∈ t.children) : c.Orderly := by
  refine ⟨h.regular.of_mem hc, ?_⟩
  cases h.tidy with
  | token => cases hc
  | node _ hcs => exact hcs c hc

/-- The parts of an argument list and of what is around it are orderly if everything is. -/
theorem orderly_among {xs bs ys : List Tree} {k : Kind}
    (h : ∀ t ∈ xs ++ node k bs :: ys, t.Orderly) :
    (∀ t ∈ xs, t.Orderly) ∧ (∀ t ∈ bs, t.Orderly) ∧ ∀ t ∈ ys, t.Orderly :=
  ⟨fun t ht => h t (List.mem_append_left _ ht),
    fun _ ht => (h _ (List.mem_append_right _ List.mem_cons_self)).of_mem ht,
    fun t ht => h t (List.mem_append_right _ (List.mem_cons_of_mem _ ht))⟩

@[simp] theorem kind_bare (t : Tree) : t.bare.kind = t.kind := by
  cases t with
  | token => rw [bare_token]
  | node => rw [bare_node]; rfl

theorem Regular.isTrivia_eq {t : Tree} (h : t.Regular) : t.isTrivia = t.kind.isTrivia := by
  cases h with
  | token => rfl
  | node hk => exact (Kind.isTrivia_of_isNode hk).symm

/-- Without trivia, regular trees are those that are not trivia. -/
theorem bareOf_eq_map_solid {ts : List Tree} (h : ∀ t ∈ ts, t.Regular) :
    bareOf ts = (solid ts).map bare := by
  induction ts with
  | nil => simp
  | cons t ts ih =>
    have hts := ih fun u hu => h u (List.mem_cons_of_mem _ hu)
    have ht := (h t List.mem_cons_self).isTrivia_eq
    cases hk : t.kind.isTrivia with
    | true => rw [bareOf_cons_of_trivia (ht.trans hk), solid_cons_of_trivia hk, hts]
    | false =>
      rw [bareOf_cons_of_not_trivia (ht.trans hk), solid_cons_of_not_trivia hk, hts, List.map_cons]

theorem bareOf_eq_nil_iff {ts : List Tree} (h : ∀ t ∈ ts, t.Regular) :
    bareOf ts = [] ↔ solid ts = [] := by
  rw [bareOf_eq_map_solid h, List.map_eq_nil_iff]

theorem solid_bareOf {ts : List Tree} (h : ∀ t ∈ ts, t.Regular) :
    solid (bareOf ts) = bareOf ts := by
  rw [bareOf_eq_map_solid h, solid, List.filter_eq_self]
  intro t ht
  obtain ⟨u, hu, rfl⟩ := List.mem_map.1 ht
  rw [kind_bare]
  exact (List.mem_filter.1 hu).2

theorem exists_node_of_bare {t : Tree} {k : Kind} {cs : List Tree} (h : t.bare = node k cs) :
    ∃ ds, t = node k ds ∧ bareOf ds = cs := by
  cases t with
  | token => rw [bare_token] at h; cases h
  | node k' ds =>
    rw [bare_node] at h
    injection h with hk hcs
    exact ⟨ds, by rw [hk], hcs⟩

/-- Trees that are some trees and one after them, without trivia. -/
theorem exists_among_of_bareOf {us xs ys : List Tree} {x : Tree} (h : bareOf us = xs ++ x :: ys) :
    ∃ us₁ u us₂, us = us₁ ++ u :: us₂ ∧ bareOf us₁ = xs ∧ u.isTrivia = false ∧ u.bare = x ∧
      bareOf us₂ = ys := by
  induction us generalizing xs with
  | nil => simp at h
  | cons u us ih =>
    cases hu : u.isTrivia with
    | true =>
      rw [bareOf_cons_of_trivia hu] at h
      obtain ⟨us₁, v, us₂, rfl, h₁, hv⟩ := ih h
      exact ⟨u :: us₁, v, us₂, rfl, by rw [bareOf_cons_of_trivia hu, h₁], hv⟩
    | false =>
      rw [bareOf_cons_of_not_trivia hu] at h
      cases xs with
      | nil =>
        obtain ⟨rfl, rfl⟩ := List.cons.inj h
        exact ⟨[], u, us, rfl, bareOf_nil, hu, rfl, rfl⟩
      | cons x' xs =>
        rw [List.cons_append, List.cons.injEq] at h
        obtain ⟨us₁, v, us₂, rfl, h₁, hv⟩ := ih h.2
        exact ⟨u :: us₁, v, us₂, rfl, by rw [bareOf_cons_of_not_trivia hu, h₁, h.1], hv⟩

theorem exists_append_of_bareOf {us xs ys : List Tree} (h : bareOf us = xs ++ ys) :
    ∃ us₁ us₂, us = us₁ ++ us₂ ∧ bareOf us₁ = xs ∧ bareOf us₂ = ys := by
  cases ys with
  | nil => exact ⟨us, [], (List.append_nil us).symm, by simpa using h, bareOf_nil⟩
  | cons y ys =>
    obtain ⟨us₁, u, us₂, rfl, h₁, hu, rfl, rfl⟩ := exists_among_of_bareOf h
    exact ⟨us₁, u :: us₂, rfl, h₁, bareOf_cons_of_not_trivia hu us₂⟩

/-! ## The matcher -/

section
variable {t u : Tree} {ts us vs : List Tree} {s : String} {k : Kind}

theorem isNameOf_bare (h : t.Orderly) : t.bare.isNameOf s = t.isNameOf s := by
  cases t with
  | token => rw [bare_token]
  | node k cs =>
    rw [bare_node]
    by_cases hk : k = .name
    · subst hk
      cases cs with
      | nil => rw [bareOf_nil]
      | cons c cs =>
        cases h.tidy with
        | node hname _ =>
          cases h.regular with
          | node _ hflat _ =>
            obtain ⟨v, rfl⟩ := hflat rfl c List.mem_cons_self
            rw [bareOf_cons_of_not_trivia (hname rfl _ rfl), bare_token]
            simp [isNameOf, firstToken, firstToken?, at?]
    · have hk' : (k == .name) = false := beq_eq_false_iff_ne.2 hk
      simp [isNameOf, hk']

theorem attribute?_bare (h : t.Regular) : t.bare.attribute? = t.attribute? := by
  cases t with
  | token => rw [bare_token]
  | node k cs =>
    rw [bare_node]
    by_cases hk : k = .attrTrailer
    · subst hk
      cases h with
      | node _ hflat hcs =>
        have hsolid : solid (bareOf cs) = solid cs := by
          rw [solid_bareOf hcs, bareOf_eq_map_solid hcs]
          refine (List.map_congr_left fun c hc => ?_).trans (List.map_id _)
          obtain ⟨v, rfl⟩ := hflat rfl c (List.mem_filter.1 hc).1
          exact bare_token v
        unfold attribute?
        dsimp only
        rw [significant_eq, significant_eq, map_snd_solidFrom, map_snd_solidFrom, children_node,
          children_node, hsolid]
    · unfold attribute?
      split
      · rename_i h; injection h with h; exact absurd h hk
      · split
        · rename_i h; injection h with h; exact absurd h hk
        · rfl

theorem isPositional_bare (h : t.Regular) : t.bare.isPositional = t.isPositional := by
  cases t with
  | token => rw [bare_token]
  | node k cs =>
    rw [bare_node]
    by_cases hk : k = .argument
    · subst hk
      have hcs (c : Tree) (hc : c ∈ cs) : c.Regular := h.of_mem hc
      rw [isPositional_argument, isPositional_argument, solid_bareOf hcs, bareOf_eq_map_solid hcs,
        List.head?_map, Option.map_map]
      simp [Function.comp_def]
    · rw [isPositional_node hk, isPositional_node hk]

/-- What is a positional argument but for trivia is one. -/
theorem Positional.of_bare (h : t.Positional) (ht : t.Regular) (hu : u.Regular)
    (hbare : u.bare = t.bare) : u.Positional := by
  refine ⟨?_, ?_⟩
  · rw [← isPositional_bare hu, hbare, isPositional_bare ht]
    exact h.1
  · rw [← kind_bare, hbare, kind_bare]
    exact h.2

theorem Bracket.of_bareOf (h : Bracket k ts) (hts : ∀ t ∈ ts, t.Regular)
    (hus : ∀ t ∈ us, t.Regular) (hbare : bareOf us = bareOf ts) : Bracket k us := by
  obtain ⟨t, ht, hk⟩ := h
  rw [bareOf_eq_map_solid hts, bareOf_eq_map_solid hus, ht, List.map_cons, List.map_nil,
    List.map_eq_singleton_iff] at hbare
  obtain ⟨u, hu, hbare⟩ := hbare
  exact ⟨u, hu, by rw [← kind_bare, hbare, kind_bare, hk]⟩

/-- What is a callee but for trivia is one. -/
theorem Callee.of_bareOf {shape : Shape} (h : Callee shape ts) (hts : ∀ t ∈ ts, t.Orderly)
    (hus : ∀ t ∈ us, t.Orderly) (hbare : bareOf us = bareOf ts) : Callee shape us := by
  have hsolid : (solid us).map bare = (solid ts).map bare := by
    rw [← bareOf_eq_map_solid fun t ht => (hus t ht).regular, hbare,
      bareOf_eq_map_solid fun t ht => (hts t ht).regular]
  have hmem {vs : List Tree} (hvs : ∀ t ∈ vs, t.Orderly) {v : Tree} (hv : v ∈ solid vs) :
      v.Orderly := hvs v (List.mem_filter.1 hv).1
  have hname {r r' : Tree} (hr : r ∈ solid ts) (hr' : r' ∈ solid us) (h : r'.bare = r.bare)
      (s : String) : r'.isNameOf s = r.isNameOf s := by
    rw [← isNameOf_bare (hmem hus hr'), h, isNameOf_bare (hmem hts hr)]
  have hattribute {r r' : Tree} (hr : r ∈ solid ts) (hr' : r' ∈ solid us) (h : r'.bare = r.bare) :
      r'.attribute? = r.attribute? := by
    rw [← attribute?_bare (hmem hus hr').regular, h, attribute?_bare (hmem hts hr).regular]
  cases shape with
  | result =>
    obtain ⟨r, a, hra, hr, ha⟩ := h
    rw [hra] at hsolid
    obtain ⟨r', _, hus', hr', hsolid⟩ := List.map_eq_cons_iff.1 hsolid
    obtain ⟨a', _, rfl, ha', hsolid⟩ := List.map_eq_cons_iff.1 hsolid
    obtain rfl := List.map_eq_nil_iff.1 hsolid
    refine ⟨r', a', hus', ?_, ?_⟩
    · rwa [hname (by simp [hra]) (by simp [hus']) hr']
    · rwa [hattribute (by simp [hra]) (by simp [hus']) ha']
  | logger m =>
    obtain ⟨r, l, a, hra, hr, hl, ha⟩ := h
    rw [hra] at hsolid
    obtain ⟨r', _, hus', hr', hsolid⟩ := List.map_eq_cons_iff.1 hsolid
    obtain ⟨l', _, rfl, hl', hsolid⟩ := List.map_eq_cons_iff.1 hsolid
    obtain ⟨a', _, rfl, ha', hsolid⟩ := List.map_eq_cons_iff.1 hsolid
    obtain rfl := List.map_eq_nil_iff.1 hsolid
    refine ⟨r', l', a', hus', ?_, ?_, ?_⟩
    · rwa [hname (by simp [hra]) (by simp [hus']) hr']
    · rwa [hattribute (by simp [hra]) (by simp [hus']) hl']
    · rwa [hattribute (by simp [hra]) (by simp [hus']) ha']

/-- What are the parentheses of a call but for trivia are parentheses of a call, with as many
arguments, and a code makes the same of them. -/
theorem exists_args {a : Arguments} {f : UInt64 → List Tree} (h : Args us a f)
    (hus : ∀ t ∈ us, t.Regular) (hvs : ∀ t ∈ vs, t.Regular) (hbare : bareOf vs = bareOf us) :
    ∃ b g, Args vs b g ∧ b.paths.length = a.paths.length ∧ ∀ n, bareOf (g n) = bareOf (f n) := by
  have hnil {ts : List Tree} (h : ∀ t ∈ ts, t.Regular) := (bareOf_eq_nil_iff h).2
  have hnil' {ts : List Tree} (h : ∀ t ∈ ts, t.Regular) := (bareOf_eq_nil_iff h).1
  cases h with
  | @empty ws ys l hws hl hys =>
    have hl0 : l.isTrivia = false := by
      rw [(hus l (by simp)).isTrivia_eq, hl]
      rfl
    rw [bareOf_append, bareOf_cons_of_not_trivia hl0] at hbare
    obtain ⟨ws', l', ys', rfl, hws', hl'0, hl', hys'⟩ := exists_among_of_bareOf hbare
    rw [hnil (fun t ht => hus t (by simp [ht])) hws] at hws'
    have hclose : Bracket .rParen ys' :=
      hys.of_bareOf (fun t ht => hus t (by simp [ht])) (fun t ht => hvs t (by simp [ht])) hys'
    refine ⟨_, _, .empty (hnil' (fun t ht => hvs t (by simp [ht])) hws')
      (by rw [← kind_bare, hl', kind_bare, hl]) hclose, rfl, fun n => ?_⟩
    rw [bareOf_append, bareOf_append, bareOf_cons_of_not_trivia hl'0,
      bareOf_cons_of_not_trivia hl0, numberArgList, bareOf_node_cons, bareOf_node_cons, hws', hl',
      hys', hnil (fun t ht => hus t (by simp [ht])) hws]
  | @one xs ps qs ys m hxs hps hm hqs hys =>
    obtain ⟨hxsr, hlist, hysr⟩ := regular_among hus
    have hm0 : m.isTrivia = false := by rw [(hlist m (by simp)).isTrivia_eq, hm.2]
    rw [bareOf_append, bareOf_node_cons, bareOf_append, bareOf_cons_of_not_trivia hm0] at hbare
    obtain ⟨xs', _, ys', rfl, hxs', -, hnode, hys'⟩ := exists_among_of_bareOf hbare
    obtain ⟨ds, rfl, hds⟩ := exists_node_of_bare hnode
    obtain ⟨ps', m', qs', rfl, hps', hm'0, hm', hqs'⟩ := exists_among_of_bareOf hds
    obtain ⟨hxsr', hlist', hysr'⟩ := regular_among hvs
    have hpsr (t : Tree) (ht : t ∈ ps) : t.Regular := hlist t (by simp [ht])
    have hqsr (t : Tree) (ht : t ∈ qs) : t.Regular := hlist t (by simp [ht])
    have hmessage := hm.of_bare (hlist m (by simp)) (hlist' m' (by simp)) hm'
    refine ⟨_, _, .one (hxs.of_bareOf hxsr hxsr' hxs')
      (hnil' (fun t ht => hlist' t (by simp [ht])) (hps'.trans (hnil hpsr hps))) hmessage
      (hnil' (fun t ht => hlist' t (by simp [ht])) (hqs'.trans (hnil hqsr hqs)))
      (hys.of_bareOf hysr hysr' hys'), rfl, fun n => ?_⟩
    have hlists (l : List Tree) : bareOf (ps' ++ (l ++ m' :: qs')) = bareOf (ps ++ (l ++ m :: qs)) := by
      simp only [bareOf_append, bareOf_cons_of_not_trivia hm0, bareOf_cons_of_not_trivia hm'0, hps',
        hm', hqs']
    have := hlists [numberLiteral n, comma, blanks " "]
    simp only [List.cons_append, List.nil_append] at this
    simp only [bareOf_append, bareOf_node_cons, hxs', hys'] at this ⊢
    rw [this]
  | @two xs ps us vs ws ys o c m hxs hps ho hus' hc hvs' hm hws hys =>
    obtain ⟨hxsr, hlist, hysr⟩ := regular_among hus
    have ho0 : o.isTrivia = false := by rw [(hlist o (by simp)).isTrivia_eq, ho.2]
    have hc0 : c.isTrivia = false := by rw [(hlist c (by simp)).isTrivia_eq, hc]; rfl
    have hm0 : m.isTrivia = false := by rw [(hlist m (by simp)).isTrivia_eq, hm.2]
    rw [bareOf_append, bareOf_node_cons, bareOf_append, bareOf_cons_of_not_trivia ho0,
      bareOf_append, bareOf_cons_of_not_trivia hc0, bareOf_append,
      bareOf_cons_of_not_trivia hm0] at hbare
    obtain ⟨xs', _, ys', rfl, hxs', -, hnode, hys'⟩ := exists_among_of_bareOf hbare
    obtain ⟨ds, rfl, hds⟩ := exists_node_of_bare hnode
    obtain ⟨ps', o', _, rfl, hps', ho'0, ho', hds⟩ := exists_among_of_bareOf hds
    obtain ⟨us', c', _, rfl, hus'', hc'0, hc', hds⟩ := exists_among_of_bareOf hds
    obtain ⟨vs', m', ws', rfl, hvs'', hm'0, hm', hws'⟩ := exists_among_of_bareOf hds
    obtain ⟨hxsr', hlist', hysr'⟩ := regular_among hvs
    have hold := ho.of_bare (hlist o (by simp)) (hlist' o' (by simp)) ho'
    have hmessage := hm.of_bare (hlist m (by simp)) (hlist' m' (by simp)) hm'
    refine ⟨_, _, .two (hxs.of_bareOf hxsr hxsr' hxs')
      (hnil' (fun t ht => hlist' t (by simp [ht]))
        (hps'.trans (hnil (fun t ht => hlist t (by simp [ht])) hps))) hold
      (hnil' (fun t ht => hlist' t (by simp [ht]))
        (hus''.trans (hnil (fun t ht => hlist t (by simp [ht])) hus')))
      (by rw [← kind_bare, hc', kind_bare, hc])
      (hnil' (fun t ht => hlist' t (by simp [ht]))
        (hvs''.trans (hnil (fun t ht => hlist t (by simp [ht])) hvs'))) hmessage
      (hnil' (fun t ht => hlist' t (by simp [ht]))
        (hws'.trans (hnil (fun t ht => hlist t (by simp [ht])) hws)))
      (hys.of_bareOf hysr hysr' hys'), rfl, fun n => ?_⟩
    simp only [bareOf_append, bareOf_node_cons, numberLiteral, bareOf_cons_of_not_trivia hc0,
      bareOf_cons_of_not_trivia hc'0, bareOf_cons_of_not_trivia hm0,
      bareOf_cons_of_not_trivia hm'0, hxs', hys', hps', hus'', hvs'', hws', hc', hm']

/-- What is a call but for trivia is one, of the same shape. -/
theorem exists_twin {callee trailing ds : List Tree} {shape : Shape} {a : Arguments}
    {f : UInt64 → List Tree} (hcallee : Callee shape callee) (htrailing : solid trailing = [])
    (hargs : Args us a f) (hcs : ∀ t ∈ callee ++ node .callTrailer us :: trailing, t.Orderly)
    (hds : ∀ t ∈ ds, t.Orderly)
    (hbare : bareOf ds = bareOf (callee ++ node .callTrailer us :: trailing)) :
    ∃ callee' us' trailing' b g, ds = callee' ++ node .callTrailer us' :: trailing' ∧
      Callee shape callee' ∧ solid trailing' = [] ∧ Args us' b g ∧
      b.paths.length = a.paths.length ∧ (∀ n, bareOf (g n) = bareOf (f n)) ∧
      bareOf callee' = bareOf callee ∧ bareOf us' = bareOf us := by
  obtain ⟨hcalleeo, huso, htrailingo⟩ := orderly_among hcs
  rw [bareOf_append, bareOf_node_cons,
    (bareOf_eq_nil_iff fun t ht => (htrailingo t ht).regular).2 htrailing] at hbare
  obtain ⟨callee', _, trailing', rfl, hcallee', -, hnode, htrailing'⟩ := exists_among_of_bareOf hbare
  obtain ⟨us', rfl, hus'⟩ := exists_node_of_bare hnode
  obtain ⟨hcalleeo', huso', htrailingo'⟩ := orderly_among hds
  obtain ⟨b, g, hb, hlength, hcode⟩ := exists_args hargs (fun t ht => (huso t ht).regular)
    (fun t ht => (huso' t ht).regular) hus'
  exact ⟨callee', us', trailing', b, g, rfl, hcallee.of_bareOf hcalleeo hcalleeo' hcallee',
    (bareOf_eq_nil_iff fun t ht => (htrailingo' t ht).regular).1 htrailing', hb, hlength, hcode,
    hcallee', hus'⟩

end

/-! ## Elements of a tree -/

/-- The tree is an element of another one. -/
def Inside (root t : Tree) : Prop := ∃ p, at? p root = some t

theorem Inside.self (t : Tree) : Inside t t := ⟨[], rfl⟩

theorem Inside.at {root t u : Tree} {p : List Nat} (h : Inside root t) (hu : at? p t = some u) :
    Inside root u := by
  obtain ⟨q, hq⟩ := h
  exact ⟨q ++ p, by rw [at?_append, hq, Option.bind_some, hu]⟩

theorem Inside.of_mem {root t c : Tree} (h : Inside root t) (hc : c ∈ t.children) :
    Inside root c := by
  obtain ⟨i, hi, rfl⟩ := List.getElem_of_mem hc
  refine h.at (p := [i]) ?_
  rw [at?, List.getElem?_eq_getElem hi]
  rfl

theorem Inside.orderly {root t : Tree} (h : Inside root t) (hroot : root.Orderly) :
    t.Orderly := by
  obtain ⟨p, hp⟩ := h
  induction p generalizing root with
  | nil => exact Option.some.inj hp ▸ hroot
  | cons i p ih =>
    rw [at?, Option.bind_eq_some_iff] at hp
    obtain ⟨c, hc, hp⟩ := hp
    exact ih (hroot.of_mem (List.mem_of_getElem? hc)) hp

theorem Inside.regular {root t : Tree} (h : Inside root t) (hroot : root.Orderly) :
    t.Regular := (h.orderly hroot).regular

/-! ## Frames -/

/-- What holds of the trees in a frame and goes on to what is below them holds of what fills the
frame. -/
theorem Frame.forall_mem_of_fill {P : Tree → Prop} (hP : ∀ {t c : Tree}, P t → c ∈ t.children → P c)
    {F : Frame} {ts : List Tree} (h : ∀ t ∈ F.fill ts, P t) : ∀ t ∈ ts, P t := by
  have hlist := h _ (List.mem_append_right _ List.mem_cons_self)
  exact fun t ht => hP hlist (List.mem_append_right _ (List.mem_append_left _ ht))

/-- Two frames are equal but for trivia. -/
def Frame.Like (F G : Frame) : Prop :=
  ∀ ts us, bareOf us = bareOf ts → bareOf (G.fill us) = bareOf (F.fill ts)

theorem Frame.bareOf_fill {F : Frame} {ts : List Tree} (h : ∀ t ∈ F.fill ts, t.Regular) :
    ∃ x y, ∀ us, bareOf (F.fill us) = [x, node .argList (bareOf us), y] := by
  obtain ⟨hbefore, hlist, hafter⟩ := regular_among h
  have hfront : bareOf F.front = [] :=
    (bareOf_eq_nil_iff fun t ht => hlist t (List.mem_append_left _ ht)).2 F.solid_front
  have hback : bareOf F.back = [] :=
    (bareOf_eq_nil_iff fun t ht => hlist t (List.mem_append_right _
      (List.mem_append_right _ ht))).2 F.solid_back
  obtain ⟨l, hl, -⟩ := F.opens
  obtain ⟨r, hr, -⟩ := F.closes
  refine ⟨l.bare, r.bare, fun us => ?_⟩
  rw [fill, bareOf_append, bareOf_node_cons, bareOf_append, bareOf_append, hfront, hback,
    bareOf_eq_map_solid hbefore, bareOf_eq_map_solid hafter, hl, hr]
  simp

/-- What is equal but for trivia is in frames that are, and fills them alike. -/
theorem Frame.like_of_fill {F G : Frame} {ts us : List Tree} (hF : ∀ t ∈ F.fill ts, t.Regular)
    (hG : ∀ t ∈ G.fill us, t.Regular) (h : bareOf (G.fill us) = bareOf (F.fill ts)) :
    F.Like G ∧ bareOf us = bareOf ts := by
  obtain ⟨x, y, hxy⟩ := F.bareOf_fill hF
  obtain ⟨x', y', hxy'⟩ := G.bareOf_fill hG
  rw [hxy, hxy'] at h
  simp only [List.cons.injEq, node.injEq, true_and, and_true] at h
  obtain ⟨rfl, hus, rfl⟩ := h
  exact ⟨fun ts us h => by rw [hxy, hxy', h], hus⟩

/-- The parentheses of two calls with arguments that are equal but for trivia, and what a code makes of
both. -/
inductive Paired : List Tree → Arguments → (UInt64 → List Tree) →
    List Tree → Arguments → (UInt64 → List Tree) → Prop
  | empty {us us' : List Tree} {p p' : List Nat} {f f' : UInt64 → List Tree}
      (hf : ∀ n, powersOf (f n) = 0) (hf' : ∀ n, powersOf (f' n) = 0) :
      Paired us (.empty p) f us' (.empty p') f'
  | one {F G : Frame} {m m' : Tree} (hlike : F.Like G) (hm : m'.bare = m.bare) :
      Paired (F.fill [m]) (.one (F.path 0))
        (fun n => F.fill (numberLiteral n :: ([comma, blanks " "] ++ [m])))
        (G.fill [m']) (.one (G.path 0))
        (fun n => G.fill (numberLiteral n :: ([comma, blanks " "] ++ [m'])))
  | two {F G : Frame} {o o' m m' : Tree} {mid mid' : List Tree} (hlike : F.Like G)
      (ho : o'.bare = o.bare) (hmid : bareOf mid' = bareOf mid) (hm : m'.bare = m.bare)
      (hquiet : powersOf mid = 0) (hquiet' : powersOf mid' = 0) :
      Paired (F.fill (o :: (mid ++ [m]))) (.two (F.path 0) (F.path (mid.length + 1)))
        (fun n => F.fill (numberLiteral n :: (mid ++ [m])))
        (G.fill (o' :: (mid' ++ [m']))) (.two (G.path 0) (G.path (mid'.length + 1)))
        (fun n => G.fill (numberLiteral n :: (mid' ++ [m'])))

section
variable {us us' : List Tree} {a b : Arguments} {f g : UInt64 → List Tree}

theorem bareOf_singleton {t : Tree} (h : t.Positional) (ht : t.Regular) : bareOf [t] = [t.bare] := by
  rw [bareOf_cons_of_not_trivia (by rw [ht.isTrivia_eq, h.2]), bareOf_nil]

theorem paired_of_args (hargs : Args us a f) (hargs' : Args us' b g)
    (hus : ∀ t ∈ us, t.Regular) (hus' : ∀ t ∈ us', t.Regular)
    (hlength : b.paths.length = a.paths.length) (hbare : bareOf us' = bareOf us) :
    Paired us a f us' b g := by
  have hnumeral (F : Frame) (n : UInt64) : powersOf (F.fill [numberLiteral n]) = 0 := by
    simp [F.powersOf_fill, numberLiteral]
  have hF := framed_of_args hargs hus
  have hG := framed_of_args hargs' hus'
  cases hF with
  | empty F =>
    cases hG with
    | empty G => exact .empty (hnumeral F) (hnumeral G)
    | one => cases hlength
    | two => cases hlength
  | one F hm hmr =>
    cases hG with
    | empty => cases hlength
    | one G hm' hmr' =>
      obtain ⟨hlike, h⟩ := Frame.like_of_fill hus hus' hbare
      rw [bareOf_singleton hm hmr, bareOf_singleton hm' hmr'] at h
      exact .one hlike (List.cons.inj h).1
    | two => cases hlength
  | @two F o m mid ho hmid hquiet hm hmr =>
    cases hG with
    | empty => cases hlength
    | one => cases hlength
    | @two G o' m' mid' ho' hmid' hquiet' hm' hmr' =>
      obtain ⟨hlike, h⟩ := Frame.like_of_fill hus hus' hbare
      have hts := F.forall_mem_of_fill (fun h hc => h.of_mem hc) hus
      have hts' := G.forall_mem_of_fill (fun h hc => h.of_mem hc) hus'
      have hbracket {ts : List Tree} (h : Bracket .comma ts) (hreg : ∀ t ∈ ts, t.Regular) :
          ∃ c, bareOf ts = [c] := by
        obtain ⟨c, hc, -⟩ := h
        exact ⟨c.bare, by rw [bareOf_eq_map_solid hreg, hc, List.map_singleton]⟩
      obtain ⟨c, hc⟩ := hbracket hmid fun t ht => hts t (by simp [ht])
      obtain ⟨c', hc'⟩ := hbracket hmid' fun t ht => hts' t (by simp [ht])
      have hold := bareOf_singleton ho (hts o List.mem_cons_self)
      have hold' := bareOf_singleton ho' (hts' o' List.mem_cons_self)
      rw [← List.singleton_append, ← List.singleton_append (x := o), bareOf_append, bareOf_append,
        bareOf_append, bareOf_append, hold, hold', hc, hc', bareOf_singleton hm hmr,
        bareOf_singleton hm' hmr'] at h
      simp only [List.cons_append, List.nil_append, List.cons.injEq, and_true] at h
      exact .two hlike h.1 (by rw [hc, hc', h.2.1]) h.2.2 hquiet hquiet'

/-- The arguments are equal but for trivia. -/
theorem Paired.arguments_eq (h : Paired us a f us' b g) (k : Kind) :
    b.paths.map (fun p => (at? p (node k us')).map bare) =
      a.paths.map fun p => (at? p (node k us)).map bare := by
  cases h with
  | empty => rfl
  | one _ hm =>
    simp only [Arguments.paths, List.map_cons, List.map_nil, Frame.at?_fill_first, Option.map_some, hm]
  | two _ ho _ hm =>
    simp only [Arguments.paths, List.map_cons, List.map_nil, Frame.at?_fill_first,
      Frame.at?_fill_last, Option.map_some, ho, hm]

end

/-! ## What the matcher finds -/

/-- What the matcher finds in a tree: the shape of the call and its arguments, without trivia. -/
def matched (t : Tree) : Option (Shape × List (Option Tree)) :=
  t.call?.map fun c => (c.shape, c.arguments.paths.map fun p => (at? p t).map bare)

theorem matched_of_bare {t u : Tree} (ht : t.Orderly) (hu : u.Orderly) (hbare : u.bare = t.bare)
    {c : Call} (hc : t.call? = some c) : u.matched = t.matched := by
  obtain ⟨callee, us, trailing, a, f, rfl, hcallee, htrailing, hargs, hcall⟩ :=
    call?_eq_some_iff.1 hc
  rw [bare_node] at hbare
  obtain ⟨ds, rfl, hds⟩ := exists_node_of_bare hbare
  obtain ⟨callee', us', trailing', b, g, rfl, hcallee', htrailing', hargs', hlength, -, -, hus'⟩ :=
    exists_twin hcallee htrailing hargs (fun _ => ht.of_mem) (fun _ => hu.of_mem) hds
  obtain ⟨-, huso, -⟩ := orderly_among fun _ => ht.of_mem
  obtain ⟨-, huso', -⟩ := orderly_among fun _ => hu.of_mem
  have hpair := paired_of_args hargs hargs' (fun t ht => (huso t ht).regular)
    (fun t ht => (huso' t ht).regular) hlength hus'
  have hc' : (node .powerExpr (callee' ++ node .callTrailer us' :: trailing')).call? =
      some ⟨c.shape, callee'.length, b.below callee'.length⟩ :=
    call?_eq_some_iff.2 ⟨_, _, _, b, g, rfl, hcallee', htrailing', hargs', rfl⟩
  rw [matched, matched, hc', hc, hcall, Option.map_some, Option.map_some]
  simp only [paths_below, List.map_map, Function.comp_def, at?_append_cons]
  rw [hpair.arguments_eq]

/-- The matcher finds the same in trees that are equal but for trivia. -/
theorem matched_congr {t u : Tree} (ht : t.Orderly) (hu : u.Orderly) (hbare : u.bare = t.bare) :
    u.matched = t.matched := by
  cases hc : t.call? with
  | some c => exact matched_of_bare ht hu hbare hc
  | none =>
    cases hc' : u.call? with
    | some c => exact (matched_of_bare hu ht hbare.symm hc').symm
    | none => rw [matched, matched, hc, hc', Option.map_none, Option.map_none]

end Renumber.Tree
