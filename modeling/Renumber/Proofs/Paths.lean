import Renumber.Proofs.Disk.Over
import Renumber.Source

/-!
# Paths put together and taken apart

A path is an anchor and segments (`Path.parts`). What is joined to a path comes behind its segments, and
its components behind the components of the path (`Path.components_join`); fill at the seam goes away.
Taking off what a path starts with gives the rest (`Path.stripBase?_of_parts`), and giving a path another
file name changes its last component and leaves its directory (`Path.EndsIn.parent?_withFileName`,
`Path.EndsIn.components_withFileName`).
-/

namespace Renumber

namespace Path

/-- A text that can be the name of a file or of a directory. -/
structure IsName (s : String) : Prop where
  not_fill : isFill s = false
  not_up : s ≠ ".."
  no_slash : '/' ∉ s.toList

instance : DecidablePred IsName := fun s =>
  decidable_of_iff (isFill s = false ∧ s ≠ ".." ∧ '/' ∉ s.toList)
    ⟨fun ⟨hfill, hup, hslash⟩ => ⟨hfill, hup, hslash⟩,
      fun h => ⟨h.not_fill, h.not_up, h.no_slash⟩⟩

theorem IsName.ne_empty {s : String} (h : IsName s) : s ≠ "" := by
  rintro rfl
  exact absurd h.not_fill (by decide)

theorem IsName.ne_dot {s : String} (h : IsName s) : s ≠ "." := by
  rintro rfl
  exact absurd h.not_fill (by decide)

/-! ## Components of segments -/

theorem componentsOf_append (ss ts : List String) :
    componentsOf (ss ++ ts) = componentsOf ss ++ componentsOf ts := by
  rw [componentsOf, List.filter_append, List.map_append]
  rfl

theorem componentsOf_fill {ws : List String} (h : ∀ w ∈ ws, isFill w = true) :
    componentsOf ws = [] := by
  rw [componentsOf, List.filter_eq_nil_iff.2 fun w hw => by simp [h w hw]]
  rfl

theorem componentsOf_names {ns : List String} (h : ∀ n ∈ ns, IsName n) :
    componentsOf ns = ns.map .name := by
  rw [componentsOf, List.filter_eq_self.2 fun n hn => by simp [(h n hn).not_fill]]
  refine List.map_congr_left fun n hn => ?_
  rw [componentOf, if_neg (by simpa using (h n hn).not_up)]

theorem componentsOf_cons_of_isFill {s : String} (h : isFill s = true) (ss : List String) :
    componentsOf (s :: ss) = componentsOf ss := by
  rw [componentsOf, List.filter_cons_of_neg (by simp [h])]
  rfl

theorem componentsOf_cons {s : String} (h : isFill s = false) (ss : List String) :
    componentsOf (s :: ss) = componentOf s :: componentsOf ss := by
  rw [componentsOf, List.filter_cons_of_pos (by simp [h])]
  rfl

theorem trimRight_fill {ws : List String} (h : ∀ w ∈ ws, isFill w = true) (ss : List String) :
    trimRight (ss ++ ws) = trimRight ss := by
  rw [trimRight, List.reverse_append,
    List.dropWhile_append_of_pos fun w hw => h w (List.mem_reverse.1 hw)]
  rfl

theorem trimRight_trimRight (ss : List String) : trimRight (trimRight ss) = trimRight ss := by
  obtain ⟨fills, hss, hfills⟩ := trimRight_append ss
  conv_rhs => rw [hss]
  rw [trimRight_fill hfills]

theorem componentsOf_trimRight (ss : List String) : componentsOf (trimRight ss) = componentsOf ss := by
  obtain ⟨fills, hss, hfills⟩ := trimRight_append ss
  conv_rhs => rw [hss]
  rw [componentsOf_append, componentsOf_fill hfills, List.append_nil]

theorem trimRight_names {ns : List String} (h : ∀ n ∈ ns, IsName n) : trimRight ns = ns := by
  rcases List.eq_nil_or_concat ns with rfl | ⟨ms, n, rfl⟩
  · rfl
  · rw [List.concat_eq_append] at h ⊢
    exact trimRight_concat (h n (by simp)).not_fill ms

/-! ## Anchor and segments -/

theorem segments_ne_nil (p : Path) : p.segments ≠ [] := by
  obtain ⟨before, last, hs, -⟩ := p.exists_segments_backup
  rw [hs]
  simp

theorem text_eq_empty_of_segments {p : Path} (h : p.segments = [""]) : p.text = "" := by
  cases hcs : p.text.toList with
  | nil => exact String.toList_eq_nil_iff.1 hcs
  | cons c cs =>
    obtain ⟨before, last, hcut, -⟩ := exists_cut_append cs (List.not_mem_nil (a := '/'))
    rw [segments, hcs, cut, hcut] at h
    split at h
    · cases before <;> simp at h
    · cases before with
      | nil =>
        simp only [List.nil_append, List.map_cons, List.map_nil, List.cons.injEq, and_true] at h
        have := congrArg String.toList h
        simp at this
      | cons => simp at h

/-- A path without an anchor does not start with fill, unless it is empty. -/
theorem isFill_of_bare {p : Path} {s t : String} {ss : List String}
    (h : p.parts = (.bare, s :: t :: ss)) : isFill s = false := by
  unfold parts at h
  split at h
  · cases h
  · cases h
  · rename_i hroot hhere
    obtain ⟨-, hsegments⟩ := Prod.mk.inj h
    rw [isFill, Bool.or_eq_false_iff, beq_eq_false_iff_ne, beq_eq_false_iff_ne]
    exact ⟨fun he => hroot t ss (he ▸ hsegments), fun he => hhere (t :: ss) (he ▸ hsegments)⟩

theorem eq_of_text {p q : Path} (h : p.text = q.text) : p = q := by
  cases p
  cases q
  exact congrArg Path.mk h

theorem parts_of_root {p : Path} {s : String} {ss : List String} (h : p.segments = "" :: s :: ss) :
    p.parts = (.root, s :: ss) := by
  unfold parts
  unfold segments at h
  rw [h]
  rfl

theorem parts_of_here {p : Path} {ss : List String} (h : p.segments = "." :: ss) :
    p.parts = (.here, ss) := by
  unfold parts
  unfold segments at h
  rw [h]
  rfl

/-- The parts of a path whose first segment has something to say. -/
theorem parts_of_segments {p : Path} {s : String} {ss : List String} (h : p.segments = s :: ss)
    (hs : isFill s = false) : p.parts = (.bare, s :: ss) := by
  rw [isFill, Bool.or_eq_false_iff, beq_eq_false_iff_ne, beq_eq_false_iff_ne] at hs
  unfold parts
  unfold segments at h
  rw [h]
  split
  · rename_i heq
    exact absurd (List.cons.inj heq).1 hs.1
  · rename_i heq
    exact absurd (List.cons.inj heq).1 hs.2
  · rfl

/-- The parts of an anchor and segments put together; a root alone has fill behind it. -/
theorem exists_parts_ofParts {a : Anchor} {ss : List String} (hslash : ∀ s ∈ ss, '/' ∉ s.toList)
    (hbare : ∀ s ts, a = .bare → ss = s :: ts → isFill s = false) :
    ∃ ws, (∀ w ∈ ws, isFill w = true) ∧ (ofParts a ss).parts = (a, ss ++ ws) := by
  cases a with
  | root =>
    cases ss with
    | nil => exact ⟨[""], by simp [isFill], rfl⟩
    | cons s ss =>
      refine ⟨[], by simp, ?_⟩
      have hcut : (ofParts .root (s :: ss)).segments = "" :: s :: ss := by
        rw [segments, ofParts, String.toList_append, show "/".toList = ['/'] from rfl,
          List.singleton_append, cut, if_pos rfl, List.map_cons]
        exact congrArg ("" :: ·) (segments_ofParts_bare (List.cons_ne_nil s ss) hslash)
      rw [List.append_nil]
      exact parts_of_root hcut
  | here =>
    refine ⟨[], by simp, ?_⟩
    rw [List.append_nil]
    exact parts_of_here (segments_ofParts_here hslash)
  | bare =>
    cases ss with
    | nil => exact ⟨[""], by simp [isFill], rfl⟩
    | cons s ss =>
      refine ⟨[], by simp, ?_⟩
      rw [List.append_nil]
      exact parts_of_segments (segments_ofParts_bare (List.cons_ne_nil s ss) hslash)
        (hbare s ss rfl rfl)

/-- The parts of some names put together. -/
theorem parts_names {ns : List String} (hne : ns ≠ []) (h : ∀ n ∈ ns, IsName n) :
    (ofParts .bare ns).parts = (.bare, ns) := by
  obtain ⟨n, ns, rfl⟩ := List.exists_cons_of_ne_nil hne
  exact parts_of_segments (segments_ofParts_bare hne fun s hs => (h s hs).no_slash)
    (h n List.mem_cons_self).not_fill

/-! ## Joining -/

/-- The text in front of what is joined to a path. -/
def lead (p : Path) : String :=
  if p.text == "" || p.text.toList.getLast? == some '/' then p.text else p.text ++ "/"

theorem join_text {q : Path} (hq : q.isAbsolute = false) (p : Path) :
    (p.join q).text = p.lead ++ q.text := by
  rw [join, hq, if_neg (by decide), lead]
  split <;> rfl

/-- What is joined to a path comes behind its segments, but for an empty one at the end. -/
theorem exists_segments_join {p q : Path} (hp : p.text ≠ "") (hq : q.isAbsolute = false) :
    ∃ ss ws, (∀ w ∈ ws, w = "") ∧ p.segments = ss ++ ws ∧ ss ≠ [] ∧
      (p.join q).segments = ss ++ q.segments := by
  have hsegments : (p.join q).segments = (cut (p.lead.toList ++ q.text.toList)).map String.ofList := by
    rw [segments, join_text hq, String.toList_append]
  rw [hsegments, lead]
  by_cases hlast : p.text.toList.getLast? = some '/'
  · rw [if_pos (by simp [hlast])]
    obtain ⟨cs, hcs⟩ := List.getLast?_eq_some_iff.1 hlast
    refine ⟨(cut cs).map String.ofList, [""], by simp, ?_, ?_, ?_⟩
    · rw [segments, hcs, cut_append, List.map_append]
      rfl
    · exact segments_ne_nil ⟨String.ofList cs⟩ ∘ fun h => by rwa [segments, String.toList_ofList]
    · rw [hcs, List.append_assoc, List.singleton_append, cut_append, List.map_append]
      rfl
  · rw [if_neg (by simp [hp, hlast])]
    refine ⟨p.segments, [], by simp, by rw [List.append_nil], segments_ne_nil p, ?_⟩
    rw [String.toList_append, show "/".toList = ['/'] from rfl, List.append_assoc,
      List.singleton_append, cut_append, List.map_append]
    rfl

/-- What is joined to a path comes behind its segments, but for fill at the end, and the anchor
stays. -/
theorem exists_parts_join {q : Path} (hq : q.parts = (.bare, q.segments)) (p : Path) :
    ∃ ss ws, (∀ w ∈ ws, isFill w = true) ∧ p.parts = (p.parts.1, ss ++ ws) ∧
      (p.join q).parts = (p.parts.1, ss ++ q.segments) := by
  have habsolute : q.isAbsolute = false := by rw [isAbsolute, hq]; rfl
  by_cases hp : p.text = ""
  · obtain rfl : p = ⟨""⟩ := congrArg Path.mk hp
    refine ⟨[], [""], by simp [isFill], rfl, ?_⟩
    have hjoin : (⟨""⟩ : Path).join q = q := by
      rw [join, habsolute, if_neg (by decide), if_pos (by decide), String.empty_append]
    rw [hjoin, hq]
    rfl
  · obtain ⟨ss, ws, hws, hsegments, hss, hjoin⟩ := exists_segments_join hp habsolute
    have hfill (w : String) (hw : w ∈ ws) : isFill w = true := by rw [hws w hw]; rfl
    obtain ⟨s, ss, rfl⟩ := List.exists_cons_of_ne_nil hss
    obtain ⟨t, ts, htail⟩ := List.exists_cons_of_ne_nil
      (show ss ++ q.segments ≠ [] by simp [q.segments_ne_nil])
    rw [List.cons_append] at hsegments hjoin
    by_cases hroot : s = ""
    · subst hroot
      have hmore : ss ++ ws ≠ [] := fun h => hp (text_eq_empty_of_segments (by rw [hsegments, h]))
      obtain ⟨u, us, hrest⟩ := List.exists_cons_of_ne_nil hmore
      rw [hrest] at hsegments
      rw [htail] at hjoin
      have hparts := parts_of_root hsegments
      refine ⟨ss, ws, hfill, ?_, ?_⟩
      · rw [hparts, hrest]
      · rw [hparts, htail]
        exact parts_of_root hjoin
    · by_cases hhere : s = "."
      · subst hhere
        have hparts := parts_of_here hsegments
        refine ⟨ss, ws, hfill, by rw [hparts], ?_⟩
        rw [hparts]
        exact parts_of_here hjoin
      · have hs : isFill s = false := by
          rw [isFill, Bool.or_eq_false_iff, beq_eq_false_iff_ne, beq_eq_false_iff_ne]
          exact ⟨hroot, hhere⟩
        have hparts := parts_of_segments hsegments hs
        refine ⟨s :: ss, ws, hfill, ?_, ?_⟩
        · rw [hparts]
          rfl
        · rw [hparts, List.cons_append]
          exact parts_of_segments hjoin hs

/-- The components of a path come before those of what is joined to it. -/
theorem components_join {q : Path} (hq : q.parts = (.bare, q.segments)) (p : Path) :
    (p.join q).components = p.components ++ componentsOf q.segments := by
  obtain ⟨ss, ws, hws, hp, hjoin⟩ := exists_parts_join hq p
  rw [components, hjoin, components, congrArg Prod.snd hp, componentsOf_append, componentsOf_append,
    componentsOf_fill hws, List.append_nil, List.append_assoc]

/-- Names joined to a path one after the other are joined to it at once. -/
theorem join_join_names {n : String} {ns : List String} (hn : IsName n) (hne : ns ≠ [])
    (hns : ∀ m ∈ ns, IsName m) (p : Path) :
    (p.join ⟨n⟩).join (ofParts .bare ns) = p.join (ofParts .bare (n :: ns)) := by
  have hall : ∀ m ∈ n :: ns, IsName m := by simpa using ⟨hn, hns⟩
  have habsolute {ms : List String} (hms : ms ≠ []) (h : ∀ m ∈ ms, IsName m) :
      (ofParts .bare ms).isAbsolute = false := by
    rw [isAbsolute, parts_names hms h]
    rfl
  have hone : (⟨n⟩ : Path) = ofParts .bare [n] := by rw [ofParts, String.intercalate_singleton]
  have hlast : (p.join ⟨n⟩).text.toList.getLast? ≠ some '/' := by
    intro h
    rw [hone, join_text (habsolute (by simp) (by simpa using hn)), ← hone, String.toList_append,
      List.getLast?_append_of_ne_nil _ (by simpa using hn.ne_empty)] at h
    exact hn.no_slash (List.mem_of_getLast? h)
  have hlead : (p.join ⟨n⟩).lead = p.lead ++ n ++ "/" := by
    have hnonempty : (p.join ⟨n⟩).text ≠ "" := by
      rw [hone, join_text (habsolute (by simp) (by simpa using hn)), ← hone]
      intro h
      have := congrArg String.toList h
      simp [hn.ne_empty] at this
    rw [lead, if_neg (by simp [hnonempty, hlast]), hone,
      join_text (habsolute (by simp) (by simpa using hn)), ← hone]
  refine eq_of_text ?_
  rw [join_text (habsolute hne hns), join_text (habsolute (by simp) hall), hlead, ofParts, ofParts,
    String.intercalate_cons_of_ne_nil hne, String.append_assoc, String.append_assoc,
    String.append_assoc]

/-! ## Taking off a base -/

theorem below_append {ns : List String} (hns : ∀ n ∈ ns, IsName n) (ss : List String) :
    stripBase?.below (ss ++ ns) (componentsOf ss) = some ns := by
  have htrim {ws : List String} (h : ∀ w ∈ ws, isFill w = true) : trim (ws ++ ns) = ns := by
    have hdrop : ns.dropWhile isFill = ns := by
      cases ns with
      | nil => rfl
      | cons n ns => rw [List.dropWhile_cons, (hns n List.mem_cons_self).not_fill]; rfl
    rw [trim, List.dropWhile_append_of_pos h, hdrop, trimRight_names hns]
  induction ss with
  | nil =>
    have hnone : ∀ w ∈ ([] : List String), isFill w = true := by simp
    exact congrArg some (htrim hnone)
  | cons s ss ih =>
    by_cases hs : isFill s = true
    · rw [componentsOf_cons_of_isFill hs]
      cases hcs : componentsOf ss with
      | nil =>
        rw [hcs] at ih
        have hws (w : String) (hw : w ∈ s :: ss) : isFill w = true := by
          rcases List.mem_cons.1 hw with rfl | hw
          · exact hs
          · have := List.filter_eq_nil_iff.1 (List.map_eq_nil_iff.1 hcs) w hw
            simpa using this
        exact congrArg some (htrim hws)
      | cons c cs =>
        rw [hcs] at ih
        rw [stripBase?.below] at ih ⊢
        rwa [List.cons_append, List.dropWhile_cons, hs, if_pos rfl]
    · have hs := Bool.eq_false_iff.2 hs
      rw [componentsOf_cons hs, stripBase?.below, List.cons_append, List.dropWhile_cons, hs,
        if_neg (by decide)]
      dsimp only
      rw [if_pos rfl]
      exact ih

/-- Without the components that it starts with, a path is what comes after them. -/
theorem stripBase?_of_parts {p base : Path} {a : Anchor} {ss ns : List String}
    (hp : p.parts = (a, ss ++ ns)) (hbase : base.components = a.components ++ componentsOf ss)
    (hne : ns ≠ []) (hns : ∀ n ∈ ns, IsName n) : p.stripBase? base = some (ofParts .bare ns) := by
  have hbelow := below_append hns ss
  unfold stripBase?
  rw [hp, hbase]
  dsimp only
  cases a with
  | root => exact congrArg (Option.map (ofParts .bare)) hbelow
  | here => exact congrArg (Option.map (ofParts .bare)) hbelow
  | bare =>
    rw [Anchor.components, List.nil_append]
    cases hcs : componentsOf ss with
    | nil =>
      dsimp only
      -- Fill in front would have been an anchor.
      obtain rfl : ss = [] := by
        by_contra hss
        obtain ⟨s, ss, rfl⟩ := List.exists_cons_of_ne_nil hss
        obtain ⟨t, ts, hrest⟩ := List.exists_cons_of_ne_nil (show ss ++ ns ≠ [] by simp [hne])
        rw [List.cons_append, hrest] at hp
        rw [componentsOf_cons (isFill_of_bare hp)] at hcs
        cases hcs
      rw [List.nil_append, trimRight_names hns]
    | cons c cs =>
      rw [hcs] at hbelow
      exact congrArg (Option.map (ofParts .bare)) hbelow

/-! ## The last component -/

theorem no_slash_of_parts {p : Path} {s : String} (hs : s ∈ p.parts.2) : '/' ∉ s.toList := by
  refine not_mem_of_mem_segments (p := p) ?_
  unfold parts at hs
  unfold segments
  split at hs
  · rename_i heq
    rw [heq]
    exact List.mem_cons_of_mem _ hs
  · rename_i heq
    rw [heq]
    exact List.mem_cons_of_mem _ hs
  · exact hs

/-- The path ends in a name, but for fill behind it. -/
structure EndsIn (p : Path) (a : Anchor) (ss : List String) (n : String) : Prop where
  anchor : p.parts.1 = a
  segments : trimRight p.parts.2 = ss ++ [n]
  name : IsName n

theorem endsIn_of_parts {p : Path} {a : Anchor} {ss : List String} {n : String}
    (hp : p.parts = (a, ss ++ [n])) (hn : IsName n) : p.EndsIn a ss n :=
  ⟨by rw [hp], by rw [hp, trimRight_concat hn.not_fill], hn⟩

/-- A path with a file name ends in it. -/
theorem exists_endsIn {p : Path} {n : String} (h : p.fileName? = some n) : ∃ a ss, p.EndsIn a ss n := by
  unfold fileName? at h
  split at h
  · rename_i s hlast
    split at h
    · cases h
    · rename_i hup
      obtain rfl := Option.some.inj h
      obtain ⟨ss, hss⟩ := List.getLast?_eq_some_iff.1 hlast
      obtain ⟨fills, hfills, -⟩ := trimRight_append p.parts.2
      refine ⟨p.parts.1, ss, rfl, hss, not_isFill_of_trimRight hlast, by simpa using hup, ?_⟩
      refine no_slash_of_parts (p := p) ?_
      rw [hfills, hss]
      simp
  · cases h

section
variable {p : Path} {a : Anchor} {ss : List String} {n : String} (h : p.EndsIn a ss n)
include h

theorem EndsIn.components : p.components = a.components ++ componentsOf ss ++ [.name n] := by
  have hname : componentsOf [n] = [.name n] := componentsOf_names (by simpa using h.name)
  rw [Path.components, h.anchor, ← componentsOf_trimRight, h.segments, componentsOf_append, hname,
    List.append_assoc]

theorem EndsIn.fileName? : p.fileName? = some n := by
  rw [Path.fileName?, h.segments, List.getLast?_concat]
  exact if_neg (by simpa using h.name.not_up)

theorem EndsIn.parent? : p.parent? = some (ofParts a (trimRight ss)) := by
  rw [parent?_of_trimRight h.segments, h.anchor]

/-- The directory of a path, as the directory of every path with the same anchor and segments. -/
theorem EndsIn.exists_parts_directory :
    ∃ ws, (∀ w ∈ ws, isFill w = true) ∧ (ofParts a (trimRight ss)).parts = (a, trimRight ss ++ ws) := by
  obtain ⟨fills, hss, -⟩ := trimRight_append ss
  obtain ⟨more, hmore, -⟩ := trimRight_append p.parts.2
  rw [h.segments] at hmore
  have hkept (s : String) (hs : s ∈ trimRight ss) : s ∈ p.parts.2 := by
    rw [hmore, hss]
    simp [hs]
  have hbare (s : String) (ts : List String) (ha : a = .bare) (hs : trimRight ss = s :: ts) :
      isFill s = false := by
    rw [hs] at hss
    rw [hss, List.append_assoc, List.append_assoc, List.cons_append] at hmore
    obtain ⟨t, ts', hrest⟩ :=
      List.exists_cons_of_ne_nil (show ts ++ (fills ++ ([n] ++ more)) ≠ [] by simp)
    rw [hrest] at hmore
    exact isFill_of_bare (Prod.ext (h.anchor.trans ha) hmore)
  exact exists_parts_ofParts (fun s hs => no_slash_of_parts (hkept s hs)) hbare

/-- Another file name leaves the anchor and the segments in front. -/
theorem EndsIn.withFileName {m : String} (hm : IsName m) :
    ∃ ts, (p.withFileName m).EndsIn a ts m ∧ trimRight ts = trimRight ss := by
  obtain ⟨ws, hws, hparts⟩ := h.exists_parts_directory
  have hone : (⟨m⟩ : Path) = ofParts .bare [m] := by rw [ofParts, String.intercalate_singleton]
  have hm' : ∀ k ∈ [m], IsName k := by simpa using hm
  have hsegments : (⟨m⟩ : Path).segments = [m] := by
    rw [hone]
    exact segments_ofParts_bare (by simp) fun s hs => (hm' s hs).no_slash
  have hbare : (⟨m⟩ : Path).parts = (.bare, (⟨m⟩ : Path).segments) := by
    rw [hsegments, hone]
    exact parts_names (by simp) hm'
  obtain ⟨ts, ws', hws', hdir, hjoin⟩ := exists_parts_join hbare (ofParts a (trimRight ss))
  rw [hparts] at hdir hjoin
  refine ⟨ts, endsIn_of_parts ?_ hm, ?_⟩
  · rw [Path.withFileName, h.fileName?, h.parent?]
    dsimp only
    rw [hjoin, hsegments]
  · rw [← trimRight_fill hws' ts, ← (Prod.mk.inj hdir).2, trimRight_fill hws, trimRight_trimRight]

/-- A path with another file name is in the same directory. -/
theorem EndsIn.parent?_withFileName {m : String} (hm : IsName m) :
    (p.withFileName m).parent? = p.parent? := by
  obtain ⟨ts, hends, htrim⟩ := h.withFileName hm
  rw [hends.parent?, h.parent?, htrim]

theorem EndsIn.components_withFileName {m : String} (hm : IsName m) :
    (p.withFileName m).components = p.components.dropLast ++ [.name m] := by
  obtain ⟨ts, hends, htrim⟩ := h.withFileName hm
  rw [hends.components, h.components, List.dropLast_concat, ← componentsOf_trimRight ts, htrim,
    componentsOf_trimRight]

end

end Path

end Renumber
