import Renumber.Proofs.Paths

/-!
# File names with a suffix

A suffix goes behind the stem of a file name, in front of its last dot, and a suffix without a slash makes a
file name again (`Path.isName_suffixedName`). The dot at which the new name splits may be another one, as
the suffix may have dots of its own. The old name can still be read off the new one: two files never get one
path by the same suffix, and none keeps its own (`Path.suffixed_injective`). What tells a name with an
extension from one without is that the one without has no dot behind its first character
(`Path.splitName_cases`).
-/

namespace Renumber.Path

/-! ## Stems and extensions -/

/-- A name with an extension is its stem, a dot and the extension, in which there is no dot. A name without
one has no dot behind its first character. -/
theorem splitName_cases (name : String) :
    (∃ stem ext, splitName name = (stem, some ext) ∧
      name.toList = stem.toList ++ '.' :: ext.toList ∧ stem ≠ "" ∧ '.' ∉ ext.toList) ∨
    (splitName name = (name, none) ∧ '.' ∉ name.toList.tail) := by
  have hafter : '.' ∉ name.toList.reverse.takeWhile (· ≠ '.') := fun h => by
    simpa using List.mem_takeWhile_imp h
  have hdot {x : Char} {xs : List Char}
      (h : name.toList.reverse.dropWhile (· ≠ '.') = x :: xs) : x = '.' := by
    have := List.head?_dropWhile_not (· ≠ '.') name.toList.reverse
    rw [h] at this
    simpa using this
  have happend := List.takeWhile_append_dropWhile (p := (· ≠ '.')) (l := name.toList.reverse)
  unfold splitName
  dsimp only
  generalize name.toList.reverse.takeWhile (· ≠ '.') = after at hafter happend ⊢
  split
  · rename_i x c before hdrop
    obtain rfl := hdot hdrop
    rw [hdrop] at happend
    have hname := congrArg List.reverse happend
    rw [List.reverse_reverse, List.reverse_append, List.reverse_cons] at hname
    refine .inl ⟨_, _, rfl, ?_, by simp, by simpa using hafter⟩
    rw [← hname]
    simp
  · rename_i hshort
    refine .inr ⟨rfl, ?_⟩
    cases hdrop : name.toList.reverse.dropWhile (· ≠ '.') with
    | nil =>
      rw [hdrop, List.append_nil] at happend
      rw [happend, List.mem_reverse] at hafter
      exact fun h => hafter (List.mem_of_mem_tail h)
    | cons x xs =>
      obtain rfl := hdot hdrop
      cases xs with
      | nil =>
        have hname := congrArg List.reverse happend
        rw [hdrop, List.reverse_reverse, List.reverse_append] at hname
        rw [← hname]
        simpa using hafter
      | cons c before => exact absurd hdrop (hshort _ c before)

/-- A text with a low line and no slash can be a file name. -/
theorem isName_of_mem {s : String} (h : '_' ∈ s.toList) (hslash : '/' ∉ s.toList) : IsName s := by
  refine ⟨?_, ?_, hslash⟩
  · rw [isFill, Bool.or_eq_false_iff, beq_eq_false_iff_ne, beq_eq_false_iff_ne]
    constructor
    · rintro rfl
      exact absurd h (by decide)
    · rintro rfl
      exact absurd h (by decide)
  · rintro rfl
    exact absurd h (by decide)

/-- What a name is cut into around a suffix: what stands in front of it, and what behind. -/
structure Seam (before after : List Char) : Prop where
  ne_nil : before ≠ []
  /-- Behind the suffix there is the last dot; if there is nothing, in front there is at most a dot at the
  start. -/
  after : (after = [] ∧ '.' ∉ before.tail) ∨ ∃ ext, after = '.' :: ext ∧ '.' ∉ ext

/-- A suffix goes into the seam of a name. -/
theorem exists_seam {p : Path} {name : String} (hp : p.fileName? = some name) (hne : name ≠ "")
    (suffix : String) : ∃ before after, Seam before after ∧ name.toList = before ++ after ∧
      (p.suffixedName suffix).toList = before ++ '_' :: suffix.toList ++ after := by
  have hext : p.extension? = (splitName name).2 := by rw [extension?, hp, Option.bind_some]
  have hstem : p.stem? = some (splitName name).1 := by rw [stem?, hp, Option.map_some]
  unfold suffixedName
  rw [hext, hstem, Option.getD_some]
  rcases splitName_cases name with ⟨stem, ext, hsplit, hname, hne, hdot⟩ | ⟨hsplit, hdot⟩
  · refine ⟨stem.toList, '.' :: ext.toList, ⟨by simpa using hne, .inr ⟨_, rfl, hdot⟩⟩, hname, ?_⟩
    rw [hsplit]
    simp
  · refine ⟨name.toList, [], ⟨by simpa using hne, .inl ⟨rfl, hdot⟩⟩, by simp, ?_⟩
    rw [hsplit]
    simp

/-- A suffix without a slash makes a file name of a file name. -/
theorem isName_suffixedName {p : Path} {name suffix : String} (hp : p.fileName? = some name)
    (hname : IsName name) (hsuffix : '/' ∉ suffix.toList) : IsName (p.suffixedName suffix) := by
  obtain ⟨before, after, -, hcut, hnew⟩ := exists_seam hp hname.ne_empty suffix
  have hslash := hname.no_slash
  rw [hcut, List.mem_append, not_or] at hslash
  refine isName_of_mem (by simp [hnew]) ?_
  simp [hnew, hslash, hsuffix]

/-! ## Reading the old name off the new one -/

/-- The last dot cuts a text in one way. -/
theorem eq_of_last_dot {as bs cs ds : List Char} (h : as ++ '.' :: bs = cs ++ '.' :: ds)
    (hbs : '.' ∉ bs) (hds : '.' ∉ ds) : as = cs ∧ bs = ds := by
  rcases List.append_eq_append_iff.1 h with ⟨es, rfl, hes⟩ | ⟨es, rfl, hes⟩
  · cases es with
    | nil => exact ⟨(List.append_nil _).symm, (List.cons.inj hes).2⟩
    | cons e es => exact absurd ((List.cons.inj hes).2 ▸ by simp) hbs
  · cases es with
    | nil => exact ⟨List.append_nil _, ((List.cons.inj hes).2).symm⟩
    | cons e es => exact absurd ((List.cons.inj hes).2 ▸ by simp) hds

/-- A name without an extension does not become what one with an extension becomes. -/
theorem Seam.ne_of_dot {before before' ext : List Char} (h : Seam before [])
    (h' : Seam before' ('.' :: ext)) (suffix : List Char) :
    before ++ suffix ≠ before' ++ suffix ++ '.' :: ext := by
  intro heq
  obtain ⟨-, htail⟩ | ⟨_, hcons, -⟩ := h.after
  · obtain ⟨c, cs, rfl⟩ := List.exists_cons_of_ne_nil h.ne_nil
    obtain ⟨c', cs', rfl⟩ := List.exists_cons_of_ne_nil h'.ne_nil
    -- They start with the same character, and behind it the one has no dot, and the other has one.
    have hdots := congrArg (List.count '.') heq
    have hhead : c = c' := by simpa using congrArg List.head? heq
    subst hhead
    have hnone : cs.count '.' = 0 := List.count_eq_zero.2 htail
    simp only [List.count_append, List.count_cons, hnone, beq_self_eq_true, if_true] at hdots
    omega
  · cases hcons

/-- What a name was is known from what it is with a suffix. -/
theorem Seam.append_inj {before after before' after' : List Char} (h : Seam before after)
    (h' : Seam before' after') {suffix : List Char}
    (heq : before ++ suffix ++ after = before' ++ suffix ++ after') :
    before ++ after = before' ++ after' := by
  rcases h.after with ⟨rfl, -⟩ | ⟨ext, rfl, hext⟩ <;>
    rcases h'.after with ⟨rfl, -⟩ | ⟨ext', rfl, hext'⟩
  · rw [List.append_nil, List.append_nil] at heq
    rw [List.append_cancel_right heq]
  · rw [List.append_nil] at heq
    exact absurd heq (h.ne_of_dot h' suffix)
  · rw [List.append_nil] at heq
    exact absurd heq.symm (h'.ne_of_dot h suffix)
  · obtain ⟨hbefore, rfl⟩ := eq_of_last_dot heq hext hext'
    rw [List.append_cancel_right hbefore]

/-- Two names that are one with the same suffix are one. -/
theorem suffixedName_inj {p q : Path} {n m suffix : String} (hp : p.fileName? = some n) (hn : n ≠ "")
    (hq : q.fileName? = some m) (hm : m ≠ "") :
    p.suffixedName suffix = q.suffixedName suffix ↔ n = m := by
  constructor
  · intro h
    obtain ⟨before, after, hseam, hcut, hnew⟩ := exists_seam hp hn suffix
    obtain ⟨before', after', hseam', hcut', hnew'⟩ := exists_seam hq hm suffix
    rw [h, hnew'] at hnew
    rw [← String.toList_inj, hcut, hcut']
    exact hseam.append_inj hseam' hnew.symm
  · rintro rfl
    simp only [suffixedName, stem?, extension?, hp, hq]

/-- A name with a suffix is longer. -/
theorem suffixedName_ne {p : Path} {n : String} (hp : p.fileName? = some n) (hn : n ≠ "")
    (suffix : String) : p.suffixedName suffix ≠ n := by
  intro h
  obtain ⟨before, after, -, hcut, hnew⟩ := exists_seam hp hn suffix
  rw [h, hcut] at hnew
  have hlength := congrArg List.length hnew
  simp only [List.length_append, List.length_cons] at hlength
  omega

/-- Two paths with file names have the same components exactly if they have the same ones with a suffix;
and with a suffix a path has other ones than without. -/
theorem suffixed_injective {suffix : String} (hsuffix : '/' ∉ suffix.toList) {p : Path}
    (hp : p.fileName?.isSome) :
    (∀ q : Path, q.fileName?.isSome →
      ((p.suffixed suffix).components = (q.suffixed suffix).components ↔
        p.components = q.components)) ∧
      (p.suffixed suffix).components ≠ p.components := by
  obtain ⟨n, hn⟩ := Option.isSome_iff_exists.1 hp
  obtain ⟨a, ss, hends⟩ := exists_endsIn hn
  have hnew := hends.components_withFileName (isName_suffixedName hn hends.name hsuffix)
  rw [suffixed, hnew, hends.components, List.dropLast_concat]
  refine ⟨fun q hq => ?_, fun h => ?_⟩
  · obtain ⟨m, hm⟩ := Option.isSome_iff_exists.1 hq
    obtain ⟨b, ts, hends'⟩ := exists_endsIn hm
    have hnew' := hends'.components_withFileName (isName_suffixedName hm hends'.name hsuffix)
    rw [suffixed, hnew', hends'.components, List.dropLast_concat]
    simp only [List.append_singleton_inj, Component.name.injEq,
      suffixedName_inj hn hends.name.ne_empty hm hends'.name.ne_empty]
  · rw [List.append_singleton_inj, Component.name.injEq] at h
    exact suffixedName_ne hn hends.name.ne_empty suffix h.2

/-- A suffix with a dot, in two spellings of one path. -/
theorem suffixed_archive :
    let p : Path := ⟨"dir/mod.tar.gz"⟩
    let q : Path := ⟨"dir/./mod.tar.gz/"⟩
    p.suffixed "v1.2" = ⟨"dir/mod.tar_v1.2.gz"⟩ ∧ p.fileName?.isSome ∧ q.fileName?.isSome ∧
      ((p.suffixed "v1.2").components = (q.suffixed "v1.2").components ↔ p.components = q.components) ∧
      (p.suffixed "v1.2").components ≠ p.components := by
  intro p q
  have hp : p.fileName?.isSome := by decide
  have hq : q.fileName?.isSome := by decide
  obtain ⟨hsame, hown⟩ := suffixed_injective (show '/' ∉ "v1.2".toList by decide) hp
  exact ⟨by decide, hp, hq, hsame q hq, hown⟩

end Renumber.Path
