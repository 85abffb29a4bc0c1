import Mathlib.Data.List.Nodup
import Mathlib.Data.List.Perm.Subperm
import Mathlib.Data.List.TakeWhile
import Renumber.Proofs.Disk.Frame

/-!
# Writing over a file

A text that is written to a path where a file is takes the place of that file, whatever the file and the
text are, and nothing else on the disk changes (`Disk.write_file`). Each step of the write has what it
needs: the directory is there (`Disk.locate_directoryOf`, `Disk.makeDirectories_of_directory`), one of the
names for the staged file is free (`Disk.exists_freeName`), and the path still leads to the file when the
staged one is moved (`Disk.finish_file`).
-/

namespace Renumber

namespace Path

/-! ## Putting segments together -/

theorem not_mem_of_mem_cut {cs s : List Char} (h : s ∈ cut cs) : '/' ∉ s := by
  induction cs generalizing s with
  | nil =>
    obtain rfl : s = [] := by simpa [cut] using h
    simp
  | cons c cs ih =>
    rw [cut] at h
    split at h
    · rcases List.mem_cons.1 h with rfl | h
      · simp
      · exact ih h
    · rename_i hc
      split at h
      · obtain rfl := List.mem_singleton.1 h
        simpa using fun he => hc he.symm
      · rename_i s₀ ss hcut
        rw [hcut] at ih
        rcases List.mem_cons.1 h with rfl | h
        · rw [List.mem_cons, not_or]
          exact ⟨fun he => hc he.symm, ih List.mem_cons_self⟩
        · exact ih (List.mem_cons_of_mem _ h)

theorem cut_of_not_mem {s : List Char} (h : '/' ∉ s) : cut s = [s] := by
  obtain ⟨before, last, hcut, happend⟩ := exists_cut_append [] h
  have hcut : [] ++ [[]] = before ++ [last] := hcut
  obtain ⟨rfl, hlast⟩ := List.append_inj' hcut rfl
  obtain rfl := (List.cons.inj hlast).1
  exact happend

theorem cut_append (cs ds : List Char) : cut (cs ++ '/' :: ds) = cut cs ++ cut ds := by
  induction cs with
  | nil => rfl
  | cons c cs ih =>
    obtain ⟨before, last, hcut, -⟩ := exists_cut_append cs (List.not_mem_nil (a := '/'))
    rw [List.cons_append, cut, cut, ih, hcut]
    split
    · rfl
    · cases before <;> rfl

theorem cut_append_slash {s : List Char} (h : '/' ∉ s) (cs : List Char) :
    cut (s ++ '/' :: cs) = s :: cut cs := by
  rw [cut_append, cut_of_not_mem h]
  rfl

theorem cut_intercalate {ss : List (List Char)} (hne : ss ≠ []) (h : ∀ s ∈ ss, '/' ∉ s) :
    cut (['/'].intercalate ss) = ss := by
  induction ss with
  | nil => exact absurd rfl hne
  | cons s ss ih =>
    have hs := h s List.mem_cons_self
    cases ss with
    | nil => rw [List.intercalate_singleton, cut_of_not_mem hs]
    | cons t ss =>
      rw [List.intercalate_cons_of_ne_nil (List.cons_ne_nil t ss), List.append_assoc,
        List.singleton_append, cut_append_slash hs,
        ih (List.cons_ne_nil t ss) fun u hu => h u (List.mem_cons_of_mem _ hu)]

theorem cut_flatMap_slash {s : List Char} {ss : List (List Char)} (hs : '/' ∉ s)
    (h : ∀ s ∈ ss, '/' ∉ s) : cut (s ++ ss.flatMap fun t => '/' :: t) = s :: ss := by
  induction ss generalizing s with
  | nil => rw [List.flatMap_nil, List.append_nil, cut_of_not_mem hs]
  | cons t ss ih =>
    rw [List.flatMap_cons, List.cons_append, cut_append_slash hs,
      ih (h t List.mem_cons_self) fun u hu => h u (List.mem_cons_of_mem _ hu)]

theorem map_ofList_map_toList (ss : List String) : (ss.map String.toList).map String.ofList = ss := by
  rw [List.map_map]
  exact (List.map_congr_left fun _ _ => String.ofList_toList).trans (List.map_id ss)

theorem segments_ofParts_bare {ss : List String} (hne : ss ≠ []) (h : ∀ s ∈ ss, '/' ∉ s.toList) :
    (ofParts .bare ss).segments = ss := by
  rw [segments, ofParts, String.toList_intercalate, show "/".toList = ['/'] from rfl,
    cut_intercalate (by simpa using hne) (by simpa using h), map_ofList_map_toList]

theorem segments_ofParts_here {ss : List String} (h : ∀ s ∈ ss, '/' ∉ s.toList) :
    (ofParts .here ss).segments = "." :: ss := by
  have htext : (String.join ("." :: ss.map ("/" ++ ·))).toList =
      ".".toList ++ (ss.map String.toList).flatMap fun t => '/' :: t := by
    rw [String.toList_join, List.flatMap_cons, List.flatMap_map, List.flatMap_map]
    simp only [String.toList_append]
    rfl
  rw [segments, ofParts, htext, cut_flatMap_slash (by decide) (by simpa using h), List.map_cons,
    map_ofList_map_toList]
  rfl

theorem not_mem_of_mem_segments {p : Path} {s : String} (h : s ∈ p.segments) : '/' ∉ s.toList := by
  obtain ⟨t, ht, rfl⟩ := List.mem_map.1 h
  rw [String.toList_ofList]
  exact not_mem_of_mem_cut ht

theorem text_ne_empty {p : Path} (h : p.segments ≠ [""]) : p.text ≠ "" := by
  intro htext
  exact h (by rw [segments, htext]; rfl)

/-! ## The directory of a file -/

theorem trimRight_append (ss : List String) : ∃ fills, ss = trimRight ss ++ fills ∧
    ∀ w ∈ fills, isFill w = true := by
  refine ⟨(ss.reverse.takeWhile isFill).reverse, ?_, fun w hw => ?_⟩
  · rw [trimRight, ← List.reverse_append, List.takeWhile_append_dropWhile, List.reverse_reverse]
  · exact List.all_eq_true.1 List.all_takeWhile w (List.mem_reverse.1 hw)

theorem trimRight_concat {name : String} (hfill : isFill name = false) (ss : List String) :
    trimRight (ss ++ [name]) = ss ++ [name] := by
  rw [trimRight, List.reverse_append, List.reverse_singleton, List.singleton_append,
    List.dropWhile_cons, hfill, if_neg (by decide), List.reverse_cons, List.reverse_reverse]

theorem not_isFill_of_trimRight {ss : List String} {s : String} (h : (trimRight ss).getLast? = some s) :
    isFill s = false := by
  have hlast := List.head?_dropWhile_not isFill ss.reverse
  rw [trimRight, List.getLast?_reverse] at h
  rw [h] at hlast
  simpa using hlast

theorem parts_cases {p : Path} (h : p.isAbsolute = false) :
    (∃ rest, p.segments = "." :: rest ∧ p.parts = (.here, rest)) ∨ p.parts = (.bare, p.segments) := by
  unfold isAbsolute at h
  unfold segments
  unfold parts at h ⊢
  split
  · rename_i heq
    rw [heq] at h
    cases h
  · rename_i rest heq
    exact .inl ⟨rest, heq, rfl⟩
  · exact .inr rfl

theorem parent?_of_trimRight {p : Path} {before : List String} {name : String}
    (h : trimRight p.parts.2 = before ++ [name]) :
    p.parent? = some (ofParts p.parts.1 (trimRight before)) := by
  have hdrop : (before ++ [name]).dropLast = before := List.dropLast_concat
  obtain ⟨s, ss, hs⟩ := List.exists_cons_of_ne_nil (show before ++ [name] ≠ [] by simp)
  unfold parent?
  dsimp only
  rw [h, hs]
  dsimp only
  rw [← hs, hdrop]

theorem parent?_of_parts {p : Path} {anchor : Anchor} {before : List String} {name : String}
    (h : p.parts = (anchor, before ++ [name])) (hfill : isFill name = false) :
    p.parent? = some (ofParts anchor (trimRight before)) := by
  rw [parent?_of_trimRight (by rw [h, trimRight_concat hfill]), h]

/-- The directory that a file is written to is said by the segments in front of its name, but for fill at
the end. -/
theorem exists_segments_directoryOf {p : Path} {before : List String} {name : String}
    (habsolute : p.isAbsolute = false) (hsegments : p.segments = before ++ [name])
    (hfill : isFill name = false) : ∃ kept fills, before = kept ++ fills ∧
      (∀ w ∈ fills, isFill w = true) ∧ (Disk.directoryOf p).segments = (if kept = [] then ["."] else kept) ∧
      kept ≠ [""] := by
  have hslash (s : String) (hs : s ∈ before) : '/' ∉ s.toList :=
    not_mem_of_mem_segments (hsegments ▸ List.mem_append_left _ hs)
  rcases parts_cases habsolute with ⟨rest, hrest, hparts⟩ | hparts
  · rw [hsegments] at hrest
    cases before with
    | nil =>
      obtain rfl := (List.cons.inj hrest).1
      cases hfill
    | cons s before =>
      obtain ⟨rfl, rfl⟩ := List.cons.inj hrest
      obtain ⟨fills, hbefore, hfills⟩ := trimRight_append before
      have hkept : (ofParts .here (trimRight before)).segments = "." :: trimRight before := by
        refine segments_ofParts_here fun s hs => hslash s (List.mem_cons_of_mem _ ?_)
        rw [hbefore]
        exact List.mem_append_left _ hs
      refine ⟨"." :: trimRight before, fills, by rw [List.cons_append, ← hbefore], hfills, ?_, by simp⟩
      rw [if_neg (List.cons_ne_nil _ _), ← hkept, Disk.directoryOf, parent?_of_parts hparts hfill]
      dsimp only
      rw [if_neg (by simpa using text_ne_empty (by rw [hkept]; simp))]
  · rw [hsegments] at hparts
    obtain ⟨fills, hbefore, hfills⟩ := trimRight_append before
    have hlast : trimRight before ≠ [""] := by
      intro h
      have := not_isFill_of_trimRight (congrArg List.getLast? h)
      cases this
    refine ⟨trimRight before, fills, hbefore, hfills, ?_, hlast⟩
    rw [Disk.directoryOf, parent?_of_parts hparts hfill]
    dsimp only
    by_cases hnil : trimRight before = []
    · rw [hnil]
      rfl
    · have hkept : (ofParts .bare (trimRight before)).segments = trimRight before := by
        refine segments_ofParts_bare hnil fun s hs => hslash s ?_
        rw [hbefore]
        exact List.mem_append_left _ hs
      rw [if_neg hnil, if_neg (by simpa using text_ne_empty (by rw [hkept]; exact hlast)), hkept]

end Path

namespace Disk

variable {d d' : Disk} {l : Location} {p : Path} {f : File}

theorem foldlM_enter_fill {ws : List String} (h : ∀ w ∈ ws, Path.isFill w = true)
    {l' : Location} (hl : ws.foldlM d.enter l = .ok l') : l' = l := by
  induction ws with
  | nil =>
    cases hl
    rfl
  | cons w ws ih =>
    rw [List.foldlM_cons, bind_eq_ok_iff] at hl
    obtain ⟨l₁, henter, hl⟩ := hl
    have hfill := Path.advance_of_isFill (h w List.mem_cons_self) l
    obtain rfl := Option.some.inj (hfill.symm.trans (enter_eq_ok henter).1)
    exact ih (fun v hv => h v (List.mem_cons_of_mem _ hv)) hl

/-- A path to a file leads through its directory. -/
theorem locate_directoryOf (h : d.locate p = .ok l) (hfile : d.holding? l = some (.file f)) :
    d.locate (directoryOf p) = .ok l.dropLast := by
  obtain ⟨before, name, l₀, hp, hsegments, hfill, -, hl₀, -, rfl⟩ := exists_name_of_file h hfile
  obtain ⟨htext, habsolute⟩ := Bool.or_eq_false_iff.1 hp
  obtain ⟨kept, fills, rfl, hfills, hdir, hempty⟩ :=
    Path.exists_segments_directoryOf habsolute hsegments hfill
  rw [enterAll, List.foldlM_append, bind_eq_ok_iff] at hl₀
  obtain ⟨l₁, hkept, hl₁⟩ := hl₀
  obtain rfl := foldlM_enter_fill hfills hl₁
  have hrelative : (directoryOf p).isAbsolute = false := by
    rw [Bool.eq_false_iff, ne_eq, Path.isAbsolute_iff, hdir]
    rintro ⟨s, rest, hroot⟩
    split at hroot
    · exact absurd (List.cons.inj hroot).1 (by decide)
    · rw [hroot, List.append_assoc] at hsegments
      exact absurd (Path.isAbsolute_iff.2 ⟨s, _, hsegments⟩) (by simp [habsolute])
  have hnamed : (directoryOf p).text ≠ "" := by
    refine Path.text_ne_empty ?_
    rw [hdir]
    split
    · decide
    · exact hempty
  rw [List.dropLast_concat, locate, if_neg (by simp [hrelative, hnamed]), enterAll, hdir]
  split
  · rename_i hnil
    subst hnil
    exact hkept
  · exact hkept

/-! ## Making a directory that is there -/

/-- A path that is not empty and does not start at the root has a segment with something in it. -/
theorem exists_named_segment (hp : (p.text == "" || p.isAbsolute) = false) :
    ∃ last before, p.segments.reverse.dropWhile (· == "") = last :: before := by
  obtain ⟨htext, habsolute⟩ := Bool.or_eq_false_iff.1 hp
  suffices h : ∃ s ∈ p.segments, s ≠ "" by
    obtain ⟨s, hs, hne⟩ := h
    refine List.exists_cons_of_ne_nil fun hnil => hne ?_
    simpa using (List.dropWhile_eq_nil_iff.1 hnil) s (List.mem_reverse.2 hs)
  cases hcs : p.text.toList with
  | nil => exact absurd (String.toList_eq_nil_iff.1 hcs) (by simpa using htext)
  | cons c cs =>
    obtain ⟨before, last, hcut, -⟩ := Path.exists_cut_append cs (List.not_mem_nil (a := '/'))
    rw [Path.segments, hcs, Path.cut]
    by_cases hc : c = '/'
    · have hroot : ∃ s rest, p.segments = "" :: s :: rest := by
        rw [Path.segments, hcs, Path.cut, if_pos hc, hcut]
        cases before with
        | nil => exact ⟨_, _, rfl⟩
        | cons => exact ⟨_, _, rfl⟩
      rw [Path.isAbsolute_iff.2 hroot] at habsolute
      cases habsolute
    · rw [if_neg hc, hcut]
      cases before with
      | nil => exact ⟨_, List.mem_cons_self, by simp⟩
      | cons => exact ⟨_, List.mem_cons_self, by simp⟩

/-- The spot of a path, if the segments in front of the last one lead to a directory. -/
theorem spot_of_directory {last : String} {before : List String} {es : List (String × Node)}
    (hp : (p.text == "" || p.isAbsolute) = false)
    (hsegments : p.segments.reverse.dropWhile (· == "") = last :: before)
    (hl : d.enterAll before.reverse = .ok l) (hes : d.get? l = some (.directory es)) :
    d.spot p = if last == "." || last == ".." then .ok .taken
      else (d.lookUp l last).map fun x? =>
        .location (l ++ [last]) x? (p.segments.getLast? == some "") := by
  have hhere : d.enter l "." = .ok l := by
    rw [enter_of_directory hes]
    rfl
  unfold spot
  rw [if_neg (by simp [hp])]
  dsimp only
  rw [hsegments]
  dsimp only
  rw [hl]
  show (if _ then _ else _) = _
  rw [hhere]
  split
  · rfl
  · cases d.lookUp l last <;> rfl

/-- The spot of a path that ends in a name is there. -/
theorem spot_of_name {name : String} {before : List String} {es : List (String × Node)}
    (hp : (p.text == "" || p.isAbsolute) = false) (hsegments : p.segments = before ++ [name])
    (hfill : Path.isFill name = false) (hup : name ≠ "..") (hl : d.enterAll before = .ok l)
    (hes : d.get? l = some (.directory es)) :
    d.spot p = (d.lookUp l name).map fun x? => .location (l ++ [name]) x? false := by
  obtain ⟨hempty, hdot⟩ := Bool.or_eq_false_iff.1 hfill
  have hdrop : p.segments.reverse.dropWhile (· == "") = name :: before.reverse := by
    rw [hsegments, List.reverse_append, List.reverse_singleton, List.singleton_append,
      List.dropWhile_cons, hempty, if_neg (by decide)]
  rw [spot_of_directory hp hdrop (by rwa [List.reverse_reverse]) hes, if_neg (by simp [hdot, hup]),
    hsegments, List.getLast?_concat]
  simp only [Option.some_beq_some, hempty]

/-- What a path leads to is at its spot, unless the last segment goes nowhere or up. -/
theorem spot_of_locate (h : d.locate p = .ok l) : d.spot p = .ok .taken ∨
    ∃ l' x slash, d.spot p = .ok (.location l' (some x) slash) := by
  unfold locate at h
  split at h
  · cases h
  · rename_i hp
    have hp := Bool.eq_false_iff.2 hp
    obtain ⟨last, before, hdrop⟩ := exists_named_segment hp
    obtain ⟨ws, hsegments, -, hempty⟩ := exists_append_of_dropWhile hdrop
    rw [enterAll, hsegments, List.foldlM_append, bind_eq_ok_iff] at h
    obtain ⟨l₀, hl₀, h⟩ := h
    rw [List.foldlM_cons, bind_eq_ok_iff] at h
    obtain ⟨l₁, henter, -⟩ := h
    obtain ⟨es, hes⟩ := holding?_eq_directory_iff.1 (directory_of_enter henter)
    rw [spot_of_directory hp hdrop hl₀ hes]
    split
    · exact .inl rfl
    · rename_i hdots
      rw [Bool.or_eq_true, not_or, beq_iff_eq, beq_iff_eq] at hdots
      rw [enter_of_directory hes, if_neg (by simpa [Path.isFill, hdots.1] using hempty),
        if_neg (by simpa using hdots.2)] at henter
      split at henter
      · cases henter
      · rename_i hshort
        split at henter
        · rename_i hfound
          obtain ⟨x, hx⟩ := Option.isSome_iff_exists.1 hfound
          rw [lookUp_of_directory hes hshort, hx]
          exact .inr ⟨_, x, _, rfl⟩
        · cases henter

theorem isDirectory_of_locate (h : d.locate p = .ok l) (hl : d.holding? l = some .directory) :
    d.isDirectory p = true := by
  obtain ⟨es, hes⟩ := holding?_eq_directory_iff.1 hl
  rw [isDirectory, follow_eq_ok_iff.2 ⟨l, h, hes⟩]

/-- A directory that is there is made without a change. -/
theorem makeDirectories_of_directory (h : d.locate p = .ok l)
    (hl : d.holding? l = some .directory) :
    d.makeDirectories Faults.none.makeDirectory p = (d, .ok ()) := by
  have hmake : Faults.none.makeDirectory d p = .error .alreadyExists := by
    unfold Faults.makeDirectory makeDirectory
    rcases spot_of_locate h with hspot | ⟨l', x, slash, hspot⟩ <;> rw [hspot] <;> rfl
  have hthere : d.madeOrThere Faults.none.makeDirectory p = (d, .ok ()) := by
    rw [madeOrThere, hmake]
    dsimp only
    rw [if_pos (isDirectory_of_locate h hl)]
  rw [makeDirectories, makeLevels]
  split
  · rfl
  · rw [hmake]
    exact hthere

/-! ## Staging -/

theorem mem_of_find?_isSome {name : String} {es : List (String × Node)}
    (h : (Node.find? name es).isSome = true) : name ∈ es.map Prod.fst := by
  induction es with
  | nil => cases h
  | cons e es ih =>
    obtain ⟨n, x⟩ := e
    rw [Node.find?] at h
    split at h
    · rename_i hn
      exact hn ▸ List.mem_cons_self
    · exact List.mem_cons_of_mem _ (ih h)

theorem toString_injective {i j : Nat} (h : toString i = toString j) : i = j := by
  rw [Nat.toString_eq_ofList_toDigits, Nat.toString_eq_ofList_toDigits, String.ofList_inj] at h
  rw [← Nat.ofDigitChars_ten_toDigits (n := i), h, Nat.ofDigitChars_ten_toDigits]

/-- Entries cannot take up more names than there are entries. -/
theorem exists_freeName (es : List (String × Node)) : ∃ name, freeName? es = some name := by
  refine Option.isSome_iff_exists.1 ?_
  by_contra hnone
  rw [freeName?, List.find?_isSome] at hnone
  have hnodup : ((List.range (es.length + 1)).map fun i => ".tmp" ++ toString i).Nodup :=
    List.nodup_range.map fun i j hij => toString_injective ((String.append_right_inj _).1 hij)
  have hsub : ((List.range (es.length + 1)).map fun i => ".tmp" ++ toString i) ⊆
      es.map Prod.fst := by
    intro name hname
    refine mem_of_find?_isSome (Bool.not_eq_false _ ▸ fun hfree => hnone ⟨name, hname, ?_⟩)
    simpa using hfree
  have hlength := (hnodup.subperm hsub).length_le
  rw [List.length_map, List.length_range, List.length_map] at hlength
  omega

/-- A file is staged in every directory. -/
theorem exists_stage {dir : Path} (h : d.locate dir = .ok l) (hl : d.holding? l = some .directory) :
    ∃ d' name staged, d.stage dir = .ok (d', name, staged) := by
  obtain ⟨es, hes⟩ := holding?_eq_directory_iff.1 hl
  obtain ⟨name, hname⟩ := exists_freeName es
  refine ⟨d.put (l ++ [name]) (.file ⟨.empty, newMode⟩), name, l ++ [name], ?_⟩
  rw [stage, h]
  simp only [bind, Except.bind, hes, hname]
  rfl

/-! ## Moving the file -/

theorem spot_of_file (h : d.locate p = .ok l) (hfile : d.holding? l = some (.file f)) :
    d.spot p = .ok (.location l (some (.file f)) false) := by
  obtain ⟨before, name, l₀, hp, hsegments, hfill, hup, hl₀, hfound, rfl⟩ :=
    exists_name_of_file h hfile
  obtain ⟨es, hes⟩ := holding?_eq_directory_iff.1 (lookUp_eq_ok hfound).1
  rw [spot_of_name hp hsegments hfill hup hl₀ hes, hfound]
  rfl

theorem modeFor_of_file (h : d.locate p = .ok l) (hfile : d.holding? l = some (.file f)) :
    d.modeFor p = f.mode := by
  rw [modeFor, follow_eq_ok_iff.2 ⟨l, h, holding?_eq_file_iff.1 hfile⟩]

theorem persist_of_file {staged : Location} (h : d.locate p = .ok l)
    (hfile : d.holding? l = some (.file f)) (g : File) :
    d.persist staged g p = .ok ((d.erase staged).put l (.file g)) := by
  unfold persist
  rw [spot_of_file h hfile]
  rfl

/-- A staged file that is changed leaves a path where it led. -/
theorem locate_of_put {staged : Location} {g : File} (h : d.locate p = .ok l)
    (hfile : d.holding? l = some (.file f)) (hstaged : d.holding? staged = some (.file g))
    (hne : l ≠ staged) (g' : File) : (d.put staged (.file g')).locate p = .ok l ∧
      (d.put staged (.file g')).holding? l = some (.file f) := by
  have hwrote := wrote_put (Free.of_file hstaged) g'
  have hl : (d.put staged (.file g')).holding? l = some (.file f) := by
    rw [holding?_put (Free.of_file hstaged) rfl, if_neg hne, hfile]
  exact ⟨locate_of_kept hwrote.directoriesKept h (by rw [hl]; rfl), hl⟩

/-- A staged file takes the place of a file, with the permissions of that one. -/
theorem finish_file {staged : Location} {g : File} (dir : Path) (name : String) (text : String)
    (h : d.locate p = .ok l) (hfile : d.holding? l = some (.file f))
    (hstaged : d.holding? staged = some (.file g)) (hne : l ≠ staged) :
    ∃ d', d.finish .none dir name staged p text = .ok d' ∧ ∀ m, d'.holding? m =
      if m = l then some (.file ⟨text.toUTF8, f.mode⟩) else if m = staged then none
      else d.holding? m := by
  generalize hd₁ : d.put staged (.file ⟨text.toUTF8, newMode⟩) = d₁
  have hholding₁ (m : Location) : d₁.holding? m =
      if m = staged then some (.file ⟨text.toUTF8, newMode⟩) else d.holding? m := by
    rw [← hd₁, holding?_put (Free.of_file hstaged) rfl]
    rfl
  have hstaged₁ := (hholding₁ staged).trans (if_pos rfl)
  obtain ⟨h₁, hfile₁⟩ := locate_of_put h hfile hstaged hne ⟨text.toUTF8, newMode⟩
  rw [hd₁] at h₁ hfile₁
  obtain ⟨h₂, hfile₂⟩ := locate_of_put h₁ hfile₁ hstaged₁ hne ⟨text.toUTF8, f.mode⟩
  have hholding₂ (m : Location) : (d₁.put staged (.file ⟨text.toUTF8, f.mode⟩)).holding? m =
      if m = staged then some (.file ⟨text.toUTF8, f.mode⟩) else d₁.holding? m := by
    rw [holding?_put (Free.of_file hstaged₁) rfl]
    rfl
  have hstaged₂ := (hholding₂ staged).trans (if_pos rfl)
  have herase := holding?_erase hstaged₂ l
  rw [if_neg hne, hfile₂] at herase
  refine ⟨((d₁.put staged (.file ⟨text.toUTF8, f.mode⟩)).erase staged).put l
    (.file ⟨text.toUTF8, f.mode⟩), ?_, fun m => ?_⟩
  · unfold finish
    rw [hd₁]
    dsimp only
    rw [modeFor_of_file h₁ hfile₁, persist_of_file h₂ hfile₂]
    split <;> rfl
  · rw [holding?_put (Free.of_file herase) rfl, holding?_erase hstaged₂, hholding₂, hholding₁]
    split
    · rfl
    · split <;> rfl

/-- A text that is written to a path where a file is takes its place, and nothing else changes. -/
theorem write_file (h : d.fileOf? p = some f) (text : String) :
    ∃ d' l, d.write p text = (d', .ok ()) ∧ d.locate p = .ok l ∧ ∀ m, d'.holding? m =
      if m = l then some (.file ⟨text.toUTF8, f.mode⟩) else d.holding? m := by
  obtain ⟨l, hl, hfile⟩ := fileOf?_eq_some_iff.1 h
  have hdir := locate_directoryOf hl hfile
  have hthere := holding?_dropLast hfile (ne_nil_of_file hfile)
  obtain ⟨d₁, name, staged, hstage⟩ := exists_stage hdir hthere
  obtain ⟨hnone, hstaged⟩ := stage_eq_ok hstage
  have hne : l ≠ staged := by
    rintro rfl
    rw [hnone] at hfile
    cases hfile
  have hkept : d.DirectoriesKept d₁ := fun m hm => by
    rw [hstaged, if_neg, hm]
    rintro rfl
    rw [hnone] at hm
    cases hm
  have hfile₁ : d₁.holding? l = some (.file f) := by rw [hstaged, if_neg hne, hfile]
  have hl₁ := locate_of_kept hkept hl (by rw [hfile₁]; rfl)
  obtain ⟨d', hfinish, hholding⟩ := finish_file (directoryOf p) name text hl₁ hfile₁
    ((hstaged staged).trans (if_pos rfl)) hne
  refine ⟨d', l, ?_, hl, fun m => ?_⟩
  · unfold write writeUnder
    have hguard : (Faults.none.guard .stage >>= fun _ => d.stage (directoryOf p)) =
        .ok (d₁, name, staged) := bind_eq_ok_iff.2 ⟨(), rfl, hstage⟩
    dsimp only
    rw [makeDirectories_of_directory hdir hthere]
    dsimp only
    rw [hguard]
    dsimp only
    rw [hfinish]
  · rw [hholding, hstaged]
    split
    · rfl
    · split
      · rename_i hm
        rw [hm, hnone]
      · rfl

end Disk

end Renumber
