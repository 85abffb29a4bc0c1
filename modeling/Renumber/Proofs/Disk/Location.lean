import Renumber.Proofs.Disk.Holding

/-!
# Where a path leads

Where a path leads is said by its segments alone, if it leads anywhere (`Path.location?`): following
it on a disk only finds out whether there is something (`Disk.locate_eq_ok`). So a path leads to the
same location on every disk that has the directories on the way (`Disk.locate_of_kept`), and to a
place where something may be made once something is there (`Disk.locate_of_spot`).

The path of a backup leads to the directory of the file, to its name with an ending
(`Disk.location?_backup_of_file`).
-/

namespace Renumber

namespace Path

/-- One segment further from a location. There is nothing above the working directory. -/
def advance (l : Location) (segment : String) : Option Location :=
  if isFill segment then some l
  else if segment == ".." then if l.isEmpty then none else some l.dropLast
  else some (l ++ [segment])

/-- Where a path leads from the working directory, whatever is there. -/
def location? (p : Path) : Option Location :=
  if p.text == "" || p.isAbsolute then none else p.segments.foldlM advance []

/-- Two paths lead to one place, whatever is there. -/
def Meet (p q : Path) : Prop := ∃ l, p.location? = some l ∧ q.location? = some l

theorem not_meet_of_ne {p q : Path} {l m : Location} (hp : p.location? = some l)
    (hq : q.location? = some m) (hne : l ≠ m) : ¬ p.Meet q := by
  rintro ⟨k, hpk, hqk⟩
  exact hne (Option.some.inj ((hp.symm.trans hpk).trans (hqk.symm.trans hq)))

theorem advance_of_isFill {segment : String} (h : isFill segment = true) (l : Location) :
    advance l segment = some l := by
  rw [advance, if_pos h]

theorem advance_name {name : String} (hfill : isFill name = false) (hup : name ≠ "..")
    (l : Location) : advance l name = some (l ++ [name]) := by
  rw [advance, hfill, if_neg (by decide), if_neg (by simpa using hup)]

theorem foldlM_advance_fill {ws : List String} (h : ∀ w ∈ ws, isFill w = true) (l : Location) :
    ws.foldlM advance l = some l := by
  induction ws with
  | nil => rfl
  | cons w ws ih =>
    rw [List.foldlM_cons, advance_of_isFill (h w List.mem_cons_self)]
    exact ih fun v hv => h v (List.mem_cons_of_mem _ hv)

/-! ## Segments -/

/-- Characters without a slash behind a text go to its last segment. -/
theorem exists_cut_append (cs : List Char) {ds : List Char} (h : '/' ∉ ds) :
    ∃ before last, cut cs = before ++ [last] ∧ cut (cs ++ ds) = before ++ [last ++ ds] := by
  induction cs with
  | nil =>
    refine ⟨[], [], rfl, ?_⟩
    induction ds with
    | nil => rfl
    | cons c ds ih =>
      rw [List.mem_cons, not_or] at h
      rw [List.nil_append, cut, if_neg fun he => h.1 he.symm]
      have := ih h.2
      rw [List.nil_append] at this
      rw [this]
      rfl
  | cons c cs ih =>
    obtain ⟨before, last, hcut, happend⟩ := ih
    rw [List.cons_append, cut, cut, hcut, happend]
    split
    · exact ⟨[] :: before, last, rfl, rfl⟩
    · cases before with
      | nil => exact ⟨[], c :: last, rfl, rfl⟩
      | cons s before => exact ⟨(c :: s) :: before, last, rfl, rfl⟩

theorem exists_segments_backup (p : Path) : ∃ before last, p.segments = before ++ [last] ∧
    p.backup.segments = before ++ [last ++ ".bak"] := by
  obtain ⟨before, last, hcut, happend⟩ := exists_cut_append p.text.toList
    (show '/' ∉ ".bak".toList by decide)
  refine ⟨before.map String.ofList, String.ofList last, ?_, ?_⟩
  · rw [segments, hcut, List.map_append]
    rfl
  · rw [segments, backup, String.toList_append, happend, List.map_append, List.map_singleton,
      String.ofList_append, String.ofList_toList]

theorem isAbsolute_iff {p : Path} : p.isAbsolute = true ↔
    ∃ s rest, p.segments = "" :: s :: rest := by
  unfold isAbsolute parts segments
  split
  · rename_i s rest h
    exact ⟨fun _ => ⟨s, rest, h⟩, fun _ => rfl⟩
  · rename_i rest h
    constructor
    · intro h'; cases h'
    · rintro ⟨s, rest', h'⟩
      rw [h] at h'
      injection h' with h' _
      exact absurd h' (by decide)
  · rename_i h _
    constructor
    · intro h'; cases h'
    · rintro ⟨s, rest, h'⟩
      exact absurd h' (h s rest)

theorem isAbsolute_backup (p : Path) : p.backup.isAbsolute = p.isAbsolute := by
  obtain ⟨before, last, hs, hb⟩ := exists_segments_backup p
  rw [Bool.eq_iff_iff, isAbsolute_iff, isAbsolute_iff, hs, hb]
  cases before with
  | nil => simp
  | cons s before =>
    cases before with
    | nil => simp
    | cons => simp

/-- The backup of a path that ends in a name. -/
theorem location?_backup {p : Path} {before : List String} {name : String} {l : Location}
    (hp : p.isAbsolute = false) (hsegments : p.segments = before ++ [name])
    (hbefore : before.foldlM advance [] = some l) :
    p.backup.location? = some (l ++ [name ++ ".bak"]) := by
  obtain ⟨before', last, hs, hb⟩ := exists_segments_backup p
  obtain ⟨rfl, hlast⟩ := List.append_inj' (hsegments.symm.trans hs) rfl
  obtain rfl : name = last := (List.cons.inj hlast).1
  have hne (s : String) (hs : s.length < 4) : name ++ ".bak" ≠ s := by
    intro h
    have := congrArg String.length h
    rw [String.length_append, show ".bak".length = 4 from rfl] at this
    omega
  have hfill : isFill (name ++ ".bak") = false := by
    rw [isFill, Bool.or_eq_false_iff, beq_eq_false_iff_ne, beq_eq_false_iff_ne]
    exact ⟨hne "" (by decide), hne "." (by decide)⟩
  have htext : (p.backup.text == "") = false := by
    rw [beq_eq_false_iff_ne]
    intro h
    have := congrArg String.length h
    rw [backup, String.length_append, show ".bak".length = 4 from rfl,
      show "".length = 0 from rfl] at this
    omega
  rw [location?, htext, isAbsolute_backup, hp, Bool.or_self, if_neg (by decide), hb,
    List.foldlM_append, hbefore, Option.bind_eq_bind, Option.bind_some, List.foldlM_cons,
    advance_name hfill (hne ".." (by decide))]
  rfl

end Path

namespace Disk

variable {d d' : Disk} {l l' : Location} {p : Path} {f : File}

/-- Of two steps the second one is taken if the first one succeeds. -/
theorem bind_eq_ok_iff {ε α β : Type} {x : Except ε α} {g : α → Except ε β} {b : β} :
    (x >>= g) = .ok b ↔ ∃ a, x = .ok a ∧ g a = .ok b := by
  cases x with
  | error e =>
    constructor
    · intro h; cases h
    · rintro ⟨a, h, -⟩; cases h
  | ok a =>
    constructor
    · exact fun h => ⟨a, rfl, h⟩
    · rintro ⟨a', h, hb⟩
      cases h
      exact hb

/-! ## Following segments -/

theorem enter_of_directory {es : List (String × Node)} (h : d.get? l = some (.directory es))
    (segment : String) : d.enter l segment =
      if Path.isFill segment then .ok l
      else if segment == ".." then if l.isEmpty then .error .notFound else .ok l.dropLast
      else if segment.utf8ByteSize > longestName then .error .nameTooLong
      else if (Node.find? segment es).isSome then .ok (l ++ [segment]) else .error .notFound := by
  unfold enter lookUp
  simp only [h]
  split
  · rfl
  · split
    · rfl
    · split
      · rfl
      · cases Node.find? segment es <;> rfl

theorem directory_of_enter {segment : String} (h : d.enter l segment = .ok l') :
    d.holding? l = some .directory := by
  unfold enter at h
  split at h
  · rename_i es hes
    exact holding?_eq_directory_iff.2 ⟨es, hes⟩
  · cases h
  · cases h

/-- A segment that is followed leads where it leads on every disk, and there is something there. -/
theorem enter_eq_ok {segment : String} (h : d.enter l segment = .ok l') :
    Path.advance l segment = some l' ∧ (d.holding? l').isSome = true := by
  have hdir := directory_of_enter h
  obtain ⟨es, hes⟩ := holding?_eq_directory_iff.1 hdir
  rw [enter_of_directory hes] at h
  unfold Path.advance
  split at h
  · cases h
    rename_i hfill
    exact ⟨if_pos hfill, by rw [hdir]; rfl⟩
  · rename_i hfill
    rw [if_neg hfill]
    split at h
    · rename_i hup
      rw [if_pos hup]
      split at h
      · cases h
      · rename_i hempty
        cases h
        have hne : l ≠ [] := by simpa using hempty
        exact ⟨if_neg hempty, by rw [holding?_dropLast hdir hne]; rfl⟩
    · rename_i hup
      rw [if_neg hup]
      split at h
      · cases h
      · split at h
        · rename_i hfound
          cases h
          exact ⟨rfl, by rw [holding?_append_singleton hes, Option.isSome_map]; exact hfound⟩
        · cases h

theorem foldlM_enter_eq_ok {segments : List String} (hl : (d.holding? l).isSome = true)
    (h : segments.foldlM d.enter l = .ok l') :
    segments.foldlM Path.advance l = some l' ∧ (d.holding? l').isSome = true := by
  induction segments generalizing l with
  | nil =>
    cases h
    exact ⟨rfl, hl⟩
  | cons segment segments ih =>
    rw [List.foldlM_cons, bind_eq_ok_iff] at h
    obtain ⟨l₁, henter, h⟩ := h
    obtain ⟨hadvance, hl₁⟩ := enter_eq_ok henter
    rw [List.foldlM_cons, hadvance]
    exact ih hl₁ h

/-- Segments lead to the same location on a disk that has the directories on the way. -/
theorem foldlM_enter_of_kept {segments : List String} (hkept : d.DirectoriesKept d')
    (h : segments.foldlM d.enter l = .ok l') (hl' : (d'.holding? l').isSome = true) :
    segments.foldlM d'.enter l = .ok l' := by
  induction segments generalizing l with
  | nil => exact h
  | cons segment segments ih =>
    rw [List.foldlM_cons, bind_eq_ok_iff] at h
    obtain ⟨l₁, henter, h⟩ := h
    have hl₁ : (d'.holding? l₁).isSome = true := by
      cases segments with
      | nil => cases h; exact hl'
      | cons next segments =>
        rw [List.foldlM_cons, bind_eq_ok_iff] at h
        obtain ⟨l₂, hnext, -⟩ := h
        rw [hkept l₁ (directory_of_enter hnext)]
        rfl
    have hdir := directory_of_enter henter
    obtain ⟨es, hes⟩ := holding?_eq_directory_iff.1 hdir
    obtain ⟨es', hes'⟩ := holding?_eq_directory_iff.1 (hkept l hdir)
    have henter' : d'.enter l segment = .ok l₁ := by
      rw [enter_of_directory hes] at henter
      rw [enter_of_directory hes', ← henter]
      split
      · rfl
      · rename_i hfill
        split
        · rfl
        · rename_i hup
          rw [if_neg hfill, if_neg hup] at henter
          split
          · rfl
          · rename_i hlong
            rw [if_neg hlong] at henter
            split at henter
            · rename_i hfound
              cases henter
              rw [holding?_append_singleton hes', Option.isSome_map] at hl₁
              rw [if_pos hl₁, if_pos hfound]
            · cases henter
    rw [List.foldlM_cons, henter']
    exact ih h

/-! ## Following paths -/

theorem locate_eq_ok (h : d.locate p = .ok l) :
    p.location? = some l ∧ (d.holding? l).isSome = true := by
  unfold locate at h
  split at h
  · cases h
  · rename_i hp
    rw [Path.location?, if_neg hp]
    exact foldlM_enter_eq_ok (by rfl) h

theorem locate_of_kept (hkept : d.DirectoriesKept d') (h : d.locate p = .ok l)
    (hl : (d'.holding? l).isSome = true) : d'.locate p = .ok l := by
  unfold locate at h ⊢
  split at h
  · cases h
  · rename_i hp
    rw [if_neg hp]
    exact foldlM_enter_of_kept hkept h hl

/-- The file that a path leads to. -/
def fileOf? (d : Disk) (p : Path) : Option File :=
  match d.follow p with
  | .ok (.file f) => some f
  | _ => none

theorem follow_eq_ok_iff {x : Node} :
    d.follow p = .ok x ↔ ∃ l, d.locate p = .ok l ∧ d.get? l = some x := by
  unfold follow
  rw [bind_eq_ok_iff]
  refine exists_congr fun l => and_congr_right fun _ => ?_
  cases d.get? l with
  | none =>
    constructor
    · intro h; cases h
    · intro h; cases h
  | some y =>
    constructor
    · intro h; cases h; rfl
    · intro h; cases h; rfl

theorem fileOf?_eq_some_iff : d.fileOf? p = some f ↔
    ∃ l, d.locate p = .ok l ∧ d.holding? l = some (.file f) := by
  simp only [holding?_eq_file_iff, ← follow_eq_ok_iff, fileOf?]
  split
  · rename_i g hg
    rw [hg]
    simp
  · rename_i hfile
    constructor
    · intro h; cases h
    · exact fun h => absurd h (hfile f)

/-- A path leads to the file that stands at its location, if the directories on the way are still
there. -/
theorem fileOf?_of_kept (hkept : d.DirectoriesKept d') (h : d.locate p = .ok l)
    (hf : d'.holding? l = some (.file f)) : d'.fileOf? p = some f :=
  fileOf?_eq_some_iff.2 ⟨l, locate_of_kept hkept h (by rw [hf]; rfl), hf⟩

theorem fileOf?_of_read {text : String} (h : d.read p = .ok text) :
    ∃ f, d.fileOf? p = some f ∧ String.fromUTF8? f.bytes = some text := by
  unfold read at h
  obtain ⟨x, hx, h⟩ := bind_eq_ok_iff.1 h
  split at h
  · cases h
  · rename_i f
    split at h
    · rename_i htext
      cases h
      exact ⟨f, by rw [Disk.fileOf?, hx], htext⟩
    · cases h

theorem fromUTF8?_toUTF8 (text : String) : String.fromUTF8? text.toUTF8 = some text := by
  unfold String.fromUTF8?
  rw [String.toUTF8_eq_toByteArray, dif_pos text.isValidUTF8]
  rfl

theorem read_of_fileOf? {text : String} {mode : Nat} (h : d.fileOf? p = some ⟨text.toUTF8, mode⟩) :
    d.read p = .ok text := by
  unfold Disk.fileOf? at h
  split at h
  · rename_i f hfollow
    obtain rfl := Option.some.inj h
    rw [read, bind_eq_ok_iff]
    exact ⟨_, hfollow, by simp only [fromUTF8?_toUTF8]; rfl⟩
  · cases h

theorem lookUp_of_directory {es : List (String × Node)} (h : d.get? l = some (.directory es))
    {name : String} (hshort : ¬ name.utf8ByteSize > longestName) :
    d.lookUp l name = .ok (Node.find? name es) := by
  unfold lookUp
  rw [h]
  dsimp only
  rw [if_neg hshort]

/-- A path that leads to a file ends in the name of the file, and the segments in front of it lead to its
directory. -/
theorem exists_name_of_file (h : d.locate p = .ok l) (hfile : d.holding? l = some (.file f)) :
    ∃ before name l₀, (p.text == "" || p.isAbsolute) = false ∧ p.segments = before ++ [name] ∧
      Path.isFill name = false ∧ name ≠ ".." ∧ d.enterAll before = .ok l₀ ∧
      d.lookUp l₀ name = .ok (some (.file f)) ∧ l = l₀ ++ [name] := by
  obtain ⟨before, name, hsegments, -⟩ := p.exists_segments_backup
  unfold locate at h
  split at h
  · cases h
  · rename_i hp
    rw [enterAll, hsegments, List.foldlM_append, bind_eq_ok_iff] at h
    obtain ⟨l₀, hl₀, h⟩ := h
    rw [List.foldlM_cons, bind_eq_ok_iff] at h
    obtain ⟨l₁, henter, h⟩ := h
    cases h
    have hdir := directory_of_enter henter
    obtain ⟨es, hes⟩ := holding?_eq_directory_iff.1 hdir
    rw [enter_of_directory hes] at henter
    -- Only a name leads from a directory to a file.
    split at henter
    · cases henter
      rw [hdir] at hfile
      cases hfile
    · rename_i hfill
      split at henter
      · split at henter
        · cases henter
        · rename_i hempty
          cases henter
          rw [holding?_dropLast hdir (by simpa using hempty)] at hfile
          cases hfile
      · rename_i hup
        split at henter
        · cases henter
        · rename_i hshort
          split at henter
          · cases henter
            refine ⟨before, name, l₀, by simpa using hp, hsegments, by simpa using hfill,
              by simpa using hup, hl₀, ?_, rfl⟩
            rw [holding?_append_singleton hes, Option.map_eq_some_iff] at hfile
            obtain ⟨x, hx, hxf⟩ := hfile
            rw [lookUp_of_directory hes hshort, hx]
            cases x with
            | file g => cases hxf; rfl
            | directory => cases hxf
          · cases henter

/-- The backup of a file stands beside it, under its name with an ending. -/
theorem location?_backup_of_file (h : d.locate p = .ok l) (hfile : d.holding? l = some (.file f)) :
    ∃ l₀ name, l = l₀ ++ [name] ∧ p.backup.location? = some (l₀ ++ [name ++ ".bak"]) := by
  obtain ⟨before, name, l₀, hp, hsegments, -, -, hl₀, -, rfl⟩ := exists_name_of_file h hfile
  exact ⟨l₀, name, rfl, Path.location?_backup (Bool.or_eq_false_iff.1 hp).2 hsegments
    (foldlM_enter_eq_ok (by rfl) hl₀).1⟩

theorem lookUp_eq_ok {name : String} {x? : Option Node} (h : d.lookUp l name = .ok x?) :
    d.holding? l = some .directory ∧ x?.map Node.holding = d.holding? (l ++ [name]) := by
  unfold lookUp at h
  split at h
  · rename_i es hes
    split at h
    · cases h
    · cases h
      exact ⟨holding?_eq_directory_iff.2 ⟨es, hes⟩, (holding?_append_singleton hes name).symm⟩
  · cases h
  · cases h

theorem short_of_lookUp {name : String} {x? : Option Node} (h : d.lookUp l name = .ok x?) :
    ¬ name.utf8ByteSize > longestName := by
  intro hlong
  unfold lookUp at h
  split at h
  · rw [if_pos hlong] at h
    cases h
  · cases h
  · cases h

/-- A list up to the last element that is not of a kind, and those of the kind behind it. -/
theorem exists_append_of_dropWhile {α : Type} {q : α → Bool} {xs before : List α} {x : α}
    (h : xs.reverse.dropWhile q = x :: before) :
    ∃ ws, xs = before.reverse ++ x :: ws ∧ (∀ w ∈ ws, q w = true) ∧ q x = false := by
  refine ⟨(xs.reverse.takeWhile q).reverse, ?_, fun w hw => ?_, ?_⟩
  · have hall := congrArg List.reverse (List.takeWhile_append_dropWhile (p := q) (l := xs.reverse))
    rw [h, List.reverse_append, List.reverse_cons, List.reverse_reverse, List.append_assoc,
      List.singleton_append] at hall
    exact hall.symm
  · exact List.all_eq_true.1 List.all_takeWhile w (List.mem_reverse.1 hw)
  · have := List.head?_dropWhile_not q xs.reverse
    rw [h] at this
    simpa using this

/-- A spot is a name in a directory that the segments in front of it lead to. Behind the name there
are slashes only. -/
theorem exists_name_of_spot {found? : Option Node} {slash : Bool}
    (h : d.spot p = .ok (.location l found? slash)) :
    ∃ before name ws l₀, (p.text == "" || p.isAbsolute) = false ∧
      p.segments = before ++ name :: ws ∧ (∀ w ∈ ws, w = "") ∧ (ws = [] ∨ slash = true) ∧
      Path.isFill name = false ∧ name ≠ ".." ∧ l = l₀ ++ [name] ∧
      before.foldlM d.enter [] = .ok l₀ ∧ d.lookUp l₀ name = .ok found? := by
  unfold spot at h
  split at h
  · cases h
  · rename_i hp
    dsimp only at h
    split at h
    · cases h
    · rename_i name before hreverse
      rw [bind_eq_ok_iff] at h
      obtain ⟨l₀, hl₀, h⟩ := h
      split at h
      · rw [bind_eq_ok_iff] at h
        obtain ⟨-, -, h⟩ := h
        cases h
      · rename_i hdots
        rw [bind_eq_ok_iff] at h
        obtain ⟨x?, hfound, h⟩ := h
        injection h with h
        injection h with hl hx hslash
        subst hl hx
        obtain ⟨ws, hsegments, hws, hempty⟩ := exists_append_of_dropWhile hreverse
        simp only [beq_iff_eq] at hws
        rw [Bool.or_eq_true, not_or, beq_iff_eq, beq_iff_eq] at hdots
        refine ⟨_, name, ws, l₀, by simpa using hp, hsegments, hws, ?_, by
          simpa [Path.isFill, hdots.1] using hempty, hdots.2, rfl, hl₀, hfound⟩
        -- The last segment is empty if there is one behind the name.
        rcases List.eq_nil_or_concat ws with hnil | ⟨ws', w, rfl⟩
        · exact .inl hnil
        · refine .inr (hslash.symm.trans ?_)
          have hlast : (before.reverse ++ name :: (ws' ++ [w])).getLast? = some w := by
            rw [← List.cons_append, ← List.append_assoc, List.getLast?_concat]
          rw [hsegments, List.concat_eq_append, hlast, hws w (by simp)]
          rfl

/-- Where something may be made, and what is there. -/
theorem spot_eq_location {found? : Option Node} {slash : Bool}
    (h : d.spot p = .ok (.location l found? slash)) :
    p.location? = some l ∧ l ≠ [] ∧ d.holding? l.dropLast = some .directory ∧
      found?.map Node.holding = d.holding? l := by
  obtain ⟨before, name, ws, l₀, hp, hsegments, hws, -, hfill, hup, rfl, hl₀, hfound⟩ :=
    exists_name_of_spot h
  obtain ⟨hdir, hthere⟩ := lookUp_eq_ok hfound
  refine ⟨?_, by simp, by rwa [List.dropLast_concat], hthere⟩
  rw [Path.location?, hp, if_neg (by decide), hsegments, List.foldlM_append,
    (foldlM_enter_eq_ok (by rfl) hl₀).1, Option.bind_eq_bind, Option.bind_some, List.foldlM_cons,
    Path.advance_name hfill hup]
  exact Path.foldlM_advance_fill (fun w hw => by rw [hws w hw]; rfl) _

/-- A path without a slash behind leads to its spot once there is something, on every disk that has
the directories on the way. -/
theorem locate_of_spot {found? : Option Node} (h : d.spot p = .ok (.location l found? false))
    (hkept : d.DirectoriesKept d') (hl : (d'.holding? l).isSome = true) : d'.locate p = .ok l := by
  obtain ⟨before, name, ws, l₀, hp, hsegments, -, hslash, hfill, hup, rfl, hl₀, hfound⟩ :=
    exists_name_of_spot h
  obtain rfl : ws = [] := by simpa using hslash
  have hdir := (lookUp_eq_ok hfound).1
  obtain ⟨es', hes'⟩ := holding?_eq_directory_iff.1 (hkept l₀ hdir)
  have henter : d'.enter l₀ name = .ok (l₀ ++ [name]) := by
    rw [holding?_append_singleton hes', Option.isSome_map] at hl
    rw [enter_of_directory hes', hfill, if_neg (by decide), if_neg (by simpa using hup),
      if_neg (short_of_lookUp hfound), if_pos hl]
  have hbefore := foldlM_enter_of_kept hkept hl₀ (by rw [hkept l₀ hdir]; rfl)
  rw [locate, hp, if_neg (by decide), enterAll, hsegments, List.foldlM_append, hbefore]
  exact (congrArg (· >>= fun l => [].foldlM d'.enter l) henter).trans rfl

end Disk

end Renumber
