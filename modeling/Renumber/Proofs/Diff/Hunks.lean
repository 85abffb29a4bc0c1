import Mathlib.Data.List.SplitBy
import Renumber.Proofs.Diff.Slide

/-!
# What hunks do

Hunks turn one text into another (`Turns`) if each is said to start where it does in both texts, and what
is between them is the same in both. Then the ranges of their headers come one after the other and lie in
the texts (`Turns.pairwise`, `Turns.inside`), the lines outside them are the same in both texts
(`Turns.outside_eq`), and the old text with the new lines for the old ones is the new text
(`Turns.substitute_eq`).

The hunks of a script do that if the changes that it may begin with are where both texts begin
(`turns_hunks`). The header of a hunk says where the lines before it end, and these are where the script
has them. A hunk without lines before it, which only the first one can be, says where its first run of
each kind is; and a run on its own may have come there from elsewhere, so it need not be right on the side
that it has no lines of.
-/

namespace Renumber.Diff

variable {α : Type} {old new text : List α} {i j i' j' n : Nat}

/-- The old lines of a hunk as its header has them. -/
def Hunk.oldRange (h : Hunk) : Range := ⟨h.oldStart, h.old.length⟩

/-- The new lines of a hunk as its header has them. -/
def Hunk.newRange (h : Hunk) : Range := ⟨h.newStart, h.new.length⟩

namespace Range

/-- The line after the range. -/
def stop (r : Range) : Nat := r.start + r.length

/-- The line of a number is in the range. -/
def has (r : Range) (k : Nat) : Bool := r.start ≤ k && k < r.stop

end Range

/-- The line of a number is in none of some ranges. -/
def isOutside (rs : List Range) (k : Nat) : Bool := rs.all fun r => !r.has k

/-- The lines of a text that are in none of some ranges. -/
def outside (rs : List Range) (text : List α) : List α :=
  (text.zipIdx.filter fun line => isOutside rs line.2).map Prod.fst

/-- A text from a line on, with other lines for those of some ranges. -/
def substitute (text : List α) : Nat → List (Range × List α) → List α
  | i, [] => text.drop i
  | i, (r, ls) :: rest =>
    Range.lines ⟨i, r.start - i⟩ text ++ ls ++ substitute text r.stop rest

/-! ## The lines outside some ranges -/

/-- The lines of a text from a line on that are in none of some ranges. -/
def outsideFrom (i : Nat) (rs : List Range) (text : List α) : List α :=
  (((text.drop i).zipIdx i).filter fun line => isOutside rs line.2).map Prod.fst

section
variable {rs : List Range} (hn : i + n ≤ text.length)
include hn

theorem outsideFrom_eq (rs : List Range) : outsideFrom i rs text =
    (((Range.lines ⟨i, n⟩ text).zipIdx i).filter fun line => isOutside rs line.2).map Prod.fst ++
      outsideFrom (i + n) rs text := by
  rw [outsideFrom, ← lines_append_drop i n, List.zipIdx_append, length_lines hn, List.filter_append,
    List.map_append]
  rfl

/-- Lines in front of all ranges are outside. -/
theorem outsideFrom_of_le (h : ∀ r ∈ rs, i + n ≤ r.start) :
    outsideFrom i rs text = Range.lines ⟨i, n⟩ text ++ outsideFrom (i + n) rs text := by
  have hall : ∀ line ∈ (Range.lines ⟨i, n⟩ text).zipIdx i, isOutside rs line.2 = true := by
    intro line hline
    have hlt := List.snd_lt_add_of_mem_zipIdx hline
    rw [length_lines hn] at hlt
    refine List.all_eq_true.2 fun r hr => ?_
    have hstart := h r hr
    rw [Bool.not_eq_true', Range.has, Bool.and_eq_false_iff, decide_eq_false_iff_not]
    exact .inl (by omega)
  rw [outsideFrom_eq hn, List.filter_eq_self.2 hall, List.zipIdx_map_fst]

/-- The lines of the first range are not outside. -/
theorem outsideFrom_cons (rs : List Range) :
    outsideFrom i (⟨i, n⟩ :: rs) text = outsideFrom (i + n) rs text := by
  have hnone : ∀ line ∈ (Range.lines ⟨i, n⟩ text).zipIdx i,
      ¬ isOutside (⟨i, n⟩ :: rs) line.2 = true := by
    intro line hline
    have hlt := List.snd_lt_add_of_mem_zipIdx hline
    have hle := List.le_snd_of_mem_zipIdx hline
    rw [length_lines hn] at hlt
    simp [isOutside, Range.has, Range.stop, hle, hlt]
  have hrest : ∀ line ∈ (text.drop (i + n)).zipIdx (i + n),
      isOutside (⟨i, n⟩ :: rs) line.2 = isOutside rs line.2 := by
    intro line hline
    have hle := List.le_snd_of_mem_zipIdx hline
    have hhas : (⟨i, n⟩ : Range).has line.2 = false := by
      rw [Range.has, Bool.and_eq_false_iff, decide_eq_false_iff_not, decide_eq_false_iff_not]
      exact .inr (Nat.not_lt.2 hle)
    rw [isOutside, List.all_cons, hhas]
    rfl
  rw [outsideFrom_eq hn, List.filter_eq_nil_iff.2 hnone, List.map_nil, List.nil_append, outsideFrom,
    List.filter_congr hrest]
  rfl

end

/-! ## Other lines for some ranges -/

/-- Lines in front of all ranges stay. -/
theorem substitute_of_le {ps : List (Range × List α)} (h : ∀ p ∈ ps, i + n ≤ p.1.start) :
    substitute text i ps = Range.lines ⟨i, n⟩ text ++ substitute text (i + n) ps := by
  cases ps with
  | nil => exact (lines_append_drop i n text).symm
  | cons p ps =>
    obtain ⟨r, ls⟩ := p
    have hstart : i + n ≤ r.start := h _ List.mem_cons_self
    have hsplit : r.start - i = n + (r.start - (i + n)) := by omega
    rw [substitute, substitute, hsplit, ← lines_append, List.append_assoc, List.append_assoc,
      List.append_assoc]

/-! ## Texts turned into each other -/

/-- The hunks turn the old text from a line on into the new text from a line on. -/
inductive Turns (old new : List α) : Nat → Nat → List Hunk → Prop
  | nil : Turns old new old.length new.length []
  | keep {i j n : Nat} {hs : List Hunk} (same : Range.lines ⟨i, n⟩ old = Range.lines ⟨j, n⟩ new)
      (rest : Turns old new (i + n) (j + n) hs) : Turns old new i j hs
  | hunk {h : Hunk} {hs : List Hunk} (oldLines : h.old.lines old = h.oldRange.lines old)
      (newLines : h.new.lines new = h.newRange.lines new)
      (rest : Turns old new h.oldRange.stop h.newRange.stop hs) :
      Turns old new h.oldStart h.newStart (h :: hs)

namespace Turns

variable {hs : List Hunk}

theorem bounds (h : Turns old new i j hs) : i ≤ old.length ∧ j ≤ new.length := by
  induction h with
  | nil => exact ⟨Nat.le_refl _, Nat.le_refl _⟩
  | keep same rest ih => omega
  | hunk oldLines newLines rest ih =>
    simp only [Range.stop, Hunk.oldRange, Hunk.newRange] at ih
    omega

/-- The ranges of the headers lie in the texts, and behind where the hunks begin to turn. -/
theorem inside (h : Turns old new i j hs) : ∀ g ∈ hs,
    i ≤ g.oldStart ∧ g.oldRange.stop ≤ old.length ∧ j ≤ g.newStart ∧ g.newRange.stop ≤ new.length := by
  induction h with
  | nil => simp
  | keep same rest ih =>
    intro g hg
    have hinside := ih g hg
    omega
  | hunk oldLines newLines rest ih =>
    intro g hg
    have hbounds := rest.bounds
    rcases List.mem_cons.1 hg with rfl | hg
    · exact ⟨Nat.le_refl _, hbounds.1, Nat.le_refl _, hbounds.2⟩
    · have hinside := ih g hg
      simp only [Range.stop, Hunk.oldRange, Hunk.newRange] at hinside ⊢
      omega

/-- The ranges of the headers come one after the other. -/
theorem pairwise (h : Turns old new i j hs) : hs.Pairwise fun g g' =>
    g.oldRange.stop ≤ g'.oldRange.start ∧ g.newRange.stop ≤ g'.newRange.start := by
  induction h with
  | nil => exact .nil
  | keep same rest ih => exact ih
  | hunk oldLines newLines rest ih =>
    refine .cons (fun g hg => ?_) ih
    have hinside := rest.inside g hg
    exact ⟨hinside.1, hinside.2.2.1⟩

/-- The lines of a hunk are those that its header says. -/
theorem lines_eq (h : Turns old new i j hs) : ∀ g ∈ hs,
    g.old.lines old = g.oldRange.lines old ∧ g.new.lines new = g.newRange.lines new := by
  induction h with
  | nil => simp
  | keep same rest ih => exact ih
  | hunk oldLines newLines rest ih =>
    intro g hg
    rcases List.mem_cons.1 hg with rfl | hg
    · exact ⟨oldLines, newLines⟩
    · exact ih g hg

/-- Without hunks nothing is turned. -/
theorem drop_eq (h : Turns old new i j []) : old.drop i = new.drop j := by
  generalize hnil : ([] : List Hunk) = hs at h
  induction h with
  | nil => rw [List.drop_length, List.drop_length]
  | @keep i j n hs same rest ih =>
    rw [← lines_append_drop i n, ← lines_append_drop j n, same, ih hnil]
  | hunk => cases hnil

/-- Outside the ranges of the headers the texts have the same lines. -/
theorem outside_eq (h : Turns old new i j hs) :
    outsideFrom i (hs.map Hunk.oldRange) old = outsideFrom j (hs.map Hunk.newRange) new := by
  induction h with
  | nil => simp [outsideFrom]
  | @keep i j n hs same rest ih =>
    obtain ⟨hold, hnew⟩ := rest.bounds
    have holdStart : ∀ r ∈ hs.map Hunk.oldRange, i + n ≤ r.start := by
      intro r hr
      obtain ⟨g, hg, rfl⟩ := List.mem_map.1 hr
      exact (rest.inside g hg).1
    have hnewStart : ∀ r ∈ hs.map Hunk.newRange, j + n ≤ r.start := by
      intro r hr
      obtain ⟨g, hg, rfl⟩ := List.mem_map.1 hr
      exact (rest.inside g hg).2.2.1
    rw [outsideFrom_of_le hold holdStart, outsideFrom_of_le hnew hnewStart, same, ih]
  | hunk oldLines newLines rest ih =>
    obtain ⟨hold, hnew⟩ := rest.bounds
    rw [List.map_cons, List.map_cons]
    exact (outsideFrom_cons hold _).trans (ih.trans (outsideFrom_cons hnew _).symm)

/-- With the new lines of the hunks for the old ones, the old text is the new one. -/
theorem substitute_eq (h : Turns old new i j hs) :
    substitute old i (hs.map fun g => (g.oldRange, g.newRange.lines new)) = new.drop j := by
  induction h with
  | nil => simp [substitute]
  | @keep i j n hs same rest ih =>
    have hstart : ∀ p ∈ hs.map fun g => (g.oldRange, g.newRange.lines new), i + n ≤ p.1.start := by
      intro p hp
      obtain ⟨g, hg, rfl⟩ := List.mem_map.1 hp
      exact (rest.inside g hg).1
    rw [substitute_of_le hstart, ih, same, lines_append_drop]
  | @hunk g hs oldLines newLines rest ih =>
    rw [List.map_cons, substitute, ih, Hunk.oldRange, Nat.sub_self, lines_zero, List.nil_append]
    exact lines_append_drop _ _ new

end Turns

/-! ## Groups of a script -/

variable {g s : Script} {r : Run}

/-- Lines that stay, as one group. -/
theorem Leads.keepGroup (h : Leads old new i j g i' j') (hkeep : ∀ r ∈ g, r.fate = .keep) :
    i' = i + Run.totalLength g ∧ j' = j + Run.totalLength g ∧
      (∀ r ∈ g.head?, r.old = i ∧ r.new = j) ∧
      ∀ hs, Turns old new i' j' hs → Turns old new i j hs := by
  induction h with
  | nil => exact ⟨rfl, rfl, by simp, fun _ h => h⟩
  | @keep i j n i' j' s same rest ih =>
    obtain ⟨rfl, rfl, -, hturns⟩ := ih fun r hr => hkeep r (List.mem_cons_of_mem _ hr)
    refine ⟨Nat.add_assoc _ _ _, Nat.add_assoc _ _ _, ?_, fun hs h => .keep same (hturns hs h)⟩
    rintro r hr
    obtain rfl := Option.some.inj hr
    exact ⟨rfl, rfl⟩
  | delete b rest => cases hkeep _ List.mem_cons_self
  | insert a rest => cases hkeep _ List.mem_cons_self

/-- The runs of a group that have one fate. -/
def ofFate (fate : Fate) (g : Script) : Script := g.filter fun r => r.fate = fate

/-- Changes without lines that stay between them, as one group: the old lines that go follow each other,
and so do the new lines that come. -/
theorem Leads.changeGroup (h : Leads old new i j g i' j') (hchange : ∀ r ∈ g, r.fate ≠ .keep) :
    i' = i + Run.totalLength (ofFate .delete g) ∧ j' = j + Run.totalLength (ofFate .insert g) ∧
      (∀ r ∈ (ofFate .delete g).head?, r.old = i) ∧ ∀ r ∈ (ofFate .insert g).head?, r.new = j := by
  induction h with
  | nil => exact ⟨rfl, rfl, by simp [ofFate], by simp [ofFate]⟩
  | keep same rest => exact absurd rfl (hchange _ List.mem_cons_self)
  | @delete i j n i' j' b s rest ih =>
    obtain ⟨rfl, rfl, -, hinsert⟩ := ih fun r hr => hchange r (List.mem_cons_of_mem _ hr)
    exact ⟨Nat.add_assoc _ _ _, rfl, by simp [ofFate], hinsert⟩
  | @insert i j n i' j' a s rest ih =>
    obtain ⟨rfl, rfl, hdelete, -⟩ := ih fun r hr => hchange r (List.mem_cons_of_mem _ hr)
    exact ⟨rfl, Nat.add_assoc _ _ _, hdelete, by simp [ofFate]⟩

theorem rangesOf_nil {fate : Fate} (h : ofFate fate g = []) : Script.rangesOf fate g = none := by
  unfold Script.rangesOf
  rw [show g.filter (fun r => r.fate = fate) = [] from h]

theorem rangesOf_cons {fate : Fate} {rs : Script} (h : ofFate fate g = r :: rs) :
    Script.rangesOf fate g =
      some (⟨r.old, if fate = .insert then 0 else Run.totalLength (r :: rs)⟩,
        ⟨r.new, if fate = .delete then 0 else Run.totalLength (r :: rs)⟩) := by
  unfold Script.rangesOf
  rw [show g.filter (fun r => r.fate = fate) = r :: rs from h]

/-- The ranges of a group of changes are as long as it leads on in each text, and where it begins if
they have lines. -/
theorem Leads.changed (h : Leads old new i j g i' j') (hchange : ∀ r ∈ g, r.fate ≠ .keep) :
    i + (Script.changed g).1.length = i' ∧ j + (Script.changed g).2.length = j' ∧
      (Script.changed g).1.lines old = Range.lines ⟨i, (Script.changed g).1.length⟩ old ∧
      (Script.changed g).2.lines new = Range.lines ⟨j, (Script.changed g).2.length⟩ new := by
  obtain ⟨rfl, rfl, hold, hnew⟩ := h.changeGroup hchange
  unfold Script.changed
  cases hdelete : ofFate .delete g with
  | nil =>
    rw [rangesOf_nil hdelete]
    cases hinsert : ofFate .insert g with
    | nil =>
      rw [rangesOf_nil hinsert]
      exact ⟨rfl, rfl, by simp, by simp⟩
    | cons r rs =>
      rw [hinsert] at hnew
      have hr : r.new = j := hnew r rfl
      rw [rangesOf_cons hinsert]
      exact ⟨rfl, rfl, by simp, by simp [hr]⟩
  | cons d ds =>
    rw [hdelete] at hold
    have hd : d.old = i := hold d rfl
    rw [rangesOf_cons hdelete]
    cases hinsert : ofFate .insert g with
    | nil =>
      rw [rangesOf_nil hinsert]
      exact ⟨rfl, rfl, by simp [hd], by simp⟩
    | cons r rs =>
      rw [hinsert] at hnew
      have hr : r.new = j := hnew r rfl
      rw [rangesOf_cons hinsert]
      exact ⟨rfl, rfl, by simp [hd], by simp [hr]⟩

/-! ## The hunks of a script -/

/-- The changes that a script begins with, if it begins with changes, are where both texts begin. -/
def FromTop (s : Script) : Prop :=
  ∀ g ∈ (s.splitBy Script.together).head?,
    (Script.changed g).1.start = 0 ∧ (Script.changed g).2.start = 0

instance : DecidablePred FromTop := fun s =>
  inferInstanceAs (Decidable (∀ g ∈ (s.splitBy Script.together).head?,
    (Script.changed g).1.start = 0 ∧ (Script.changed g).2.start = 0))

/-- In a group all runs stay or none does. -/
theorem staying_or_changing (hg : g.IsChain fun r s => Script.together r s = true) :
    (∀ r ∈ g, r.fate = .keep) ∨ ∀ r ∈ g, r.fate ≠ .keep := by
  induction g with
  | nil => exact .inl (by simp)
  | cons r g ih =>
    cases g with
    | nil =>
      by_cases hr : r.fate = .keep
      · exact .inl (by simpa using hr)
      · exact .inr (by simpa using hr)
    | cons s g =>
      obtain ⟨htogether, hg⟩ := List.isChain_cons_cons.1 hg
      have hiff : r.fate = .keep ↔ s.fate = .keep := by
        rw [Script.together, beq_iff_eq, Bool.eq_iff_iff, beq_iff_eq, beq_iff_eq] at htogether
        exact htogether
      rcases ih hg with hkeep | hchange
      · exact .inl (List.forall_mem_cons.2 ⟨hiff.2 (hkeep s List.mem_cons_self), hkeep⟩)
      · exact .inr (List.forall_mem_cons.2 ⟨fun hr => hchange s List.mem_cons_self (hiff.1 hr), hchange⟩)

/-- The groups are those of a script: none is empty, in each all runs stay or none does, and a group ends
where that changes. -/
structure Grouped (gs : List Script) : Prop where
  ne_nil : ∀ g ∈ gs, g ≠ []
  alike : ∀ g ∈ gs, (∀ r ∈ g, r.fate = .keep) ∨ ∀ r ∈ g, r.fate ≠ .keep
  turn : gs.IsChain fun g g' =>
    ∃ (hg : g ≠ []) (hg' : g' ≠ []), Script.together (g.getLast hg) (g'.head hg') = false

theorem grouped_splitBy (s : Script) : Grouped (s.splitBy Script.together) where
  ne_nil _ hg := List.ne_nil_of_mem_splitBy hg
  alike _ hg := staying_or_changing (List.isChain_of_mem_splitBy hg)
  turn := List.isChain_getLast_head_splitBy Script.together s

theorem Grouped.tail {gs : List Script} (h : Grouped (g :: gs)) : Grouped gs where
  ne_nil _ hg := h.ne_nil _ (List.mem_cons_of_mem _ hg)
  alike _ hg := h.alike _ (List.mem_cons_of_mem _ hg)
  turn := h.turn.tail

/-- Behind a group of changes there are lines that stay. -/
theorem Grouped.stays_of_changes {gs : List Script} {g' : Script} (h : Grouped (g :: g' :: gs))
    (hchange : ∀ r ∈ g, r.fate ≠ .keep) : ∀ r ∈ g', r.fate = .keep := by
  obtain ⟨⟨hg, hg', hturn⟩, -⟩ := List.isChain_cons_cons.1 h.turn
  rcases h.alike g' (List.mem_cons_of_mem _ List.mem_cons_self) with hkeep | hchange'
  · exact hkeep
  · have hlast := hchange _ (List.getLast_mem hg)
    have hhead := hchange' _ (List.head_mem hg')
    rw [Script.together, beq_eq_false_iff_ne.2 hlast, beq_eq_false_iff_ne.2 hhead] at hturn
    cases hturn

/-- The hunks of some groups turn what is left of the texts into each other. A group of changes is behind
lines that stay, which say where it begins, or it is the first one and its ranges say that. -/
theorem turns_hunksAfter {gs : List Script} {last? : Option (Nat × Nat)} (hgs : Grouped gs)
    (h : Leads old new i j gs.flatten old.length new.length)
    (hlast : ∀ g ∈ gs.head?, (∀ r ∈ g, r.fate ≠ .keep) →
      last? = some (i, j) ∨
        last? = none ∧ (Script.changed g).1.start = i ∧ (Script.changed g).2.start = j) :
    Turns old new i j (Script.hunksAfter last? gs) := by
  induction gs generalizing i j last? with
  | nil =>
    obtain ⟨rfl, rfl, -⟩ := leads_nil.1 h
    exact .nil
  | cons g gs ih =>
    rw [List.flatten_cons] at h
    obtain ⟨i', j', hg, hrest⟩ := leads_append.1 h
    have hne := hgs.ne_nil g List.mem_cons_self
    rw [Script.hunksAfter]
    rcases hgs.alike g List.mem_cons_self with hkeep | hchange
    · obtain ⟨hi, hj, hfirst, hturns⟩ := hg.keepGroup hkeep
      obtain ⟨r, g, rfl⟩ := List.exists_cons_of_ne_nil hne
      obtain ⟨hold, hnew⟩ := hfirst r rfl
      have hend : Script.endOf (r :: g) = some (i', j') := by
        rw [Script.endOf, hi, hj, ← hold, ← hnew]
        rfl
      rw [if_pos (by simpa using hkeep), hend]
      exact hturns _ (ih hgs.tail hrest fun _ _ _ => .inl rfl)
    · have hsome : ¬ (g.all fun r => r.fate == .keep) = true := by
        obtain ⟨r, g, rfl⟩ := List.exists_cons_of_ne_nil hne
        simp [hchange r List.mem_cons_self]
      obtain ⟨hi, hj, hold, hnew⟩ := hg.changed hchange
      have hstart : last?.getD ((Script.changed g).1.start, (Script.changed g).2.start) = (i, j) := by
        rcases hlast g rfl hchange with hlast | ⟨hlast, hi, hj⟩
        · rw [hlast]
          rfl
        · rw [hlast, hi, hj]
          rfl
      rw [if_neg hsome]
      dsimp only
      rw [hstart]
      subst hi hj
      refine Turns.hunk (h := ⟨i, j, (Script.changed g).1, (Script.changed g).2⟩) hold hnew
        (ih hgs.tail hrest fun g' hg' hchange' => ?_)
      -- The next group is one of lines that stay.
      obtain ⟨gs', rfl⟩ : ∃ gs', gs = g' :: gs' := List.head?_eq_some_iff.1 hg'
      obtain ⟨r, hr⟩ := List.exists_mem_of_ne_nil g'
        (hgs.ne_nil g' (List.mem_cons_of_mem _ List.mem_cons_self))
      exact absurd (hgs.stays_of_changes hchange r hr) (hchange' r hr)

/-- The hunks of a script that leads from the first lines of two texts to their ends turn the one into
the other, if the changes that it may begin with are where both begin. -/
theorem turns_hunks {s : Script} (h : Leads old new 0 0 s old.length new.length) (htop : FromTop s) :
    Turns old new 0 0 s.hunks := by
  have hflatten := List.flatten_splitBy Script.together s
  exact turns_hunksAfter (grouped_splitBy s) (by rwa [hflatten]) fun g hg _ => .inr ⟨rfl, htop g hg⟩

/-- A line that goes at the top, but came there from below: it keeps the new line that it was at. -/
example : (hunks [2, 1, 5] [1, 0, 1]).map (fun h => (h.oldRange, h.newRange)) =
    [(⟨0, 1⟩, ⟨2, 0⟩), (⟨2, 1⟩, ⟨1, 2⟩)] := by
  decide +kernel

end Renumber.Diff
