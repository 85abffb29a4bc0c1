import Renumber.Proofs.Diff.Script

/-!
# Sliding keeps what a script does

A script may take the place of another one if it leads wherever that one leads (`Yields`). Each way in
which a change moves on exchanges a few neighbouring runs for others that lead to the same lines: empty
runs go, changes of one kind join, changes of both kinds change places, and lines that come change
places with lines that stay if these are equal to some of them. So a script leads from the first lines of
two texts to their ends after its changes have slid (`leads_settle`).
-/

namespace Renumber.Diff

variable {α : Type} {old new : List α} {a b m n k : Nat} {r : Run} {s t u before after : Script}

/-- Wherever the one script leads, the other one leads as well. -/
def Yields (old new : List α) (s t : Script) : Prop :=
  ∀ ⦃i j i' j' : Nat⦄, Leads old new i j s i' j' → Leads old new i j t i' j'

theorem Yields.refl (old new : List α) (s : Script) : Yields old new s s := fun _ _ _ _ h => h

theorem Yields.trans (h : Yields old new s t) (h' : Yields old new t u) : Yields old new s u :=
  fun _ _ _ _ hs => h' (h hs)

/-- Runs in the middle of a script may give way to others. -/
theorem Yields.between (h : Yields old new s t) (before after : Script) :
    Yields old new (before ++ (s ++ after)) (before ++ (t ++ after)) := by
  intro i j i' j' hleads
  obtain ⟨i₁, j₁, hbefore, hleads⟩ := leads_append.1 hleads
  obtain ⟨i₂, j₂, hs, hafter⟩ := leads_append.1 hleads
  exact leads_append.2 ⟨i₁, j₁, hbefore, leads_append.2 ⟨i₂, j₂, h hs, hafter⟩⟩

/-! ## Runs exchanged for others -/

/-- A run without lines that stay may go. -/
theorem yields_drop (hkeep : r.fate = .keep) (hlength : r.length = 0) : Yields old new [r] [] := by
  intro i j i' j' h
  obtain ⟨fate, a, b, n⟩ := r
  obtain rfl : fate = .keep := hkeep
  obtain rfl : n = 0 := hlength
  obtain ⟨-, -, -, hrest⟩ := leads_keep.1 h
  exact hrest

/-- Changes of both kinds may change places. -/
theorem yields_swap {p : Run} (hp : p.fate ≠ .keep) (hr : r.fate ≠ .keep) (hne : p.fate ≠ r.fate) :
    Yields old new [p, r] [r, p] := by
  intro i j i' j' h
  obtain ⟨fate, a, b, m⟩ := p
  obtain ⟨fate', a', b', n⟩ := r
  cases fate with
  | keep => exact absurd rfl hp
  | delete =>
    cases fate' with
    | keep => exact absurd rfl hr
    | delete => exact absurd rfl hne
    | insert =>
      obtain ⟨rfl, h'⟩ := leads_delete.1 h
      obtain ⟨rfl, hrest⟩ := leads_insert.1 h'
      exact .insert a' (.delete b hrest)
  | insert =>
    cases fate' with
    | keep => exact absurd rfl hr
    | insert => exact absurd rfl hne
    | delete =>
      obtain ⟨rfl, h'⟩ := leads_insert.1 h
      obtain ⟨rfl, hrest⟩ := leads_delete.1 h'
      exact .delete b' (.insert a hrest)

/-- Changes of one kind may be one change. -/
theorem yields_grow {p : Run} (hp : p.fate ≠ .keep) (hfate : p.fate = r.fate) :
    Yields old new [p, r] [p.grow r.length] := by
  intro i j i' j' h
  obtain ⟨fate, a, b, m⟩ := p
  obtain ⟨fate', a', b', n⟩ := r
  obtain rfl : fate = fate' := hfate
  cases fate with
  | keep => exact absurd rfl hp
  | delete =>
    obtain ⟨rfl, h'⟩ := leads_delete.1 h
    obtain ⟨rfl, hrest⟩ := leads_delete.1 h'
    rw [Nat.add_assoc] at hrest
    exact .delete b hrest
  | insert =>
    obtain ⟨rfl, h'⟩ := leads_insert.1 h
    obtain ⟨rfl, hrest⟩ := leads_insert.1 h'
    rw [Nat.add_assoc] at hrest
    exact .insert a hrest

/-- Lines that stay may be one run with those that stay after them. -/
theorem yields_join {a' b' : Nat} :
    Yields old new [⟨.keep, a, b, m⟩, ⟨.keep, a', b', n⟩] [⟨.keep, a, b, m + n⟩] := by
  intro i j i' j' h
  obtain ⟨rfl, rfl, hsame, h'⟩ := leads_keep.1 h
  obtain ⟨rfl, rfl, hsame', hrest⟩ := leads_keep.1 h'
  rw [Nat.add_assoc, Nat.add_assoc] at hrest
  refine .keep ?_ hrest
  rw [← lines_append, ← lines_append, hsame, hsame']

/-- Lines that stay may be one run with those that stay before them. -/
theorem yields_joinUp {a' b' : Nat} :
    Yields old new [⟨.keep, a, b, n⟩, ⟨.keep, a', b', m⟩] [⟨.keep, a' - n, b' - n, m + n⟩] := by
  intro i j i' j' h
  have hjoin := yields_join h
  obtain ⟨rfl, rfl, -, h'⟩ := leads_keep.1 h
  obtain ⟨rfl, rfl, -, -⟩ := leads_keep.1 h'
  rwa [Nat.add_sub_cancel, Nat.add_sub_cancel, Nat.add_comm m]

section
variable [DecidableEq α]

/-- Lines that come behind lines that stay may come in front of those that they end with. -/
theorem yields_up {a' b' : Nat}
    (hk : commonEnd (Range.lines ⟨a, m⟩ old) (Range.lines ⟨b', n⟩ new) = k) :
    Yields old new [⟨.keep, a, b, m⟩, ⟨.insert, a', b', n⟩]
      [⟨.keep, a, b, m - k⟩, ⟨.insert, a' - k, b' - k, n⟩, ⟨.keep, a + m - k, b' + n - k, k⟩] := by
  intro i j i' j' h
  obtain ⟨rfl, rfl, hsame, h'⟩ := leads_keep.1 h
  obtain ⟨rfl, h''⟩ := leads_insert.1 h'
  obtain ⟨rfl, rfl, hold, hnew⟩ := leads_nil.1 h''
  have hlength : (Range.lines ⟨a, m⟩ old).length = m := length_lines hold
  have hlength' : (Range.lines ⟨b + m, n⟩ new).length = n := length_lines hnew
  have hkm := commonEnd_le_left (Range.lines ⟨a, m⟩ old) (Range.lines ⟨b + m, n⟩ new)
  have hkn := commonEnd_le_right (Range.lines ⟨a, m⟩ old) (Range.lines ⟨b + m, n⟩ new)
  have hend := drop_commonEnd (Range.lines ⟨a, m⟩ old) (Range.lines ⟨b + m, n⟩ new)
  rw [hk, hlength] at hkm
  rw [hk, hlength'] at hkn
  rw [hk, hlength, hlength', ← lines_to_end (n := k) (by omega), ← lines_to_end (n := k) (by omega),
    lines_lines (by omega), lines_lines (by omega)] at hend
  have hi : a + m - k = a + (m - k) := by omega
  have hj : b + m - k = b + (m - k) := by omega
  have hj' : b + m + n - k = b + (m - k) + n := by omega
  rw [hi, hj, hj']
  refine .keep (lines_congr (a := 0) hsame (by omega)) (.insert _ (leads_keep.2 ⟨rfl, rfl, ?_, ?_⟩))
  · rw [hend]
    congr 2
    omega
  · exact leads_nil.2 ⟨by omega, by omega, by omega, by omega⟩

/-- Lines that come in front of lines that stay may come behind those that they begin with. -/
theorem yields_down {a' b' : Nat}
    (hk : commonLength (Range.lines ⟨a, m⟩ old) (Range.lines ⟨b', n⟩ new) = k) :
    Yields old new [⟨.insert, a', b', n⟩, ⟨.keep, a, b, m⟩]
      [⟨.keep, a, b', k⟩, ⟨.insert, a' + k, b' + k, n⟩, ⟨.keep, a + k, b + k, m - k⟩] := by
  intro i j i' j' h
  obtain ⟨rfl, h'⟩ := leads_insert.1 h
  obtain ⟨rfl, rfl, hsame, h''⟩ := leads_keep.1 h'
  obtain ⟨rfl, rfl, hold, hnew⟩ := leads_nil.1 h''
  have hkm := commonLength_le_left (Range.lines ⟨a, m⟩ old) (Range.lines ⟨b', n⟩ new)
  have hkn := commonLength_le_right (Range.lines ⟨a, m⟩ old) (Range.lines ⟨b', n⟩ new)
  have hbegin := take_commonLength (Range.lines ⟨a, m⟩ old) (Range.lines ⟨b', n⟩ new)
  rw [hk, length_lines hold] at hkm
  rw [hk, length_lines (by omega)] at hkn
  have hfront : Range.lines ⟨a, k⟩ old = Range.lines ⟨b', k⟩ new := by
    have h₁ := lines_lines (a := 0) (b := k) (i := a) (m := m) (by omega) old
    have h₂ := lines_lines (a := 0) (b := k) (i := b') (m := n) (by omega) new
    rw [← Nat.add_zero a, ← h₁, ← Nat.add_zero b', ← h₂]
    rw [hk] at hbegin
    exact hbegin
  refine .keep hfront (.insert _ (leads_keep.2 ⟨rfl, by omega, ?_, ?_⟩))
  · have hj : b' + k + n = b' + n + k := by omega
    rw [hj]
    exact lines_congr hsame (by omega)
  · exact leads_nil.2 ⟨by omega, by omega, by omega, by omega⟩

end

namespace Focus

variable {kept run : Run}

/-- Lines that stay behind a run that has slid up join those that stay after them. -/
theorem yields_keptBelow (kept run : Run) (n : Nat) (after : Script) : Yields old new
    (⟨.keep, kept.old + kept.oldLength - n, run.new + run.newLength - n, n⟩ :: after)
    (keptBelow kept run n after) := by
  unfold keptBelow
  split
  · rename_i next rest
    split
    · rename_i hkeep
      obtain ⟨fate, a, b, m⟩ := next
      obtain rfl : fate = .keep := hkeep
      exact yields_joinUp.between [] rest
    · exact Yields.refl _ _ _
  · exact Yields.refl _ _ _

/-- Lines that stay in front of a run that has slid down join those that stay before them. -/
theorem yields_keptAbove (kept run : Run) (n : Nat) (before : Script) : Yields old new
    (before.reverse ++ [⟨.keep, kept.old, run.new, n⟩]) (keptAbove kept run n before).reverse := by
  unfold keptAbove
  split
  · rename_i previous rest
    split
    · rename_i hkeep
      obtain ⟨fate, a, b, m⟩ := previous
      obtain rfl : fate = .keep := hkeep
      rw [List.reverse_cons, List.reverse_cons, List.append_assoc]
      exact yields_join.between rest.reverse []
    · rw [← List.reverse_cons]
      exact Yields.refl _ _ _
  · exact Yields.refl _ _ _

/-- Of all runs that change something, only one of lines that come has new lines. -/
theorem insert_of_le (hrun : run.fate ≠ .keep) (hn : n ≤ (run.newLines new).length) (hpos : n ≠ 0) :
    run.fate = .insert := by
  cases hfate : run.fate with
  | keep => exact absurd hfate hrun
  | insert => rfl
  | delete =>
    rw [Run.newLines, Run.newLength, if_pos hfate, List.take_zero] at hn
    exact absurd (Nat.le_zero.1 hn) hpos

section
variable [DecidableEq α] (before : Script) (kept run : Run) (after : Script) (hkept : kept.fate = .keep)
  (hrun : run.fate ≠ .keep)
include hkept hrun

/-- A change that has lines in common with the end of those in front slides up past these. -/
theorem yields_slideUp (hk : commonEnd (kept.oldLines old) (run.newLines new) = k) (hpos : k ≠ 0) :
    Yields old new (before ++ ([kept, run] ++ after))
      (before ++ ([kept.shrink k, run.up k] ++ keptBelow kept run k after)) := by
  have hinsert := insert_of_le hrun (commonEnd_le_right (kept.oldLines old) (run.newLines new)) (by rwa [hk])
  have hbelow : Yields old new _ _ := (yields_keptBelow kept run k after).between
    (before ++ [kept.shrink k, run.up k]) []
  obtain ⟨fate, a, b, m⟩ := kept
  obtain rfl : fate = .keep := hkept
  obtain ⟨fate', a', b', n⟩ := run
  obtain rfl : fate' = .insert := hinsert
  rw [List.append_nil, List.append_nil, List.append_assoc, List.append_assoc] at hbelow
  exact ((yields_up hk).between before after).trans hbelow

/-- A change that has lines in common with the beginning of those behind it slides down past these. -/
theorem yields_slideDown (hk : commonLength (kept.oldLines old) (run.newLines new) = k)
    (hpos : k ≠ 0) : Yields old new (before.reverse ++ ([run, kept] ++ after))
      ((keptAbove kept run k before).reverse ++ ([run.down k, kept.shrinkDown k] ++ after)) := by
  have hinsert := insert_of_le hrun (commonLength_le_right (kept.oldLines old) (run.newLines new))
    (by rwa [hk])
  have habove : Yields old new _ _ := (yields_keptAbove kept run k before).between []
    ([run.down k, kept.shrinkDown k] ++ after)
  obtain ⟨fate, a, b, m⟩ := kept
  obtain rfl : fate = .keep := hkept
  obtain ⟨fate', a', b', n⟩ := run
  obtain rfl : fate' = .insert := hinsert
  rw [List.nil_append, List.nil_append, List.append_assoc] at habove
  exact ((yields_down hk).between before.reverse after).trans habove

end

section
variable [DecidableEq α]

/-- A change that moves up leaves a script that leads to the same lines, and stays what it is. -/
theorem yields_moveUp (before : Script) (run : Run) (after : Script) (hrun : run.fate ≠ .keep) :
    Yields old new (before.reverse ++ run :: after) (moveUp old new before run after).toScript ∧
      (moveUp old new before run after).run.fate = run.fate := by
  have hcons (previous : Run) (rest : Script) (run : Run) (after : Script) :
      (previous :: rest).reverse ++ run :: after = rest.reverse ++ ([previous, run] ++ after) := by
    simp
  fun_induction moveUp old new before run after with
  | case1 run after => exact ⟨Yields.refl _ _ _, rfl⟩
  | case2 run after previous rest hkeep k hk hlength ih =>
    obtain ⟨hyields, hfate⟩ := ih hrun
    refine ⟨Yields.trans ?_ hyields, hfate⟩
    rw [hcons]
    exact (yields_drop hkeep hlength).between rest.reverse (run :: after)
  | case3 run after previous rest => exact ⟨Yields.refl _ _ _, rfl⟩
  | case4 run after previous rest hkeep k hk hlt ih =>
    obtain ⟨hyields, hfate⟩ := ih hrun
    refine ⟨Yields.trans ?_ hyields, hfate⟩
    rw [hcons, hcons]
    exact yields_slideUp rest.reverse previous run after hkeep hrun rfl hk
  | case5 run after previous rest hkeep k hk hge ih =>
    obtain ⟨hyields, hfate⟩ := ih hrun
    refine ⟨Yields.trans ?_ hyields, hfate⟩
    rw [hcons]
    refine (yields_slideUp rest.reverse previous run after hkeep hrun rfl hk).trans ?_
    -- No line is left of the run that stayed in front.
    have hnone : (previous.shrink k).length = 0 := Nat.sub_eq_zero_of_le (Nat.not_lt.1 hge)
    have hdrop : Yields old new [previous.shrink k] [] := yields_drop hkeep hnone
    exact hdrop.between rest.reverse _
  | case6 run after previous rest hchange hsame ih =>
    obtain ⟨hyields, hfate⟩ := ih hchange
    refine ⟨Yields.trans ?_ hyields, hfate.trans hsame⟩
    rw [hcons]
    exact (yields_grow hchange hsame).between rest.reverse after
  | case7 run after previous rest hchange hother ih =>
    obtain ⟨hyields, hfate⟩ := ih hrun
    refine ⟨Yields.trans ?_ hyields, hfate⟩
    rw [hcons]
    exact (yields_swap hchange hrun hother).between rest.reverse after

/-- A change that moves down leaves a script that leads to the same lines. -/
theorem yields_moveDown (before : Script) (run : Run) (after : Script) (hrun : run.fate ≠ .keep) :
    Yields old new (before.reverse ++ run :: after) (moveDown old new before run after).toScript := by
  fun_induction moveDown old new before run after with
  | case1 before run => exact Yields.refl _ _ _
  | case2 before run next rest hkeep k hk hlength ih =>
    have hdrop : Yields old new [run, next] [run] := (yields_drop hkeep hlength).between [run] []
    exact (hdrop.between before.reverse rest).trans (ih hrun)
  | case3 before run next rest => exact Yields.refl _ _ _
  | case4 before run next rest hkeep k hk hlt ih =>
    exact (yields_slideDown before next run rest hkeep hrun rfl hk).trans (ih hrun)
  | case5 before run next rest hkeep k hk hge ih =>
    refine (yields_slideDown before next run rest hkeep hrun rfl hk).trans (Yields.trans ?_ (ih hrun))
    have hnone : (next.shrinkDown k).length = 0 := Nat.sub_eq_zero_of_le (Nat.not_lt.1 hge)
    have hdrop : Yields old new [next.shrinkDown k] [] := yields_drop hkeep hnone
    exact (hdrop.between [run.down k] []).between _ rest
  | case6 before run next rest hchange hsame ih =>
    exact ((yields_grow hrun hsame.symm).between before.reverse rest).trans (ih hrun)
  | case7 before run next rest hchange hother ih =>
    refine Yields.trans ?_ (ih hrun)
    rw [List.reverse_cons, List.append_assoc]
    exact (yields_swap hrun hchange (Ne.symm hother)).between before.reverse rest

end

end Focus

section
variable [DecidableEq α]

/-- Sliding the changes of a fate leaves a script that leads to the same lines. -/
theorem yields_slide {fate : Fate} (hfate : fate ≠ .keep) (bound : Nat) (before after : Script) :
    Yields old new (before.reverse ++ after) (slide fate old new bound before after) := by
  fun_induction slide fate old new bound before after with
  | case1 before after => exact Yields.refl _ _ _
  | case2 bound before =>
    rw [List.append_nil]
    exact Yields.refl _ _ _
  | case3 bound before run after hsame up =>
    rename_i down ih
    have hrun : run.fate ≠ .keep := hsame ▸ hfate
    obtain ⟨hup, hupfate⟩ : Yields old new _ _ ∧ _ := Focus.yields_moveUp before run after hrun
    have hdown : Yields old new (up.before.reverse ++ up.run :: up.after) down.toScript :=
      Focus.yields_moveDown up.before up.run up.after (hupfate ▸ hrun)
    refine hup.trans (hdown.trans ?_)
    rw [List.reverse_cons, List.append_assoc] at ih
    exact ih
  | case4 bound before run after hother ih =>
    rw [List.reverse_cons, List.append_assoc] at ih
    exact ih

/-- The script of two texts leads from their first lines to their ends, also after its changes have
slid. -/
theorem leads_settle (old new : List α) :
    Leads old new 0 0 (settle old new (scriptFrom 0 0 old new)) old.length new.length := by
  have hscript := leads_scriptFrom (Has.refl old) (Has.refl new)
  rw [Nat.zero_add, Nat.zero_add] at hscript
  exact yields_slide (by decide) _ [] _ (yields_slide (by decide) _ [] _ hscript)

end

end Renumber.Diff
