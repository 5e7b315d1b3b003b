import CompatChanges.Proofs.Run

/-!
# When a view is written

The count of conflicts is kept while fragments come and go. It is nevertheless a function of the
changes held: what the distinct ids and the distinct names leave over. A view is therefore written
exactly when no id and no name occurs twice.
-/

namespace CompatChanges

open Merger

/-- The number of distinct values that the changes have for `key`. -/
def distinctCount (key : Key) (changes : List Change) : Nat :=
  (changes.filterMap (·.key? key)).toFinset.card

/-- No two of the changes share a value of `key`. -/
def Unshared (key : Key) (changes : List Change) : Prop :=
  changes.Pairwise fun left right =>
    ∀ value, left.key? key = some value → right.key? key ≠ some value

theorem Change.id?_eq (change : Change) : change.id? = change.key? .id := rfl

theorem Change.name?_eq (change : Change) : change.name? = change.key? .name := rfl

theorem valuesOf_definitionsOf (key : Key) (changes : List Change) :
    valuesOf key (definitionsOf changes) = changes.filterMap (·.key? key) := by
  induction changes with
  | nil => rfl
  | cons change rest ih =>
    have hchange : valuesOf key change.definitions = (change.key? key).toList := by
      unfold valuesOf Change.definitions Change.definition?
      cases key <;> cases change.key? .id <;> cases change.key? .name <;> rfl
    rw [definitionsOf_cons, valuesOf_append, hchange, ih]
    cases hkey : change.key? key <;> simp [hkey]

section Keyed

variable {changes : List Change} (hkeyed : ∀ change ∈ changes, change.missingKey? = none)

include hkeyed

theorem length_definitionsOf : (definitionsOf changes).length = 2 * changes.length := by
  induction changes with
  | nil => rfl
  | cons change rest ih =>
    obtain ⟨hfirst, hothers⟩ := List.forall_mem_cons.mp hkeyed
    obtain ⟨hid, hname⟩ := missingKey?_eq_none_iff.mp hfirst
    have hchange : change.definitions.length = 2 := by
      rw [Change.id?_eq] at hid
      rw [Change.name?_eq] at hname
      obtain ⟨id, hid⟩ := Option.isSome_iff_exists.mp hid
      obtain ⟨name, hname⟩ := Option.isSome_iff_exists.mp hname
      simp [Change.definitions, Change.definition?, hid, hname]
    have hrest := ih hothers
    rw [definitionsOf_cons, List.length_append, hchange, hrest, List.length_cons]
    omega

theorem length_filterMap_key? (key : Key) :
    (changes.filterMap (·.key? key)).length = changes.length := by
  rw [List.length_filterMap_eq_countP, List.countP_eq_length]
  intro change hmem
  obtain ⟨hid, hname⟩ := missingKey?_eq_none_iff.mp (hkeyed change hmem)
  cases key with
  | id => exact hid
  | name => exact hname

theorem distinctCount_le (key : Key) : distinctCount key changes ≤ changes.length := by
  rw [← length_filterMap_key? hkeyed key]
  exact List.toFinset_card_le _

theorem distinctCount_eq_length_iff (key : Key) :
    distinctCount key changes = changes.length ↔ Unshared key changes := by
  have hnodup : distinctCount key changes = (changes.filterMap (·.key? key)).length ↔
      (changes.filterMap (·.key? key)).Nodup := by
    rw [← Multiset.coe_nodup, ← Multiset.toFinset_card_eq_card_iff_nodup]
    rfl
  rw [← length_filterMap_key? hkeyed key, hnodup, List.Nodup, List.pairwise_filterMap]
  refine List.Pairwise.iff fun left right => ⟨fun hne value hleft hright => ?_, fun hne => ?_⟩
  · exact hne value hleft value hright rfl
  · rintro value hleft _ hright rfl
    exact hne value hleft hright

end Keyed

namespace Merger

variable {σ : Type} {merger : Merger σ}

/-- The count of conflicts is what distinct ids and distinct names leave over. -/
theorem Sound.conflictCount_add (hsound : merger.Sound)
    (hdetect : merger.options.detectConflicts = true) :
    merger.conflictCount + distinctCount .id merger.changes + distinctCount .name merger.changes =
      2 * merger.changes.length := by
  have hkeyed := hsound.keyed
  have hcount := hsound.knows.count
  rw [tracked_of_detects hdetect] at hkeyed hcount
  have hsum := length_conflictsOf_add_card (definitionsOf merger.changes)
  rw [valuesOf_definitionsOf, valuesOf_definitionsOf, length_definitionsOf hkeyed] at hsum
  rw [conflictCount, hcount]
  exact hsum

theorem Sound.conflictCount_eq (hsound : merger.Sound)
    (hdetect : merger.options.detectConflicts = true) :
    merger.conflictCount =
      (merger.changes.length - distinctCount .id merger.changes) +
        (merger.changes.length - distinctCount .name merger.changes) := by
  have hkeyed := hsound.keyed
  rw [tracked_of_detects hdetect] at hkeyed
  have hsum := hsound.conflictCount_add hdetect
  have hid := distinctCount_le hkeyed .id
  have hname := distinctCount_le hkeyed .name
  omega

theorem Sound.conflictCount_eq_zero_iff (hsound : merger.Sound)
    (hdetect : merger.options.detectConflicts = true) :
    merger.conflictCount = 0 ↔ Unshared .id merger.changes ∧ Unshared .name merger.changes := by
  have hkeyed := hsound.keyed
  rw [tracked_of_detects hdetect] at hkeyed
  have hsum := hsound.conflictCount_add hdetect
  have hid := distinctCount_le hkeyed .id
  have hname := distinctCount_le hkeyed .name
  rw [← distinctCount_eq_length_iff hkeyed, ← distinctCount_eq_length_iff hkeyed]
  omega

theorem Sound.conflictCount_eq_zero (hsound : merger.Sound)
    (hdetect : merger.options.detectConflicts = false) : merger.conflictCount = 0 := by
  rw [conflictCount, hsound.knows.count, tracked_of_not_detects hdetect]
  rfl

section Write

variable {τ : Type} [ByteSink τ]

/-- With conflicts a view is refused before anything is written. -/
theorem writeView_of_conflicts (hdetect : merger.options.detectConflicts = true)
    (hcount : merger.conflictCount ≠ 0) (view : View) (sink : τ) :
    merger.writeView view sink = (sink, .error (.conflicts merger.conflictCount)) := by
  simp [writeView, ensureNoConflicts, hdetect, Nat.pos_of_ne_zero hcount]

/-- Without conflicts only the sink decides. -/
theorem writeView_of_clear
    (hclear : merger.options.detectConflicts = false ∨ merger.conflictCount = 0) (view : View)
    (sink : τ) :
    (merger.writeView view sink).2 =
      (Xml.write (view.project merger.changes) merger.options.layout sink).2.mapError .output := by
  have hensure : merger.ensureNoConflicts = .ok () := by
    rcases hclear with hclear | hclear <;> simp [ensureNoConflicts, hclear]
  simp [writeView, hensure]

theorem Sound.writeView_eq_ok_iff (hsound : merger.Sound)
    (hdetect : merger.options.detectConflicts = true) (view : View) {sink : τ}
    (haccepts : ByteSink.AcceptsNext sink) :
    (merger.writeView view sink).2 = .ok () ↔
      Unshared .id merger.changes ∧ Unshared .name merger.changes := by
  rw [← hsound.conflictCount_eq_zero_iff hdetect]
  constructor
  · intro hwritten
    by_contra hcount
    rw [writeView_of_conflicts hdetect hcount] at hwritten
    simp at hwritten
  · intro hcount
    rw [writeView_of_clear (.inr hcount), Xml.write, haccepts]
    rfl

theorem Sound.writeView_of_shared (hsound : merger.Sound)
    (hdetect : merger.options.detectConflicts = true) (view : View) (sink : τ)
    (hshared : ¬ (Unshared .id merger.changes ∧ Unshared .name merger.changes)) :
    merger.writeView view sink = (sink, .error (.conflicts merger.conflictCount)) :=
  writeView_of_conflicts hdetect
    (mt (hsound.conflictCount_eq_zero_iff hdetect).mp hshared) view sink

theorem writeView_ne_conflicts (hdetect : merger.options.detectConflicts = false) (view : View)
    (sink : τ) (count : Nat) : (merger.writeView view sink).2 ≠ .error (.conflicts count) := by
  rw [writeView_of_clear (.inl hdetect)]
  cases (Xml.write (view.project merger.changes) merger.options.layout sink).2 <;>
    simp [Except.mapError]

end Write

/-- After every run the count of conflicts is determined by the changes held, and with it whether a
view is written. -/
theorem writeView_run_iff [ByteSink σ] (options : Options) (reports : σ) (calls : List Call) :
    let merger := (new options reports).run calls
    (options.detectConflicts = true →
      (∀ change ∈ merger.changes, change.id?.isSome ∧ change.name?.isSome) ∧
      merger.conflictCount =
        (merger.changes.length - distinctCount .id merger.changes) +
          (merger.changes.length - distinctCount .name merger.changes) ∧
      (∀ (view : View) {τ : Type} [ByteSink τ] (sink : τ), ByteSink.AcceptsNext sink →
        ((merger.writeView view sink).2 = .ok () ↔
          Unshared .id merger.changes ∧ Unshared .name merger.changes)) ∧
      (∀ (view : View) {τ : Type} [ByteSink τ] (sink : τ),
        ¬ (Unshared .id merger.changes ∧ Unshared .name merger.changes) →
          merger.writeView view sink = (sink, .error (.conflicts merger.conflictCount)))) ∧
    (options.detectConflicts = false →
      merger.conflictCount = 0 ∧
      ∀ (view : View) {τ : Type} [ByteSink τ] (sink : τ) (count : Nat),
        (merger.writeView view sink).2 ≠ .error (.conflicts count)) := by
  intro merger
  have hsound : merger.Sound := sound_run options reports calls
  have hoptions : merger.options = options := options_run options reports calls
  rw [← hoptions]
  constructor
  · intro hdetect
    have hkeyed := hsound.keyed
    rw [tracked_of_detects hdetect] at hkeyed
    refine ⟨fun change hmem => missingKey?_eq_none_iff.mp (hkeyed change hmem),
      hsound.conflictCount_eq hdetect, ?_, ?_⟩
    · intro view τ _ sink haccepts
      exact hsound.writeView_eq_ok_iff hdetect view haccepts
    · intro view τ _ sink hshared
      exact hsound.writeView_of_shared hdetect view sink hshared
  · intro hdetect
    refine ⟨hsound.conflictCount_eq_zero hdetect, ?_⟩
    intro view τ _ sink count
    exact writeView_ne_conflicts hdetect view sink count

end Merger

end CompatChanges
