import CompatChanges.Proofs.Limited
import CompatChanges.Proofs.Verdict

/-!
# Fragments in another order

What becomes of a fragment is decided by the fragment and the options alone, whatever was merged
before. The changes held are therefore those of the fragments that are taken, one after the other, and
another order of the fragments is another order of the changes. The count of conflicts does not see it,
although the definition that is reported as the second one may be another.
-/

namespace CompatChanges

/-! ### Sinks that never fail -/

namespace ByteSink

variable {σ : Type} [ByteSink σ]

/-- The sink takes whatever is written to it, and goes on doing so. -/
def NeverFails (sink : σ) : Prop :=
  ∃ live : σ → Prop, live sink ∧ ∀ state, live state → ∀ chunks,
    (writeAndFlush state chunks).2 = .ok () ∧ live (writeAndFlush state chunks).1

theorem NeverFails.writeAndFlush {sink : σ} (hnever : NeverFails sink) (chunks : List (List UInt8)) :
    (ByteSink.writeAndFlush sink chunks).2 = .ok () ∧
      NeverFails (ByteSink.writeAndFlush sink chunks).1 := by
  obtain ⟨live, hlive, htakes⟩ := hnever
  obtain ⟨houtcome, hnext⟩ := htakes sink hlive chunks
  exact ⟨houtcome, live, hnext, htakes⟩

end ByteSink

theorem Sink.AcceptsAll.neverFails {sink : Sink} (haccepts : sink.AcceptsAll) :
    ByteSink.NeverFails sink := by
  refine ⟨Sink.AcceptsAll, haccepts, fun state hstate chunks => ?_⟩
  obtain ⟨houtcome, -, hnext⟩ := hstate.writeAndFlush chunks
  exact ⟨houtcome, hnext⟩

namespace Merger

/-- What becomes of a fragment if its conflicts can be reported. -/
def Feed.verdict (options : Options) (next : Feed) : Except MergeError Unit :=
  (next.accept options).map fun _ => ()

/-- The changes that are taken with a fragment, of which there are none if it is refused. -/
def Feed.taken (options : Options) (next : Feed) : List Change :=
  match next.accept options with
  | .ok changes => changes
  | .error _ => []

section

variable {σ : Type} [ByteSink σ]

/-- What becomes of each fragment, whatever became of those before it. -/
def outcomes (merger : Merger σ) : List Feed → List (Except MergeError Unit)
  | [] => []
  | next :: rest => (merger.feed next).2 :: (merger.feed next).1.outcomes rest

theorem feedAll_cons (merger : Merger σ) (next : Feed) (rest : List Feed) :
    merger.feedAll (next :: rest) = (merger.feed next).1.feedAll rest := rfl

/-! ### One fragment -/

theorem feed_reaches (merger : Merger σ) (next : Feed) : merger.Reaches (merger.feed next).1 := by
  cases next with
  | merge stream label => exact merger.merge_reaches stream label
  | mergeBytes bytes label => exact merger.mergeBytes_reaches bytes label

@[simp]
theorem feed_options (merger : Merger σ) (next : Feed) :
    (merger.feed next).1.options = merger.options := (merger.feed_reaches next).options_eq

theorem feed_changes (merger : Merger σ) (next : Feed) :
    (merger.feed next).1.changes = merger.changes ++ next.taken merger.options := by
  unfold Feed.taken
  cases haccept : next.accept merger.options with
  | error error => rw [feed_of_error haccept, List.append_nil]
  | ok changes => rw [feed_of_ok haccept, take_changes]

/-- If the reports are taken, only the fragment and the options decide. -/
theorem feed_of_neverFails {merger : Merger σ} (hnever : ByteSink.NeverFails merger.reports)
    (next : Feed) :
    (merger.feed next).2 = next.verdict merger.options ∧
      ByteSink.NeverFails (merger.feed next).1.reports := by
  unfold Feed.verdict
  cases haccept : next.accept merger.options with
  | error error =>
    rw [feed_of_error haccept]
    exact ⟨rfl, hnever⟩
  | ok changes =>
    obtain ⟨houtcome, hnext⟩ := hnever.writeAndFlush (merger.reportChunks changes)
    rw [feed_of_ok haccept, take_outcome, take_reports, houtcome]
    exact ⟨rfl, hnext⟩

/-! ### Fragments one after the other -/

theorem feedAll_reaches (merger : Merger σ) (feeds : List Feed) :
    merger.Reaches (merger.feedAll feeds) := by
  induction feeds generalizing merger with
  | nil => exact .refl
  | cons next rest ih => exact (merger.feed_reaches next).trans (ih _)

@[simp]
theorem feedAll_options (merger : Merger σ) (feeds : List Feed) :
    (merger.feedAll feeds).options = merger.options := (merger.feedAll_reaches feeds).options_eq

theorem feedAll_changes (merger : Merger σ) (feeds : List Feed) :
    (merger.feedAll feeds).changes =
      merger.changes ++ feeds.flatMap (Feed.taken merger.options) := by
  induction feeds generalizing merger with
  | nil => exact (List.append_nil _).symm
  | cons next rest ih =>
    rw [feedAll_cons, ih, feed_changes, feed_options, List.flatMap_cons, List.append_assoc]

theorem outcomes_of_neverFails {merger : Merger σ} (hnever : ByteSink.NeverFails merger.reports)
    (feeds : List Feed) : merger.outcomes feeds = feeds.map (Feed.verdict merger.options) := by
  induction feeds generalizing merger with
  | nil => rfl
  | cons next rest ih =>
    obtain ⟨hverdict, hnext⟩ := feed_of_neverFails hnever next
    rw [outcomes, ih hnext, hverdict, feed_options, List.map_cons]

end

/-! ### Changes in another order -/

section Permuted

variable {σ τ : Type} {one : Merger σ} {other : Merger τ}

theorem distinctCount_eq_of_perm {left right : List Change} (hperm : left.Perm right) (key : Key) :
    distinctCount key left = distinctCount key right := by
  unfold distinctCount
  rw [List.toFinset_eq_of_perm _ _ (hperm.filterMap _)]

/-- The count of conflicts depends on which changes are held, and not on their order. -/
theorem Sound.conflictCount_eq_of_perm (hone : one.Sound) (hother : other.Sound)
    (hoptions : one.options = other.options) (hperm : one.changes.Perm other.changes) :
    one.conflictCount = other.conflictCount := by
  cases hdetect : one.options.detectConflicts with
  | false => rw [hone.conflictCount_eq_zero hdetect, hother.conflictCount_eq_zero (hoptions ▸ hdetect)]
  | true =>
    rw [hone.conflictCount_eq hdetect, hother.conflictCount_eq (hoptions ▸ hdetect), hperm.length_eq,
      distinctCount_eq_of_perm hperm, distinctCount_eq_of_perm hperm]

theorem Sound.ensureNoConflicts_eq_of_perm (hone : one.Sound) (hother : other.Sound)
    (hoptions : one.options = other.options) (hperm : one.changes.Perm other.changes) :
    one.ensureNoConflicts = other.ensureNoConflicts := by
  unfold ensureNoConflicts
  rw [hoptions, hone.conflictCount_eq_of_perm hother hoptions hperm]

variable {υ φ : Type} [ByteSink υ] [ByteSink φ]

theorem writeView_eq_conflicts_iff {view : View} {sink : υ} {count : Nat} :
    (one.writeView view sink).2 = .error (.conflicts count) ↔
      one.ensureNoConflicts = .error (.conflicts count) := by
  unfold writeView
  cases one.ensureNoConflicts with
  | error error => exact Iff.rfl
  | ok _ =>
    dsimp only
    cases (Xml.write (view.project one.changes) one.options.layout sink).2 <;>
      exact iff_of_false nofun nofun

/-- At a sink that takes everything only conflicts decide. -/
theorem writeView_of_acceptsNext (view : View) {sink : υ} (haccepts : ByteSink.AcceptsNext sink) :
    (one.writeView view sink).2 = one.ensureNoConflicts := by
  cases hensure : one.ensureNoConflicts with
  | error error =>
    unfold writeView
    rw [hensure]
  | ok _ =>
    unfold writeView
    rw [hensure]
    dsimp only
    rw [Xml.write, haccepts]
    rfl

end Permuted

/-- Fragments merged in another order give the same outcome each, the same changes in another order and
the same count of conflicts, and a view is written in both cases or refused with that count. -/
theorem feedAll_perm {σ τ : Type} [ByteSink σ] [ByteSink τ] (options : Options) {reports : σ}
    {others : τ} (hreports : ByteSink.NeverFails reports) (hothers : ByteSink.NeverFails others)
    {left right : List Feed} (hperm : left.Perm right) :
    let one := (new options reports).feedAll left
    let other := (new options others).feedAll right
    (new options reports).outcomes left = left.map (Feed.verdict options) ∧
      (new options others).outcomes right = right.map (Feed.verdict options) ∧
      one.changes.Perm other.changes ∧ one.conflictCount = other.conflictCount ∧
      ∀ (view : View) {υ φ : Type} [ByteSink υ] [ByteSink φ] (sink : υ) (target : φ),
        (∀ count, (one.writeView view sink).2 = .error (.conflicts count) ↔
          (other.writeView view target).2 = .error (.conflicts count)) ∧
        (ByteSink.AcceptsNext sink → ByteSink.AcceptsNext target →
          (one.writeView view sink).2 = (other.writeView view target).2) := by
  intro one other
  have hone : one.Sound := (sound_new options reports).reaches (feedAll_reaches _ left)
  have hother : other.Sound := (sound_new options others).reaches (feedAll_reaches _ right)
  have hoptions : one.options = other.options := by
    rw [feedAll_options, feedAll_options]
    rfl
  have hchanges : one.changes.Perm other.changes := by
    rw [feedAll_changes, feedAll_changes]
    exact hperm.flatMap_right _
  have hensure := hone.ensureNoConflicts_eq_of_perm hother hoptions hchanges
  refine ⟨outcomes_of_neverFails hreports left, outcomes_of_neverFails hothers right, hchanges,
    hone.conflictCount_eq_of_perm hother hoptions hchanges, ?_⟩
  intro view υ φ _ _ sink target
  constructor
  · intro count
    rw [writeView_eq_conflicts_iff, writeView_eq_conflicts_iff, hensure]
  · intro hsink htarget
    rw [writeView_of_acceptsNext view hsink, writeView_of_acceptsNext view htarget, hensure]

/-- A fragment with one change, which has the id that all of them have. -/
def sharing (name : String) : Feed :=
  .mergeBytes (Text.Utf8.encode ("<r><a id='1' name='" ++ name ++ "'/></r>").toList) name

/-- Two such fragments clash in either order, and the one that comes second is reported. -/
theorem feedAll_perm_sharing :
    let one := (new ⟨true, .compact⟩ Sink.unlimited).feedAll [sharing "A", sharing "B"]
    let other := (new ⟨true, .compact⟩ Sink.unlimited).feedAll [sharing "B", sharing "A"]
    [sharing "A", sharing "B"].Perm [sharing "B", sharing "A"] ∧
      ByteSink.NeverFails Sink.unlimited ∧ one.changes.Perm other.changes ∧
      one.conflictCount = 1 ∧ other.conflictCount = 1 ∧
      one.reports.bytes ≠ other.reports.bytes := by
  have hperm : [sharing "A", sharing "B"].Perm [sharing "B", sharing "A"] := .swap ..
  have hnever := Sink.acceptsAll_unlimited.neverFails
  have hcount : ((new ⟨true, .compact⟩ Sink.unlimited).feedAll
      [sharing "A", sharing "B"]).conflictCount = 1 := by
    decide +kernel
  obtain ⟨-, -, hchanges, hsame, -⟩ := feedAll_perm ⟨true, .compact⟩ hnever hnever hperm
  refine ⟨hperm, hnever, hchanges, hcount, hsame.symm.trans hcount, ?_⟩
  decide +kernel

end Merger

end CompatChanges
