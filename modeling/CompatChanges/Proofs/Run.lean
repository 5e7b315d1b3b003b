import CompatChanges.Merge
import CompatChanges.Proofs.Definition
import Mathlib.Logic.Relation

/-!
# Runs of a merger

A merger changes only by taking the changes of a fragment, all of them at once. `Takes` is that
step; a call makes any number of them, and what every step keeps holds after every run.
-/

namespace CompatChanges

inductive Call : Type 1 where
  | merge (stream : Stream) (label : String)
  | mergeBytes (bytes : List UInt8) (label : String)
  | mergeArchive (bytes : List UInt8) (label : String)
  | write {τ : Type} [ByteSink τ] (view : View) (sink : τ)

/-- The labels under which a call may merge fragments. -/
def Call.labels : Call → List String
  | .merge _ label | .mergeBytes _ label => [label]
  | .mergeArchive bytes label =>
    match Archive.readFragments bytes with
    | .ok fragments => fragments.map (·.label label)
    | .error _ => []
  | @Call.write _ _ _ _ => []

/-- The change is one of those that some bytes give under the label. -/
def Change.ReadUnder (change : Change) (label : String) : Prop :=
  ∃ bytes changes, readChanges bytes label = .ok changes ∧ change ∈ changes

theorem missingKey?_eq_none_iff {change : Change} :
    change.missingKey? = none ↔ change.id?.isSome ∧ change.name?.isSome := by
  unfold Change.missingKey?
  cases change.id? <;> cases change.name? <;> simp

namespace Merger

variable {σ : Type} [ByteSink σ]

/-- The merger after a call, whether it succeeds or fails. Writing a view does not touch it. -/
def call (merger : Merger σ) : Call → Merger σ
  | .merge stream label => (merger.merge stream label).1
  | .mergeBytes bytes label => (merger.mergeBytes bytes label).1
  | .mergeArchive bytes label => (merger.mergeArchive bytes label).1
  | @Call.write _ _ _ _ => merger

def run (merger : Merger σ) (calls : List Call) : Merger σ := calls.foldl call merger

/-- Commits the changes of one fragment and reports the conflicts that they bring. -/
def take (merger : Merger σ) (changes : List Change) : Merger σ × Except MergeError Unit :=
  (merger.commit changes).1.report (merger.commit changes).2

/-- The changes that are told apart: all of them with detection, none without. -/
def tracked (merger : Merger σ) : List Change :=
  if merger.options.detectConflicts then merger.changes else []

omit [ByteSink σ] in
theorem tracked_of_detects {merger : Merger σ} (hdetect : merger.options.detectConflicts = true) :
    merger.tracked = merger.changes := if_pos hdetect

omit [ByteSink σ] in
theorem tracked_of_not_detects {merger : Merger σ}
    (hdetect : merger.options.detectConflicts = false) : merger.tracked = [] := by
  rw [tracked, hdetect]
  rfl

/-- The step of a merger: it takes changes, which have their keys if conflicts are detected. -/
def Takes (before after : Merger σ) : Prop :=
  ∃ changes,
    (before.options.detectConflicts = true → ∀ change ∈ changes, change.missingKey? = none) ∧
      after = (before.take changes).1

abbrev Reaches : Merger σ → Merger σ → Prop := Relation.ReflTransGen Takes

/-! ### What a call does -/

theorem mergeBytes_of_error {merger : Merger σ} {bytes : List UInt8} {label : String}
    {error : MergeError} (haccept : accept merger.options bytes label = .error error) :
    merger.mergeBytes bytes label = (merger, .error error) := by
  simp [mergeBytes, haccept]

theorem mergeBytes_of_ok {merger : Merger σ} {bytes : List UInt8} {label : String}
    {changes : List Change} (haccept : accept merger.options bytes label = .ok changes) :
    merger.mergeBytes bytes label = merger.take changes := by
  simp only [mergeBytes, haccept]
  rfl

/-- Accepted changes are all the changes of the fragment, and have their keys under detection. -/
theorem accept_eq_ok_iff {options : Options} {bytes : List UInt8} {label : String}
    {changes : List Change} :
    accept options bytes label = .ok changes ↔
      readChanges bytes label = .ok changes ∧
        (options.detectConflicts = true → ∀ change ∈ changes, change.missingKey? = none) := by
  unfold accept
  cases hread : readChanges bytes label with
  | error error => simp
  | ok found =>
    cases hdetect : options.detectConflicts with
    | false => simp
    | true =>
      cases hmissing : found.findSome? fun change =>
          change.missingKey?.map fun key => MergeError.missingKey key change.origin with
      | none =>
        have hnone : ∀ change ∈ found, change.missingKey? = none := by
          simpa [List.findSome?_eq_none_iff] using hmissing
        simp only [if_true, hmissing, Except.ok.injEq, true_imp_iff]
        exact ⟨fun heq => ⟨heq, heq ▸ hnone⟩, fun h => h.1⟩
      | some error =>
        have hsome : ¬ ∀ change ∈ found, change.missingKey? = none := by
          intro hall
          rw [List.findSome?_eq_none_iff.mpr fun change hmem => by simp [hall change hmem]] at hmissing
          simp at hmissing
        simp only [if_true, hmissing, Except.ok.injEq, true_imp_iff, reduceCtorEq, false_iff]
        rintro ⟨rfl, hall⟩
        exact hsome hall

theorem mergeBytes_reaches (merger : Merger σ) (bytes : List UInt8) (label : String) :
    merger.Reaches (merger.mergeBytes bytes label).1 := by
  cases haccept : accept merger.options bytes label with
  | error error =>
    rw [mergeBytes_of_error haccept]
  | ok changes =>
    rw [mergeBytes_of_ok haccept]
    exact .single ⟨changes, (accept_eq_ok_iff.mp haccept).2, rfl⟩

theorem mergeAll_reaches (merger : Merger σ) (fragments : List (List UInt8 × String)) :
    merger.Reaches (merger.mergeAll fragments).1 := by
  induction fragments generalizing merger with
  | nil => exact .refl
  | cons fragment rest ih =>
    obtain ⟨bytes, label⟩ := fragment
    have hfirst := merger.mergeBytes_reaches bytes label
    unfold mergeAll
    cases hmerge : merger.mergeBytes bytes label with
    | mk next outcome =>
      rw [hmerge] at hfirst
      cases outcome with
      | error error => exact hfirst
      | ok _ => exact hfirst.trans (ih next)

theorem merge_reaches (merger : Merger σ) (stream : Stream) (label : String) :
    merger.Reaches (merger.merge stream label).1 := by
  unfold Merger.merge
  split
  · exact .refl
  · exact merger.mergeBytes_reaches stream.bytes label

theorem mergeArchive_reaches (merger : Merger σ) (bytes : List UInt8) (label : String) :
    merger.Reaches (merger.mergeArchive bytes label).1 := by
  unfold mergeArchive
  cases Archive.readFragments bytes with
  | error error => exact .refl
  | ok fragments => exact merger.mergeAll_reaches _

theorem call_reaches (merger : Merger σ) (call : Call) : merger.Reaches (merger.call call) := by
  cases call with
  | merge stream label => exact merger.merge_reaches stream label
  | mergeBytes bytes label => exact merger.mergeBytes_reaches bytes label
  | mergeArchive bytes label => exact merger.mergeArchive_reaches bytes label
  | write view sink => exact .refl

theorem run_reaches (merger : Merger σ) (calls : List Call) : merger.Reaches (merger.run calls) := by
  induction calls generalizing merger with
  | nil => exact .refl
  | cons call rest ih => exact (merger.call_reaches call).trans (ih _)

/-! ### What a step does -/

section

variable (merger : Merger σ) (changes : List Change)

@[simp]
theorem take_options : (merger.take changes).1.options = merger.options := by
  cases hdetect : merger.options.detectConflicts <;> simp [take, commit, report, hdetect]

@[simp]
theorem take_changes : (merger.take changes).1.changes = merger.changes ++ changes := by
  cases hdetect : merger.options.detectConflicts <;> simp [take, commit, report, hdetect]

theorem take_tracker :
    (merger.take changes).1.tracker =
      if merger.options.detectConflicts then (merger.tracker.checkChanges changes).1
      else merger.tracker := by
  cases hdetect : merger.options.detectConflicts <;> simp [take, commit, report, hdetect]

def found : List Conflict :=
  if merger.options.detectConflicts then (merger.tracker.checkChanges changes).2 else []

def reportChunks : List (List UInt8) :=
  ((merger.found changes).flatMap Conflict.report).map fun line => Text.Utf8.encode line.toList

theorem take_reports :
    (merger.take changes).1.reports =
      (ByteSink.writeAndFlush merger.reports (merger.reportChunks changes)).1 := by
  cases hdetect : merger.options.detectConflicts <;>
    simp [take, commit, report, reportChunks, found, hdetect]

/-- Only the sink can make a step fail. -/
theorem take_outcome :
    (merger.take changes).2 =
      (ByteSink.writeAndFlush merger.reports (merger.reportChunks changes)).2.mapError .report := by
  cases hdetect : merger.options.detectConflicts <;>
    simp [take, commit, report, reportChunks, found, hdetect]

end

/-- A sink that takes everything has the whole report after a step, and the step succeeds. -/
theorem take_of_acceptsAll {merger : Merger} (haccepts : merger.reports.AcceptsAll)
    (changes : List Change) :
    (merger.take changes).2 = .ok () ∧
      (merger.take changes).1.reports.bytes =
        merger.reports.bytes ++ (merger.reportChunks changes).flatten ∧
      (merger.take changes).1.reports.AcceptsAll := by
  obtain ⟨houtcome, hbytes, hafter⟩ := haccepts.writeAndFlush (merger.reportChunks changes)
  rw [take_outcome, take_reports, houtcome]
  exact ⟨rfl, hbytes, hafter⟩

/-! ### What every step keeps -/

theorem Reaches.options_eq {before after : Merger σ} (hreaches : before.Reaches after) :
    after.options = before.options := by
  induction hreaches with
  | refl => rfl
  | tail _ htakes ih =>
    obtain ⟨changes, -, rfl⟩ := htakes
    rw [take_options, ih]

/-- Changes are added at the end and never go away. -/
theorem Reaches.changes_prefix {before after : Merger σ} (hreaches : before.Reaches after) :
    before.changes <+: after.changes := by
  induction hreaches with
  | refl => exact List.prefix_rfl
  | tail _ htakes ih =>
    obtain ⟨changes, -, rfl⟩ := htakes
    rw [take_changes]
    exact ih.trans (List.prefix_append _ _)

/-- The invariant: tracked changes have both keys, and the tracker knows what they define. -/
structure Sound (merger : Merger σ) : Prop where
  keyed : ∀ change ∈ merger.tracked, change.missingKey? = none
  knows : merger.tracker.Knows (definitionsOf merger.tracked)

omit [ByteSink σ] in
theorem sound_new (options : Options) (reports : σ) : (new options reports).Sound := by
  have htracked : (new options reports).tracked = [] := ite_self []
  exact ⟨by simp [htracked], by rw [htracked]; exact Tracker.knows_empty⟩

theorem Sound.takes {before after : Merger σ} (hsound : before.Sound) (htakes : before.Takes after) :
    after.Sound := by
  obtain ⟨changes, hkeyed, rfl⟩ := htakes
  have hknown := hsound.knows
  have hold := hsound.keyed
  cases hdetect : before.options.detectConflicts with
  | false =>
    have hafter : (before.take changes).1.options.detectConflicts = false := by simpa using hdetect
    rw [tracked_of_not_detects hdetect] at hknown
    refine ⟨by simp [tracked_of_not_detects hafter], ?_⟩
    rw [tracked_of_not_detects hafter, take_tracker, hdetect]
    exact hknown
  | true =>
    have hafter : (before.take changes).1.options.detectConflicts = true := by simpa using hdetect
    rw [tracked_of_detects hdetect] at hknown hold
    constructor
    · intro change hmem
      rw [tracked_of_detects hafter, take_changes, List.mem_append] at hmem
      exact hmem.elim (hold change) (hkeyed hdetect change)
    · rw [tracked_of_detects hafter, take_tracker, if_pos hdetect, take_changes,
        definitionsOf_append]
      exact (hknown.checkChanges changes).2

theorem Sound.reaches {before after : Merger σ} (hsound : before.Sound)
    (hreaches : before.Reaches after) : after.Sound := by
  induction hreaches with
  | refl => exact hsound
  | tail _ htakes ih => exact ih.takes htakes

/-- After any run the tracker knows exactly the changes that the merger holds. -/
theorem sound_run (options : Options) (reports : σ) (calls : List Call) :
    ((new options reports).run calls).Sound :=
  (sound_new options reports).reaches (run_reaches _ calls)

theorem options_run (options : Options) (reports : σ) (calls : List Call) :
    ((new options reports).run calls).options = options :=
  (run_reaches _ calls).options_eq

/-! ### Where changes come from -/

section

variable {merger : Merger σ} {change : Change}

theorem mem_or_readUnder_of_mergeBytes {bytes : List UInt8} {label : String}
    (hmem : change ∈ (merger.mergeBytes bytes label).1.changes) :
    change ∈ merger.changes ∨ change.ReadUnder label := by
  cases haccept : accept merger.options bytes label with
  | error error =>
    rw [mergeBytes_of_error haccept] at hmem
    exact .inl hmem
  | ok changes =>
    rw [mergeBytes_of_ok haccept, take_changes, List.mem_append] at hmem
    exact hmem.imp_right fun hnew => ⟨bytes, changes, (accept_eq_ok_iff.mp haccept).1, hnew⟩

theorem mem_or_readUnder_of_mergeAll {fragments : List (List UInt8 × String)}
    (hmem : change ∈ (merger.mergeAll fragments).1.changes) :
    change ∈ merger.changes ∨ ∃ fragment ∈ fragments, change.ReadUnder fragment.2 := by
  induction fragments generalizing merger with
  | nil => exact .inl hmem
  | cons fragment rest ih =>
    obtain ⟨bytes, label⟩ := fragment
    have hfirst : change ∈ (merger.mergeBytes bytes label).1.changes →
        change ∈ merger.changes ∨ ∃ fragment ∈ (bytes, label) :: rest, change.ReadUnder fragment.2 :=
      fun hnext => (mem_or_readUnder_of_mergeBytes hnext).imp_right fun hread =>
        ⟨_, List.mem_cons_self, hread⟩
    rw [mergeAll] at hmem
    generalize merger.mergeBytes bytes label = merged at hfirst hmem
    obtain ⟨next, outcome⟩ := merged
    cases outcome with
    | error error => exact hfirst hmem
    | ok _ =>
      rcases ih hmem with hnext | ⟨fragment, hfragment, hread⟩
      · exact hfirst hnext
      · exact .inr ⟨fragment, List.mem_cons_of_mem _ hfragment, hread⟩

theorem mem_or_readUnder_of_call {call : Call} (hmem : change ∈ (merger.call call).changes) :
    change ∈ merger.changes ∨ ∃ label ∈ call.labels, change.ReadUnder label := by
  cases call with
  | merge stream label =>
    change change ∈ (merger.merge stream label).1.changes at hmem
    unfold Merger.merge at hmem
    split at hmem
    · exact .inl hmem
    · exact (mem_or_readUnder_of_mergeBytes hmem).imp_right fun hread =>
        ⟨label, List.mem_singleton_self label, hread⟩
  | mergeBytes bytes label =>
    exact (mem_or_readUnder_of_mergeBytes hmem).imp_right fun hread =>
      ⟨label, List.mem_singleton_self label, hread⟩
  | mergeArchive bytes label =>
    change change ∈ (merger.mergeArchive bytes label).1.changes at hmem
    unfold mergeArchive at hmem
    cases hfound : Archive.readFragments bytes with
    | error error =>
      rw [hfound] at hmem
      exact .inl hmem
    | ok fragments =>
      have hlabels : (Call.mergeArchive bytes label).labels = fragments.map (·.label label) := by
        rw [Call.labels, hfound]
      rw [hfound] at hmem
      rw [hlabels]
      refine (mem_or_readUnder_of_mergeAll hmem).imp_right ?_
      rintro ⟨_, hfragment, hread⟩
      obtain ⟨fragment, hown, rfl⟩ := List.mem_map.mp hfragment
      exact ⟨fragment.label label, List.mem_map_of_mem hown, hread⟩
  | write view sink => exact .inl hmem

theorem mem_or_readUnder_of_run {calls : List Call} (hmem : change ∈ (merger.run calls).changes) :
    change ∈ merger.changes ∨ ∃ call ∈ calls, ∃ label ∈ call.labels, change.ReadUnder label := by
  induction calls generalizing merger with
  | nil => exact .inl hmem
  | cons call rest ih =>
    rcases ih hmem with hnext | ⟨later, hlater, hread⟩
    · exact (mem_or_readUnder_of_call hnext).imp_right fun hread =>
        ⟨call, List.mem_cons_self, hread⟩
    · exact .inr ⟨later, List.mem_cons_of_mem _ hlater, hread⟩

/-- Every change that a run leads to was read under a label of one of the calls. -/
theorem readUnder_of_mem_run {options : Options} {reports : σ} {calls : List Call}
    (hmem : change ∈ ((new options reports).run calls).changes) :
    ∃ call ∈ calls, ∃ label ∈ call.labels, change.ReadUnder label := by
  rcases mem_or_readUnder_of_run hmem with hnew | hread
  · cases hnew
  · exact hread

end

end Merger

end CompatChanges
