import CompatChanges.Proofs.Run

/-!
# What is reported

The reports are written fragment by fragment, from a tracker that changes as it goes. What stands in
the sink in the end is nevertheless read off the changes held: for each change, its id before its
name, the earliest change that has the same value is cited. How the changes came in fragments leaves
no trace.
-/

namespace CompatChanges

/-- The conflict of `change` with the earliest of `earlier` that has the same value of `key`. -/
def Change.conflict? (earlier : List Change) (change : Change) (key : Key) : Option Conflict :=
  (change.key? key).bind fun value =>
    (earlier.find? (·.key? key = some value)).map fun first =>
      ⟨key, value, first.origin, change.origin⟩

/-- The conflicts of further changes, by id before by name, when `earlier` came before them. -/
def conflictsAmong (earlier : List Change) : List Change → List Conflict
  | [] => []
  | change :: rest =>
    (change.conflict? earlier .id).toList ++ (change.conflict? earlier .name).toList ++
      conflictsAmong (earlier ++ [change]) rest

theorem conflictsAmong_append (earlier left right : List Change) :
    conflictsAmong earlier (left ++ right) =
      conflictsAmong earlier left ++ conflictsAmong (earlier ++ left) right := by
  induction left generalizing earlier with
  | nil => simp [conflictsAmong]
  | cons change rest ih => simp [conflictsAmong, ih]

theorem firstDefinition?_definitions (change : Change) (key : Key) (value : String) :
    firstDefinition? change.definitions key value =
      if change.key? key = some value then some ⟨key, value, change.origin⟩ else none := by
  unfold firstDefinition? Change.definitions Change.definition?
  rw [List.find?_append]
  cases key
  · cases hid : change.key? .id with
    | none => cases change.key? .name <;> simp
    | some id => by_cases heq : id = value <;> cases change.key? .name <;> simp [heq]
  · cases hname : change.key? .name with
    | none => cases change.key? .id <;> simp
    | some name => by_cases heq : name = value <;> cases change.key? .id <;> simp [heq]

theorem firstDefinition?_definitionsOf (changes : List Change) (key : Key) (value : String) :
    firstDefinition? (definitionsOf changes) key value =
      (changes.find? (·.key? key = some value)).map fun first => ⟨key, value, first.origin⟩ := by
  induction changes with
  | nil => rfl
  | cons change rest ih =>
    have hsplit : firstDefinition? (definitionsOf (change :: rest)) key value =
        (firstDefinition? change.definitions key value).or
          (firstDefinition? (definitionsOf rest) key value) := List.find?_append
    rw [hsplit, firstDefinition?_definitions, ih]
    by_cases hkey : change.key? key = some value <;> simp [hkey]

theorem conflictsAfter_definition? (earlier : List Change) (change : Change) (key : Key) :
    conflictsAfter (definitionsOf earlier) (change.definition? key).toList =
      (change.conflict? earlier key).toList := by
  unfold Change.definition? Change.conflict?
  cases change.key? key with
  | none => rfl
  | some value =>
    simp only [Option.map_some, Option.toList_some, conflictsAfter, List.append_nil,
      Definition.conflict?, firstDefinition?_definitionsOf, Option.bind_some, Option.map_map]
    rfl

/-- The id of a change is no earlier definition of any name. -/
theorem conflictsAfter_definition?_name (earlier : List Change) (change : Change) :
    conflictsAfter (definitionsOf earlier ++ (change.definition? .id).toList)
        (change.definition? .name).toList =
      conflictsAfter (definitionsOf earlier) (change.definition? .name).toList := by
  unfold Change.definition?
  cases change.key? .name with
  | none => rfl
  | some name =>
    cases change.key? .id with
    | none => simp
    | some id => simp [conflictsAfter, Definition.conflict?, Tracker.firstDefinition?_concat]

theorem conflictsAfter_definitionsOf (earlier changes : List Change) :
    conflictsAfter (definitionsOf earlier) (definitionsOf changes) = conflictsAmong earlier changes := by
  induction changes generalizing earlier with
  | nil => rfl
  | cons change rest ih =>
    have hsnoc : definitionsOf earlier ++ change.definitions = definitionsOf (earlier ++ [change]) := by
      simp [definitionsOf]
    rw [definitionsOf_cons, conflictsAfter_append, hsnoc, ih, Change.definitions, conflictsAfter_append,
      conflictsAfter_definition?_name, conflictsAfter_definition?, conflictsAfter_definition?]
    rfl

/-! ### The text -/

open Text

def Conflict.text (conflict : Conflict) : String :=
  "ERROR: Duplicate definitions for compat change with " ++ conflict.key.label ++ " " ++
      conflict.value ++ "\n" ++
    "  first defined at " ++ conflict.first.text ++ "\n" ++
    "  redefined at " ++ conflict.duplicate.text ++ "\n"

def reportBytes (conflicts : List Conflict) : List UInt8 :=
  Utf8.encode (conflicts.flatMap fun conflict => conflict.text.toList)

theorem reportBytes_append (left right : List Conflict) :
    reportBytes (left ++ right) = reportBytes left ++ reportBytes right := by
  simp [reportBytes]

theorem flatMap_report (conflict : Conflict) :
    conflict.report.flatMap String.toList = conflict.text.toList := by
  unfold Conflict.report Conflict.text Conflict.summary
  simp only [List.flatMap_cons, List.flatMap_nil, String.toList_append, List.append_assoc,
    List.append_nil, toString]
  rfl

theorem flatten_reports (conflicts : List Conflict) :
    ((conflicts.flatMap Conflict.report).map fun line => Utf8.encode line.toList).flatten =
      reportBytes conflicts := by
  have hencode (lines : List String) :
      (lines.map fun line => Utf8.encode line.toList).flatten =
        Utf8.encode (lines.flatMap String.toList) := by
    induction lines with
    | nil => rfl
    | cons line rest ih =>
      rw [List.map_cons, List.flatten_cons, ih, List.flatMap_cons, Utf8.encode_append]
  rw [hencode, reportBytes, List.flatMap_assoc]
  simp only [flatMap_report]

namespace Merger

variable {before after : Merger}

/-- What the sink holds is what the tracked changes give. -/
structure Reported (merger : Merger) : Prop where
  accepts : merger.reports.AcceptsAll
  bytes : merger.reports.bytes = reportBytes (conflictsAmong [] merger.tracked)

theorem Sound.found_eq (hsound : before.Sound) (changes : List Change)
    (hdetect : before.options.detectConflicts = true) :
    before.found changes = conflictsAmong before.changes changes := by
  have hknows := hsound.knows
  rw [tracked_of_detects hdetect] at hknows
  rw [found, if_pos hdetect, (hknows.checkChanges changes).1, conflictsAfter_definitionsOf]

theorem Reported.takes (hreported : before.Reported) (hsound : before.Sound)
    (htakes : before.Takes after) : after.Reported := by
  obtain ⟨changes, -, rfl⟩ := htakes
  obtain ⟨-, hbytes, haccepts⟩ := take_of_acceptsAll hreported.accepts changes
  refine ⟨haccepts, ?_⟩
  rw [hbytes, hreported.bytes, reportChunks, flatten_reports, ← reportBytes_append]
  cases hdetect : before.options.detectConflicts with
  | false =>
    have hafter : (before.take changes).1.options.detectConflicts = false := by simpa using hdetect
    rw [tracked_of_not_detects hdetect, tracked_of_not_detects hafter]
    simp [found, hdetect, conflictsAmong]
  | true =>
    have hafter : (before.take changes).1.options.detectConflicts = true := by simpa using hdetect
    rw [hsound.found_eq changes hdetect, tracked_of_detects hdetect, tracked_of_detects hafter,
      take_changes, conflictsAmong_append, List.nil_append]

theorem Reported.reaches (hreported : before.Reported) (hsound : before.Sound)
    (hreaches : before.Reaches after) : after.Reported := by
  induction hreaches with
  | refl => exact hreported
  | tail hreaches htakes ih => exact ih.takes (hsound.reaches hreaches) htakes

theorem reported_new (options : Options) : (new options Sink.unlimited).Reported := by
  have htracked : (new options Sink.unlimited).tracked = [] := ite_self []
  refine ⟨Sink.acceptsAll_unlimited, ?_⟩
  rw [htracked]
  rfl

theorem reported_run (options : Options) (calls : List Call) :
    ((new options Sink.unlimited).run calls).Reported :=
  (reported_new options).reaches (sound_new options _) (run_reaches _ calls)

theorem Reported.bytes_eq (hreported : before.Reported)
    (hdetect : before.options.detectConflicts = true) :
    before.reports.bytes = reportBytes (conflictsAmong [] before.changes) := by
  rw [hreported.bytes, tracked_of_detects hdetect]

theorem Reported.bytes_eq_nil (hreported : before.Reported)
    (hdetect : before.options.detectConflicts = false) : before.reports.bytes = [] := by
  rw [hreported.bytes, tracked_of_not_detects hdetect]
  rfl

/-- What is added to the sink on the way is what the changes that were added give. -/
theorem Reported.exists_taken (hreported : before.Reported) (hsound : before.Sound)
    (hdetect : before.options.detectConflicts = true) (hreaches : before.Reaches after) :
    ∃ taken, after.changes = before.changes ++ taken ∧
      after.reports.bytes =
        before.reports.bytes ++ reportBytes (conflictsAmong before.changes taken) := by
  obtain ⟨taken, htaken⟩ := hreaches.changes_prefix
  have hafter := hreported.reaches hsound hreaches
  have hdetectAfter : after.options.detectConflicts = true := by rw [hreaches.options_eq, hdetect]
  refine ⟨taken, htaken.symm, ?_⟩
  rw [hafter.bytes_eq hdetectAfter, hreported.bytes_eq hdetect, ← reportBytes_append, ← htaken,
    conflictsAmong_append, List.nil_append]

/-- The count of conflicts is the number of reports. -/
theorem Sound.conflictCount_eq_length (hsound : before.Sound)
    (hdetect : before.options.detectConflicts = true) :
    before.conflictCount = (conflictsAmong [] before.changes).length := by
  have hcount := hsound.knows.count
  rw [tracked_of_detects hdetect] at hcount
  rw [conflictCount, hcount, ← conflictsAfter_definitionsOf]
  rfl

/-- After every run the bytes in the error sink are those that the changes held give, each call has
added the part of the changes it brought, and the way in which they came does not matter. -/
theorem reports_run (options : Options) (calls : List Call) :
    let merger := (new options Sink.unlimited).run calls
    (options.detectConflicts = true →
      merger.reports.bytes = reportBytes (conflictsAmong [] merger.changes) ∧
      merger.conflictCount = (conflictsAmong [] merger.changes).length ∧
      (∀ call, ∃ taken,
        (merger.call call).changes = merger.changes ++ taken ∧
        (merger.call call).reports.bytes =
          merger.reports.bytes ++ reportBytes (conflictsAmong merger.changes taken)) ∧
      (∀ (view : View) {τ : Type} [ByteSink τ] (sink : τ),
        (merger.call (.write view sink)).reports = merger.reports) ∧
      ∀ others, ((new options Sink.unlimited).run others).changes = merger.changes →
        ((new options Sink.unlimited).run others).reports.bytes = merger.reports.bytes) ∧
    (options.detectConflicts = false → merger.reports.bytes = []) := by
  intro merger
  have hsound : merger.Sound := sound_run options _ calls
  have hreported : merger.Reported := reported_run options calls
  have hoptions : merger.options = options := options_run options _ calls
  rw [← hoptions]
  constructor
  · intro hdetect
    refine ⟨hreported.bytes_eq hdetect, hsound.conflictCount_eq_length hdetect, ?_, ?_, ?_⟩
    · intro call
      exact hreported.exists_taken hsound hdetect (merger.call_reaches call)
    · intro view τ _ sink
      rfl
    · intro others hsame
      have hothers := reported_run merger.options others
      rw [hothers.bytes_eq (by rw [options_run, hdetect]), hreported.bytes_eq hdetect, hsame]
  · exact hreported.bytes_eq_nil

end Merger

end CompatChanges
