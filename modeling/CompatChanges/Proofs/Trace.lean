import CompatChanges.Proofs.Definition

/-!
# What a tracker answers

A tracker is asked about single definitions and about changes, in any order. What it answers is
settled by the definitions that it was asked about before: a definition is in conflict with the
earliest of them that gave its key the same value, and with no other. The ids and the names are two
worlds apart.
-/

namespace CompatChanges

variable {definition : Definition} {earlier : List Definition} {conflict : Conflict}

/-- The conflict of a definition with the earliest of `earlier` that gave its key the same value. -/
def Definition.Repeats (definition : Definition) (earlier : List Definition)
    (conflict : Conflict) : Prop :=
  ∃ before first after, earlier = before ++ first :: after ∧
    (first.key = definition.key ∧ first.value = definition.value) ∧
    (∀ other ∈ before, ¬(other.key = definition.key ∧ other.value = definition.value)) ∧
    conflict = ⟨definition.key, definition.value, first.origin, definition.origin⟩

theorem Definition.conflict?_eq_some_iff :
    definition.conflict? earlier = some conflict ↔ definition.Repeats earlier conflict := by
  unfold conflict? firstDefinition? Repeats
  simp only [Option.map_eq_some_iff, List.find?_eq_some_iff_append, Bool.and_eq_true,
    decide_eq_true_eq, Bool.not_eq_true', Bool.and_eq_false_iff, decide_eq_false_iff_not, not_and_or]
  constructor
  · rintro ⟨first, ⟨hsame, before, after, rfl, hbefore⟩, rfl⟩
    exact ⟨before, first, after, rfl, hsame, hbefore, rfl⟩
  · rintro ⟨before, first, after, rfl, hsame, hbefore, rfl⟩
    exact ⟨first, ⟨hsame, before, after, rfl, hbefore⟩, rfl⟩

theorem Definition.isSome_conflict?_iff :
    (definition.conflict? earlier).isSome ↔
      ∃ other ∈ earlier, other.key = definition.key ∧ other.value = definition.value := by
  simp [conflict?, firstDefinition?]

/-- Definitions of the other key do not matter. -/
theorem firstDefinition?_filter (earlier : List Definition) (key : Key) (value : String) :
    firstDefinition? (earlier.filter (·.key = key)) key value = firstDefinition? earlier key value := by
  unfold firstDefinition?
  rw [List.find?_filter]
  congr 1
  funext other
  by_cases hkey : other.key = key <;> simp [hkey]

namespace Tracker

/-- What a tracker can be asked about. -/
inductive Question where
  | single (definition : Definition)
  | both (change : Change)

def Question.definitions : Question → List Definition
  | .single definition => [definition]
  | .both change => change.definitions

def answer (tracker : Tracker) : Question → Tracker × List Conflict
  | .single definition =>
    let checked := tracker.check definition.key definition.value definition.origin
    (checked.1, checked.2.toList)
  | .both change => tracker.checkChange change

/-- The tracker after questions, and what it answered to each. -/
def answers (tracker : Tracker) : List Question → Tracker × List (List Conflict)
  | [] => (tracker, [])
  | question :: rest =>
    let (tracker, found) := tracker.answer question
    let (tracker, later) := tracker.answers rest
    (tracker, found :: later)

variable {tracker : Tracker}

theorem answers_append (tracker : Tracker) (left right : List Question) :
    tracker.answers (left ++ right) =
      (((tracker.answers left).1.answers right).1,
        (tracker.answers left).2 ++ ((tracker.answers left).1.answers right).2) := by
  induction left generalizing tracker with
  | nil => rfl
  | cons question rest ih => simp only [List.cons_append, answers, ih]

theorem answers_toList_definition? (tracker : Tracker) (change : Change) (key : Key) :
    tracker.answers ((change.definition? key).toList.map .single) =
      ((tracker.checkKey change key).1,
        (change.definition? key).toList.map fun _ => (tracker.checkKey change key).2.toList) := by
  unfold Change.definition? checkKey
  cases change.key? key <;> rfl

/-- A change is checked definition by definition, the id before the name. -/
theorem answer_both (tracker : Tracker) (change : Change) :
    tracker.answer (.both change) =
      ((tracker.answers (change.definitions.map .single)).1,
        (tracker.answers (change.definitions.map .single)).2.flatten) := by
  have hflat (tracker : Tracker) (key : Key) :
      ((change.definition? key).toList.map fun _ => (tracker.checkKey change key).2.toList).flatten =
        (tracker.checkKey change key).2.toList := by
    unfold Change.definition? checkKey
    cases change.key? key <;> simp
  rw [Change.definitions, List.map_append, answers_append, answers_toList_definition?,
    answers_toList_definition?, List.flatten_append, hflat, hflat]
  rfl

theorem Knows.answer (hknows : tracker.Knows earlier) (question : Question) :
    (tracker.answer question).2 = conflictsAfter earlier question.definitions ∧
      (tracker.answer question).1.Knows (earlier ++ question.definitions) := by
  cases question with
  | single definition =>
    obtain ⟨hfound, hafter⟩ := hknows.check definition
    refine ⟨?_, hafter⟩
    rw [Tracker.answer, hfound]
    exact (List.append_nil _).symm
  | both change => exact hknows.checkChange change

theorem Knows.answers (hknows : tracker.Knows earlier) (questions : List Question) :
    (tracker.answers questions).2.flatten =
        conflictsAfter earlier (questions.flatMap Question.definitions) ∧
      (tracker.answers questions).1.Knows (earlier ++ questions.flatMap Question.definitions) := by
  induction questions generalizing tracker earlier with
  | nil => exact ⟨rfl, by simpa [Tracker.answers] using hknows⟩
  | cons question rest ih =>
    obtain ⟨hfound, hafter⟩ := hknows.answer question
    obtain ⟨hlater, hend⟩ := ih hafter
    rw [List.flatMap_cons, conflictsAfter_append, ← List.append_assoc, ← hfound, ← hlater]
    exact ⟨rfl, hend⟩

theorem flatMap_definitions_map (definitions : List Definition) :
    (definitions.map Question.single).flatMap Question.definitions = definitions := by
  induction definitions with
  | nil => rfl
  | cons definition rest ih => exact congrArg (definition :: ·) ih

/-- After any questions to a tracker that knew nothing, with `trace` the definitions in them: it has
counted the conflicts that it told. It tells a conflict of the next definition if and only if one in
the trace gave the key the same value, and then it cites the earliest. It answers to a change with
the conflicts of its definitions. Questions about the other key make no difference. -/
theorem answers_trace (questions : List Question) :
    let tracker := (empty.answers questions).1
    let trace := questions.flatMap Question.definitions
    tracker.count = (empty.answers questions).2.flatten.length ∧
      (∀ definition : Definition,
        let found := (tracker.check definition.key definition.value definition.origin).2
        (found.isSome ↔
            ∃ other ∈ trace, other.key = definition.key ∧ other.value = definition.value) ∧
          ∀ conflict, found = some conflict ↔ definition.Repeats trace conflict) ∧
      (∀ change : Change,
        tracker.checkChange change =
          ((tracker.answers (change.definitions.map .single)).1,
            (tracker.answers (change.definitions.map .single)).2.flatten)) ∧
      ∀ key value origin,
        ((empty.answers ((trace.filter (·.key = key)).map .single)).1.check key value origin).2 =
          (tracker.check key value origin).2 := by
  intro tracker trace
  have hknows : tracker.Knows trace := (knows_empty.answers questions).2
  refine ⟨?_, ?_, tracker.answer_both, ?_⟩
  · rw [hknows.count, (knows_empty.answers questions).1]
    rfl
  · intro definition found
    have hfound : found = definition.conflict? trace := (hknows.check definition).1
    rw [hfound]
    exact ⟨Definition.isSome_conflict?_iff, fun _ => Definition.conflict?_eq_some_iff⟩
  · intro key value origin
    have hown := (knows_empty.answers ((trace.filter (·.key = key)).map .single)).2
    rw [List.nil_append, flatMap_definitions_map] at hown
    rw [(hown.check ⟨key, value, origin⟩).1, (hknows.check ⟨key, value, origin⟩).1,
      Definition.conflict?, Definition.conflict?, firstDefinition?_filter]

end Tracker

end CompatChanges
