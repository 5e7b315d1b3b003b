import CompatChanges.Conflict
import Mathlib.Data.Finset.Card

/-!
# Definitions and the conflicts among them

A change defines its id and then its name. Which definitions are in conflict depends on their order
alone: each that gives a key the value of an earlier one is in conflict with the earliest such one.
The tracker finds exactly these conflicts, and its count is what the distinct values leave over.
-/

namespace CompatChanges

structure Definition where
  key : Key
  value : String
  origin : Origin
  deriving DecidableEq

/-- The definition of `key` by the change, if it has the key. -/
def Change.definition? (change : Change) (key : Key) : Option Definition :=
  (change.key? key).map fun value => ⟨key, value, change.origin⟩

/-- The definition of the id and then that of the name, as far as there are any. -/
def Change.definitions (change : Change) : List Definition :=
  (change.definition? .id).toList ++ (change.definition? .name).toList

def definitionsOf (changes : List Change) : List Definition := changes.flatMap Change.definitions

@[simp]
theorem definitionsOf_nil : definitionsOf [] = [] := rfl

theorem definitionsOf_cons (change : Change) (rest : List Change) :
    definitionsOf (change :: rest) = change.definitions ++ definitionsOf rest := rfl

@[simp]
theorem definitionsOf_append (left right : List Change) :
    definitionsOf (left ++ right) = definitionsOf left ++ definitionsOf right :=
  List.flatMap_append

/-- The earliest definition of `value` for `key`. -/
def firstDefinition? (definitions : List Definition) (key : Key) (value : String) :
    Option Definition :=
  definitions.find? fun definition => definition.key = key && definition.value = value

/-- The conflict of a definition with the earliest of `earlier` that has its key and its value. -/
def Definition.conflict? (definition : Definition) (earlier : List Definition) : Option Conflict :=
  (firstDefinition? earlier definition.key definition.value).map fun first =>
    ⟨definition.key, definition.value, first.origin, definition.origin⟩

/-- The conflicts of further definitions, in order, when `earlier` came before them. -/
def conflictsAfter (earlier : List Definition) : List Definition → List Conflict
  | [] => []
  | definition :: rest =>
    (definition.conflict? earlier).toList ++ conflictsAfter (earlier ++ [definition]) rest

def conflictsOf (definitions : List Definition) : List Conflict := conflictsAfter [] definitions

theorem conflictsAfter_append (earlier left right : List Definition) :
    conflictsAfter earlier (left ++ right) =
      conflictsAfter earlier left ++ conflictsAfter (earlier ++ left) right := by
  induction left generalizing earlier with
  | nil => simp [conflictsAfter]
  | cons definition rest ih => simp [conflictsAfter, ih]

theorem conflictsOf_append (left right : List Definition) :
    conflictsOf (left ++ right) = conflictsOf left ++ conflictsAfter left right := by
  simpa [conflictsOf] using conflictsAfter_append [] left right

/-! ### What the tracker knows -/

namespace Tracker

/-- The tracker has taken note of exactly these definitions, in this order. -/
structure Knows (tracker : Tracker) (definitions : List Definition) : Prop where
  first : ∀ key value,
    tracker.first? key value = (firstDefinition? definitions key value).map (·.origin)
  count : tracker.count = (conflictsOf definitions).length

variable {tracker : Tracker} {earlier : List Definition}

theorem knows_empty : empty.Knows [] where
  first := by
    intro key value
    cases key <;> rfl
  count := rfl

theorem first?_define (tracker : Tracker) (key other : Key) (value string : String) (origin : Origin) :
    (tracker.define key value origin).first? other string =
      if other = key ∧ string = value then some origin else tracker.first? other string := by
  by_cases hvalue : string = value
  · subst hvalue
    cases key <;> cases other <;> simp [define, first?]
  · have hbeq : (string == value) = false := by simpa using hvalue
    cases key <;> cases other <;> simp [define, first?, List.lookup_cons, hvalue, hbeq]

/-- Looking further ahead does not change the first definition; it only finds one more. -/
theorem firstDefinition?_concat (definitions : List Definition) (definition : Definition) (key : Key)
    (value : String) :
    firstDefinition? (definitions ++ [definition]) key value =
      (firstDefinition? definitions key value).or
        (if definition.key = key ∧ definition.value = value then some definition else none) := by
  by_cases hmatch : definition.key = key ∧ definition.value = value <;>
    simp [firstDefinition?, List.find?_append, hmatch]

/-- One check: it tells the conflict of the definition, and the tracker knows one definition more. -/
theorem Knows.check (hknows : tracker.Knows earlier) (definition : Definition) :
    (tracker.check definition.key definition.value definition.origin).2 =
        definition.conflict? earlier ∧
      (tracker.check definition.key definition.value definition.origin).1.Knows
        (earlier ++ [definition]) := by
  have hfirst := hknows.first definition.key definition.value
  have hcount : (conflictsOf (earlier ++ [definition])).length =
      (conflictsOf earlier).length + (definition.conflict? earlier).toList.length := by
    simp [conflictsOf_append, conflictsAfter]
  unfold Tracker.check
  cases hseen : firstDefinition? earlier definition.key definition.value with
  | none =>
    rw [hseen, Option.map_none] at hfirst
    have hnone : definition.conflict? earlier = none := by simp [Definition.conflict?, hseen]
    rw [hfirst, hnone]
    refine ⟨rfl, ⟨fun key value => ?_, ?_⟩⟩
    · rw [first?_define, firstDefinition?_concat, hknows.first]
      by_cases hmatch : key = definition.key ∧ value = definition.value
      · obtain ⟨rfl, rfl⟩ := hmatch
        simp [hseen]
      · have hmiss : ¬ (definition.key = key ∧ definition.value = value) := by
          rintro ⟨rfl, rfl⟩
          exact hmatch ⟨rfl, rfl⟩
        simp [hmatch, hmiss]
    · rw [hcount, hnone, ← hknows.count]
      cases definition.key <;> rfl
  | some first =>
    rw [hseen, Option.map_some] at hfirst
    have hsome : definition.conflict? earlier =
        some ⟨definition.key, definition.value, first.origin, definition.origin⟩ := by
      simp [Definition.conflict?, hseen]
    rw [hfirst, hsome]
    refine ⟨rfl, ⟨fun key value => ?_, ?_⟩⟩
    · rw [firstDefinition?_concat]
      change tracker.first? key value = _
      rw [hknows.first]
      by_cases hmatch : definition.key = key ∧ definition.value = value
      · obtain ⟨rfl, rfl⟩ := hmatch
        simp [hseen]
      · simp [hmatch]
    · rw [hcount, hsome, ← hknows.count]
      rfl

theorem Knows.checkKey (hknows : tracker.Knows earlier) (change : Change) (key : Key) :
    (tracker.checkKey change key).2.toList =
        conflictsAfter earlier (change.definition? key).toList ∧
      (tracker.checkKey change key).1.Knows (earlier ++ (change.definition? key).toList) := by
  unfold Tracker.checkKey Change.definition?
  cases change.key? key with
  | none => exact ⟨rfl, by simpa using hknows⟩
  | some value =>
    obtain ⟨hfound, hafter⟩ := hknows.check ⟨key, value, change.origin⟩
    exact ⟨by simp [hfound, conflictsAfter], by simpa using hafter⟩

theorem Knows.checkChange (hknows : tracker.Knows earlier) (change : Change) :
    (tracker.checkChange change).2 = conflictsAfter earlier change.definitions ∧
      (tracker.checkChange change).1.Knows (earlier ++ change.definitions) := by
  obtain ⟨hid, hafterId⟩ := hknows.checkKey change .id
  obtain ⟨hname, hafterName⟩ := hafterId.checkKey change .name
  constructor
  · rw [Change.definitions, conflictsAfter_append, ← hid, ← hname]
    rfl
  · rw [Change.definitions, ← List.append_assoc]
    exact hafterName

/-- Taking note of changes tells the conflicts of their definitions with all that is known. -/
theorem Knows.checkChanges (hknows : tracker.Knows earlier) (changes : List Change) :
    (tracker.checkChanges changes).2 = conflictsAfter earlier (definitionsOf changes) ∧
      (tracker.checkChanges changes).1.Knows (earlier ++ definitionsOf changes) := by
  induction changes generalizing tracker earlier with
  | nil => exact ⟨rfl, by simpa [Tracker.checkChanges] using hknows⟩
  | cons change rest ih =>
    obtain ⟨hfound, hafter⟩ := hknows.checkChange change
    obtain ⟨hlater, hend⟩ := ih hafter
    constructor
    · rw [definitionsOf_cons, conflictsAfter_append, ← hfound, ← hlater]
      rfl
    · rw [definitionsOf_cons, ← List.append_assoc]
      exact hend

end Tracker

/-! ### Counting -/

/-- The values that definitions give to `key`. -/
def valuesOf (key : Key) (definitions : List Definition) : List String :=
  (definitions.filter (·.key = key)).map (·.value)

theorem valuesOf_append (key : Key) (left right : List Definition) :
    valuesOf key (left ++ right) = valuesOf key left ++ valuesOf key right := by
  simp [valuesOf]

theorem mem_valuesOf {key : Key} {definitions : List Definition} {value : String} :
    value ∈ valuesOf key definitions ↔ (firstDefinition? definitions key value).isSome := by
  simp [valuesOf, firstDefinition?, and_comm, and_assoc]

theorem length_conflictsOf_concat (earlier : List Definition) (definition : Definition) :
    (conflictsOf (earlier ++ [definition])).length =
      (conflictsOf earlier).length +
        if definition.value ∈ valuesOf definition.key earlier then 1 else 0 := by
  rw [conflictsOf_append, List.length_append, conflictsAfter, conflictsAfter, List.append_nil]
  cases hseen : firstDefinition? earlier definition.key definition.value <;>
    simp [mem_valuesOf, Definition.conflict?, hseen]

theorem card_valuesOf_concat (key : Key) (earlier : List Definition) (definition : Definition) :
    (valuesOf key (earlier ++ [definition])).toFinset.card =
      (valuesOf key earlier).toFinset.card +
        if definition.key = key ∧ definition.value ∉ valuesOf definition.key earlier then 1 else 0 := by
  rw [valuesOf_append]
  by_cases hkey : definition.key = key
  · subst hkey
    have hlast : valuesOf definition.key [definition] = [definition.value] := by simp [valuesOf]
    have hinsert : (valuesOf definition.key earlier ++ [definition.value]).toFinset =
        insert definition.value (valuesOf definition.key earlier).toFinset := by
      ext value
      simp
    rw [hlast, hinsert]
    by_cases hmem : definition.value ∈ valuesOf definition.key earlier
    · simp [hmem]
    · rw [Finset.card_insert_of_notMem (by simpa using hmem)]
      simp [hmem]
  · have hnone : valuesOf key [definition] = [] := by simp [valuesOf, hkey]
    simp [hnone, hkey]

/-- Every definition either brings a new value of its key or is a conflict. -/
theorem length_conflictsOf_add_card (definitions : List Definition) :
    (conflictsOf definitions).length + (valuesOf .id definitions).toFinset.card +
      (valuesOf .name definitions).toFinset.card = definitions.length := by
  -- Whether a definition is new depends on those before it, so the last one is taken off.
  induction definitions using List.reverseRecOn with
  | nil => rfl
  | append_singleton earlier definition ih =>
    rw [length_conflictsOf_concat, card_valuesOf_concat, card_valuesOf_concat, List.length_append,
      ← ih]
    cases hkey : definition.key <;>
      by_cases hmem : definition.value ∈ valuesOf definition.key earlier <;>
      simp_all <;> omega

end CompatChanges
