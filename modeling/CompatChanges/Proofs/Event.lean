import CompatChanges.Proofs.Bare

/-!
# What a source says

Spans aside, a document depends only on the events of its source: the tags and texts in order. Each
piece gives its events on its own, and the tree is built from the events alone.
-/

namespace CompatChanges.Xml

open Text

inductive Event where
  | start (name : String) (attributes : List Attribute)
  | stop (name : String)
  | text (string : String)
  | cdata (string : String)
  deriving Repr, DecidableEq

def bareAttributes? : List (Except AttributeFault RawAttribute) → Option (List Attribute)
  | [] => some []
  | .error _ :: _ => none
  | .ok raw :: rest =>
    match unescape raw.value with
    | .error _ => none
    | .ok value =>
      (bareAttributes? rest).map (⟨String.ofList raw.key, String.ofList value, {}⟩ :: ·)

theorem toOption_placeAttributes (base : Nat) (cursor : Option Cursor)
    (raws : List (Except AttributeFault RawAttribute)) :
    (placeAttributes base cursor raws).toOption.map (List.map Attribute.bare) =
      bareAttributes? raws := by
  induction raws generalizing cursor with
  | nil => rfl
  | cons raw rest ih =>
    cases raw with
    | error fault => rfl
    | ok raw =>
      rw [placeAttributes, bareAttributes?]
      cases unescape raw.value with
      | error fault => rfl
      | ok value =>
        dsimp only
        rw [← ih]
        cases placeAttributes base _ rest <;> rfl

theorem toOption_readAttributes (content : List Char) (base : Nat) :
    (readAttributes content base).toOption.map (List.map Attribute.bare) =
      bareAttributes? (rawAttributes true content) :=
  toOption_placeAttributes base _ _

/-- The events of an item, if it can be read. An empty tag is a start and a stop. -/
def Item.events? : Item → Option (List Event)
  | .text raw => (unescape raw).toOption.map fun chars => [.text (String.ofList chars)]
  | .cdata content => some [.cdata (String.ofList content)]
  | .startTag content =>
    (bareAttributes? (rawAttributes true content)).map fun attributes =>
      [.start (String.ofList (tagName content)) attributes]
  | .emptyTag content =>
    (bareAttributes? (rawAttributes true content)).map fun attributes =>
      [.start (String.ofList (tagName content)) attributes,
        .stop (String.ofList (tagName content))]
  | .endTag name => some [.stop (String.ofList name)]
  | .declaration content => (checkDeclaration content).toOption.map fun _ => []
  | .instruction | .comment | .doctype => some []

def Piece.events? (piece : Piece) : Option (List Event) := piece.item.toOption.bind Item.events?

def eventsOf? : List Piece → Option (List Event)
  | [] => some []
  | piece :: rest => piece.events?.bind fun events => (eventsOf? rest).map (events ++ ·)

theorem eventsOf?_append (left right : List Piece) :
    eventsOf? (left ++ right) =
      (eventsOf? left).bind fun events => (eventsOf? right).map (events ++ ·) := by
  induction left with
  | nil => simp [eventsOf?]
  | cons piece rest ih =>
    rw [List.cons_append, eventsOf?, eventsOf?, ih]
    cases piece.events? <;> cases eventsOf? rest <;> cases eventsOf? right <;> simp

def OpenElement.bare (element : OpenElement) : OpenElement :=
  ⟨element.name, element.attributes.map Attribute.bare, 0, element.children.map Node.bare⟩

namespace Assembly

def bare (assembly : Assembly) : Assembly :=
  ⟨assembly.pending.map OpenElement.bare, assembly.root.map Element.bare⟩

/-- What an event does to a document under way, if it may come there. -/
def take? (assembly : Assembly) : Event → Option Assembly
  | .start name attributes =>
    some { assembly with pending := ⟨name, attributes, 0, []⟩ :: assembly.pending }
  | .stop name =>
    match assembly.pending with
    | [] => none
    | element :: outer =>
      if element.name = name then
        ({ assembly with pending := outer }.complete (element.close 0)).toOption
      else none
  | .text string =>
    match assembly.pending with
    | [] => if string.toList.all isBlank then some assembly else none
    | element :: outer => some { assembly with pending := element.push (.text string {}) :: outer }
  | .cdata string =>
    match assembly.pending with
    | [] => none
    | element :: outer => some { assembly with pending := element.push (.text string {}) :: outer }

def takeAll? (assembly : Assembly) : List Event → Option Assembly
  | [] => some assembly
  | event :: rest => (assembly.take? event).bind fun next => next.takeAll? rest

theorem takeAll?_append (assembly : Assembly) (left right : List Event) :
    assembly.takeAll? (left ++ right) =
      (assembly.takeAll? left).bind fun next => next.takeAll? right := by
  induction left generalizing assembly with
  | nil => rfl
  | cons event rest ih =>
    rw [List.cons_append, takeAll?, takeAll?, Option.bind_assoc]
    simp only [ih]

theorem toOption_complete (assembly : Assembly) (element : Element) :
    (assembly.complete element).toOption.map bare =
      (assembly.bare.complete element.bare).toOption := by
  obtain ⟨pending, root⟩ := assembly
  cases pending <;> cases root <;> rfl

theorem close_bare (element : OpenElement) (stop : Nat) :
    (element.close stop).bare = element.bare.close 0 := by
  unfold OpenElement.close OpenElement.bare
  rw [Element.bare_mk, ← Content.ofNodes_map_bare, List.map_reverse]

theorem toOption_openTag (assembly : Assembly) (content : List Char) (span : Span) :
    (assembly.openTag content span).toOption.map bare =
      (Item.startTag content).events?.bind assembly.bare.takeAll? := by
  have hread := toOption_readAttributes content (span.start + 1)
  unfold openTag
  rw [Item.events?, ← hread]
  cases readAttributes content (span.start + 1) <;> rfl

theorem toOption_emptyTag (assembly : Assembly) (content : List Char) (span : Span) :
    (assembly.emptyTag content span).toOption.map bare =
      (Item.emptyTag content).events?.bind assembly.bare.takeAll? := by
  have hread := toOption_readAttributes content (span.start + 1)
  unfold emptyTag
  rw [Item.events?, ← hread]
  cases readAttributes content (span.start + 1) with
  | error fault => rfl
  | ok attributes =>
    refine (toOption_complete assembly _).trans ?_
    change _ = assembly.bare.takeAll? [.start _ (attributes.map Attribute.bare), .stop _]
    simp only [takeAll?, take?, if_true, Option.bind_some]
    exact (Option.bind_fun_some _).symm

theorem toOption_closeTag (assembly : Assembly) (name : List Char) (span : Span) :
    (assembly.closeTag name span).toOption.map bare =
      (Item.endTag name).events?.bind assembly.bare.takeAll? := by
  obtain ⟨pending, root⟩ := assembly
  cases pending with
  | nil => rfl
  | cons element outer =>
    have hname : element.bare.name = element.name := rfl
    by_cases hsame : element.name = String.ofList name
    · have hcomplete := toOption_complete ⟨outer, root⟩ (element.close span.stop)
      rw [close_bare] at hcomplete
      simpa [closeTag, Item.events?, takeAll?, take?, bare, hname, hsame] using hcomplete
    · simp [closeTag, Item.events?, takeAll?, take?, bare, hname, hsame, Except.toOption]

theorem toOption_addText (assembly : Assembly) (raw : List Char) (span : Span) :
    (assembly.addText raw span).toOption.map bare =
      (Item.text raw).events?.bind assembly.bare.takeAll? := by
  obtain ⟨pending, root⟩ := assembly
  unfold addText
  rw [Item.events?]
  cases unescape raw with
  | error fault => rfl
  | ok chars =>
    cases pending with
    | cons element outer => rfl
    | nil =>
      by_cases hblank : chars.all isBlank = true <;>
        simp [takeAll?, take?, bare, hblank, Except.toOption]

theorem toOption_addItem (assembly : Assembly) (span : Span) (item : Item) :
    (assembly.addItem span item).toOption.map bare =
      item.events?.bind assembly.bare.takeAll? := by
  cases item with
  | text raw => exact assembly.toOption_addText raw span
  | cdata content =>
    obtain ⟨pending, root⟩ := assembly
    cases pending <;> rfl
  | startTag content => exact assembly.toOption_openTag content span
  | emptyTag content => exact assembly.toOption_emptyTag content span
  | endTag name => exact assembly.toOption_closeTag name span
  | declaration content =>
    simp only [addItem, Item.events?]
    cases checkDeclaration content <;> rfl
  | instruction => rfl
  | comment => rfl
  | doctype => rfl

theorem toOption_addPieces (assembly : Assembly) (offset : Nat) (pieces : List Piece) :
    (assembly.addPieces offset pieces).toOption.map bare =
      (eventsOf? pieces).bind assembly.bare.takeAll? := by
  induction pieces generalizing assembly offset with
  | nil => rfl
  | cons piece rest ih =>
    have hpiece : (assembly.addPiece ⟨offset, offset + piece.size⟩ piece).toOption.map bare =
        piece.events?.bind assembly.bare.takeAll? := by
      unfold addPiece Piece.events?
      cases piece.item with
      | error fault => rfl
      | ok item => exact assembly.toOption_addItem _ item
    -- If this piece fails there are no events for it, or they cannot be taken.
    rw [addPieces, eventsOf?]
    cases hadd : assembly.addPiece ⟨offset, offset + piece.size⟩ piece with
    | error error =>
      rw [hadd] at hpiece
      cases hevents : piece.events? with
      | none => rfl
      | some events =>
        rw [hevents] at hpiece
        have hnone : assembly.bare.takeAll? events = none := hpiece.symm
        cases eventsOf? rest <;> simp [takeAll?_append, hnone, Except.toOption]
    | ok next =>
      rw [hadd] at hpiece
      cases hevents : piece.events? with
      | none => simp [hevents, Except.toOption] at hpiece
      | some events =>
        rw [hevents] at hpiece
        have hsome : assembly.bare.takeAll? events = some next.bare := hpiece.symm
        refine (ih next _).trans ?_
        cases eventsOf? rest <;> simp [takeAll?_append, hsome]

theorem toOption_finish (assembly : Assembly) :
    assembly.finish.toOption.map Element.bare = assembly.bare.finish.toOption := by
  obtain ⟨pending, root⟩ := assembly
  cases pending <;> cases root <;> rfl

end Assembly

/-- Up to spans the root of a source is what its events build. -/
theorem toOption_parseRoot (source : List Char) :
    (parseRoot source).toOption.map Element.bare =
      ((eventsOf? (pieces (dropMark source))).bind Assembly.empty.takeAll?).bind
        fun assembly => assembly.finish.toOption := by
  have hpieces := Assembly.empty.toOption_addPieces 0 (pieces (dropMark source))
  have hempty : Assembly.empty.bare = Assembly.empty := rfl
  rw [hempty] at hpieces
  unfold parseRoot
  rw [← hpieces]
  cases Assembly.empty.addPieces 0 (pieces (dropMark source)) with
  | error error => rfl
  | ok assembly => exact assembly.toOption_finish

theorem toOption_eq_some_iff {ε α : Type} {result : Except ε α} {value : α} :
    result.toOption = some value ↔ result = .ok value := by
  cases result <;> simp [Except.toOption]

/-- A source is a document with this root, spans aside, if its events build it. -/
theorem exists_parseChars_iff {source : List Char} {root : Element} :
    (∃ document, parseChars source = .ok document ∧ document.root.bare = root) ↔
      ∃ events last, eventsOf? (pieces (dropMark source)) = some events ∧
        Assembly.empty.takeAll? events = some last ∧ last.finish = .ok root := by
  have hbuilt : (∃ events last, eventsOf? (pieces (dropMark source)) = some events ∧
      Assembly.empty.takeAll? events = some last ∧ last.finish = .ok root) ↔
        (parseRoot source).toOption.map Element.bare = some root := by
    rw [toOption_parseRoot]
    simp only [Option.bind_eq_some_iff, toOption_eq_some_iff]
    constructor
    · rintro ⟨events, last, hevents, htake, hfinish⟩
      exact ⟨last, ⟨events, hevents, htake⟩, hfinish⟩
    · rintro ⟨last, ⟨events, hevents, htake⟩, hfinish⟩
      exact ⟨events, last, hevents, htake, hfinish⟩
  rw [hbuilt]
  unfold parseChars
  cases parseRoot source with
  | error error => simp [Except.map, Except.toOption]
  | ok found => simp [Except.map, Except.toOption]

end CompatChanges.Xml
