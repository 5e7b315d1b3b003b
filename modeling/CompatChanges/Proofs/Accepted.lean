import CompatChanges.Proofs.Kept

/-!
# Which sources are documents

Reading stops at the first fault, and some faults show late: a second root only where it is complete,
an element without an end tag only at the end. Which sources are documents can nevertheless be said
piece by piece: each can be read, each fits where it stands, nothing stays open, and one element
stands outside all others.
-/

namespace CompatChanges.Xml

open Text

/-! ### Attributes -/

/-- The attributes of a tag are well formed, have distinct names, and their values can be read. -/
def HasAttributes (content : List Char) : Prop :=
  ∃ raws : List RawAttribute, rawAttributes false content = raws.map .ok ∧
    (raws.map RawAttribute.key).Nodup ∧ ∀ raw ∈ raws, ∃ value, unescape raw.value = .ok value

/-- The key whose value is still to come. -/
def AttributeStage.key? : AttributeStage → Option PlacedKey
  | .beforeKey | .inKey _ _ | .afterKey _ => none
  | .beforeValue key | .inValue key _ _ => some key

/-- A key is read once, and its value completes the attribute. -/
theorem AttributeStage.step_cases (stage : AttributeStage) (offset : Nat) (c : Char) :
    (∃ next, stage.step offset c = .next next ∧ next.key? = stage.key?) ∨
      (∃ key, stage.step offset c = .keyed key ∧ stage.key? = none) ∨
      (∃ key value, stage.step offset c = .complete ⟨key.key, value⟩ ∧ stage.key? = some key) ∨
      ∃ fault, stage.step offset c = .refuse fault := by
  cases stage with
  | beforeKey =>
    refine .inl ⟨_, rfl, ?_⟩
    split <;> rfl
  | inKey start seen =>
    by_cases hequals : c = '='
    · exact .inr (.inl ⟨_, if_pos hequals, rfl⟩)
    · refine .inl ⟨_, if_neg hequals, ?_⟩
      split <;> rfl
  | afterKey key =>
    by_cases hseparator : isSeparator c = true
    · exact .inl ⟨_, if_pos hseparator, rfl⟩
    · by_cases hequals : c = '='
      · exact .inr (.inl ⟨key, (if_neg hseparator).trans (if_pos hequals), rfl⟩)
      · exact .inr (.inr (.inr ⟨_, (if_neg hseparator).trans (if_neg hequals)⟩))
  | beforeValue key =>
    by_cases hseparator : isSeparator c = true
    · exact .inl ⟨_, if_pos hseparator, rfl⟩
    · by_cases hquote : isQuote c = true
      · exact .inl ⟨_, (if_neg hseparator).trans (if_pos hquote), rfl⟩
      · exact .inr (.inr (.inr ⟨_, (if_neg hseparator).trans (if_neg hquote)⟩))
  | inValue key quote seen =>
    by_cases hend : c = quote
    · exact .inr (.inr (.inl ⟨key, _, if_pos hend, rfl⟩))
    · exact .inl ⟨_, if_neg hend, rfl⟩

theorem error_cons_ne_map_ok {fault : AttributeFault}
    {rest : List (Except AttributeFault RawAttribute)} (raws : List RawAttribute) :
    .error fault :: rest ≠ raws.map .ok := by
  intro heq
  cases raws <;> cases heq

theorem exists_cons_of_key? {distinct : Bool} {earlier : List PlacedKey} {stage : AttributeStage}
    {key : PlacedKey} (hkey : stage.key? = some key) {offset : Nat} {chars : List Char}
    {raws : List RawAttribute}
    (hread : attributesFrom distinct earlier stage offset chars = raws.map .ok) :
    ∃ value rest, raws = ⟨key.key, value⟩ :: rest := by
  induction chars generalizing stage offset with
  | nil =>
    exfalso
    cases stage with
    | beforeKey => cases hkey
    | inKey start seen => cases hkey
    | afterKey key => cases hkey
    | beforeValue key => exact error_cons_ne_map_ok raws hread
    | inValue key quote seen => exact error_cons_ne_map_ok raws hread
  | cons c rest ih =>
    rw [attributesFrom] at hread
    rcases stage.step_cases offset c with
      ⟨next, hstep, hnext⟩ | ⟨other, hstep, hnone⟩ | ⟨other, value, hstep, hsome⟩ | ⟨fault, hstep⟩
    · rw [hstep] at hread
      exact ih (hnext.trans hkey) hread
    · rw [hkey] at hnone
      cases hnone
    · rw [hstep] at hread
      rw [hkey] at hsome
      cases hsome
      cases raws with
      | nil => cases hread
      | cons raw later =>
        rw [List.map_cons] at hread
        cases (List.cons.inj hread).1
        exact ⟨value, later, rfl⟩
    · rw [hstep] at hread
      exact absurd hread (error_cons_ne_map_ok raws)

/-- The keys of attributes to come that are not read yet. -/
def AttributeStage.keysAhead (stage : AttributeStage) (raws : List RawAttribute) : List (List Char) :=
  if stage.key?.isSome then (raws.map RawAttribute.key).tail else raws.map RawAttribute.key

theorem duplicateOf?_eq_none_iff {earlier : List PlacedKey} {key : PlacedKey} :
    duplicateOf? earlier key = none ↔ key.key ∉ earlier.map PlacedKey.key := by
  unfold duplicateOf?
  rw [Option.map_eq_none_iff, List.find?_eq_none]
  simp

/-- Refusing repeated keys as they come is the same as looking at all keys in the end. -/
theorem attributesFrom_true_iff {earlier : List PlacedKey}
    (hearlier : (earlier.map PlacedKey.key).Nodup) {stage : AttributeStage} {offset : Nat}
    {chars : List Char} {raws : List RawAttribute} :
    attributesFrom true earlier stage offset chars = raws.map .ok ↔
      attributesFrom false earlier stage offset chars = raws.map .ok ∧
        (stage.keysAhead raws ++ earlier.map PlacedKey.key).Nodup := by
  induction chars generalizing earlier stage offset raws with
  | nil =>
    refine ⟨fun hread => ⟨hread, ?_⟩, fun h => h.1⟩
    cases raws with
    | nil => simpa [AttributeStage.keysAhead] using hearlier
    | cons raw rest => cases hfault : stage.faultAtEnd? offset <;> simp [attributesFrom, hfault] at hread
  | cons c rest ih =>
    rw [attributesFrom, attributesFrom]
    rcases stage.step_cases offset c with
      ⟨next, hstep, hnext⟩ | ⟨key, hstep, hnone⟩ | ⟨key, value, hstep, hsome⟩ | ⟨fault, hstep⟩
    · rw [hstep]
      have hahead : stage.keysAhead raws = next.keysAhead raws := by
        rw [AttributeStage.keysAhead, AttributeStage.keysAhead, hnext]
      rw [hahead]
      exact ih hearlier
    · rw [hstep]
      have hahead : stage.keysAhead raws = raws.map RawAttribute.key := by
        simp [AttributeStage.keysAhead, hnone]
      rw [hahead]
      -- What is read after the `=` begins with an attribute of this key.
      have hfirst (distinct : Bool) (others : List PlacedKey)
          (hread : attributesFrom distinct others (.beforeValue key) (offset + c.utf8Size) rest =
            raws.map .ok) :
          raws.map RawAttribute.key = key.key :: (AttributeStage.beforeValue key).keysAhead raws := by
        obtain ⟨value, later, rfl⟩ := exists_cons_of_key? rfl hread
        rfl
      by_cases hseen : key.key ∈ earlier.map PlacedKey.key
      · have hfault : duplicateOf? earlier key ≠ none := mt duplicateOf?_eq_none_iff.mp (by simpa using hseen)
        obtain ⟨fault, hfault⟩ := Option.ne_none_iff_exists'.mp hfault
        simp only [hfault, if_true, Bool.false_eq_true, if_false]
        constructor
        · intro hread
          exact absurd hread (error_cons_ne_map_ok raws)
        · rintro ⟨hread, hnodup⟩
          rw [hfirst _ _ hread, List.cons_append, List.nodup_cons] at hnodup
          exact absurd (List.mem_append_right _ hseen) hnodup.1
      · have hnone : duplicateOf? earlier key = none := duplicateOf?_eq_none_iff.mpr hseen
        have hnext : ((key :: earlier).map PlacedKey.key).Nodup := List.nodup_cons.mpr ⟨hseen, hearlier⟩
        simp only [hnone, if_true, Bool.false_eq_true, if_false]
        rw [ih hnext]
        refine and_congr_right fun hread => ?_
        rw [hfirst _ _ hread, List.map_cons, List.cons_append]
        exact List.perm_middle.nodup_iff
    · rw [hstep]
      have hahead : stage.keysAhead raws = (raws.map RawAttribute.key).tail := by
        simp [AttributeStage.keysAhead, hsome]
      rw [hahead]
      cases raws with
      | nil => simp
      | cons raw later =>
        have hlater : attributesFrom true earlier .beforeKey (offset + c.utf8Size) rest =
            later.map .ok ↔
              attributesFrom false earlier .beforeKey (offset + c.utf8Size) rest = later.map .ok ∧
                (AttributeStage.beforeKey.keysAhead later ++ earlier.map PlacedKey.key).Nodup :=
          ih hearlier
        simp only [List.map_cons, List.cons.injEq, List.tail_cons, hlater, and_assoc]
        rfl
    · rw [hstep]
      constructor
      · intro hread
        exact absurd hread (error_cons_ne_map_ok raws)
      · rintro ⟨hread, -⟩
        exact absurd hread (error_cons_ne_map_ok raws)

theorem rawAttributes_true_iff {content : List Char} {raws : List RawAttribute} :
    rawAttributes true content = raws.map .ok ↔
      rawAttributes false content = raws.map .ok ∧ (raws.map RawAttribute.key).Nodup := by
  have hnil : (([] : List PlacedKey).map PlacedKey.key).Nodup := List.nodup_nil
  have hread : rawAttributes true content = raws.map .ok ↔
      rawAttributes false content = raws.map .ok ∧
        (AttributeStage.beforeKey.keysAhead raws ++ []).Nodup := attributesFrom_true_iff hnil
  rw [List.append_nil] at hread
  exact hread

theorem isSome_bareAttributes?_iff {raws : List (Except AttributeFault RawAttribute)} :
    (bareAttributes? raws).isSome ↔
      ∃ read : List RawAttribute, raws = read.map .ok ∧
        ∀ raw ∈ read, ∃ value, unescape raw.value = .ok value := by
  induction raws with
  | nil => exact ⟨fun _ => ⟨[], rfl, by simp⟩, fun _ => rfl⟩
  | cons raw rest ih =>
    cases raw with
    | error fault =>
      refine ⟨fun h => (Bool.false_ne_true h).elim, ?_⟩
      rintro ⟨read, hread, -⟩
      exact absurd hread (error_cons_ne_map_ok read)
    | ok raw =>
      rw [bareAttributes?]
      cases hvalue : unescape raw.value with
      | error fault =>
        refine ⟨fun h => (Bool.false_ne_true h).elim, ?_⟩
        rintro ⟨read, hread, hvalues⟩
        cases read with
        | nil => cases hread
        | cons first later =>
          cases (List.cons.inj hread).1
          obtain ⟨value, hfirst⟩ := hvalues raw (by simp)
          rw [hvalue] at hfirst
          cases hfirst
      | ok value =>
        simp only [Option.isSome_map, ih]
        constructor
        · rintro ⟨read, rfl, hvalues⟩
          exact ⟨raw :: read, rfl, List.forall_mem_cons.mpr ⟨⟨value, hvalue⟩, hvalues⟩⟩
        · rintro ⟨read, hread, hvalues⟩
          cases read with
          | nil => cases hread
          | cons first later =>
            obtain ⟨-, hlater⟩ := List.cons.inj hread
            exact ⟨later, hlater, (List.forall_mem_cons.mp hvalues).2⟩

/-- The attributes of a tag can be read if and only if they are as they should be. -/
theorem isSome_bareAttributes?_rawAttributes_iff {content : List Char} :
    (bareAttributes? (rawAttributes true content)).isSome ↔ HasAttributes content := by
  rw [isSome_bareAttributes?_iff]
  simp only [rawAttributes_true_iff, and_assoc]
  rfl

/-! ### Declarations -/

/-- The attributes of a declaration are well formed up to the encoding, which is UTF-8 if there is
one. -/
def DeclaresUtf8 (content : List Char) : Prop :=
  ∃ before : List RawAttribute, (∀ raw ∈ before, raw.key ≠ "encoding".toList) ∧
    (rawAttributes false content = before.map .ok ∨
      ∃ value after, rawAttributes false content =
          before.map .ok ++ .ok ⟨"encoding".toList, value⟩ :: after ∧
        (equalIgnoringCase value "utf-8".toList = true ∨
          equalIgnoringCase value "utf8".toList = true))

theorem declared?_append {key : List Char} {before : List RawAttribute}
    (hbefore : ∀ raw ∈ before, raw.key ≠ key) (rest : List (Except AttributeFault RawAttribute)) :
    declared? key (before.map .ok ++ rest) = declared? key rest := by
  induction before with
  | nil => rfl
  | cons raw before ih =>
    obtain ⟨hraw, hlater⟩ := List.forall_mem_cons.mp hbefore
    rw [List.map_cons, List.cons_append, declared?, if_neg hraw]
    exact ih hlater

/-- What is read up to the first fault or the first attribute that is called `key`. -/
theorem exists_before (key : List Char) (raws : List (Except AttributeFault RawAttribute)) :
    ∃ before : List RawAttribute, (∀ raw ∈ before, raw.key ≠ key) ∧
      (raws = before.map .ok ∨ (∃ value after, raws = before.map .ok ++ .ok ⟨key, value⟩ :: after) ∨
        ∃ fault after, raws = before.map .ok ++ .error fault :: after) := by
  induction raws with
  | nil => exact ⟨[], by simp, .inl rfl⟩
  | cons raw rest ih =>
    cases raw with
    | error fault => exact ⟨[], by simp, .inr (.inr ⟨fault, rest, rfl⟩)⟩
    | ok raw =>
      by_cases hkey : raw.key = key
      · exact ⟨[], by simp, .inr (.inl ⟨raw.value, rest, by rw [← hkey]; rfl⟩)⟩
      · obtain ⟨before, hbefore, hrest⟩ := ih
        refine ⟨raw :: before, List.forall_mem_cons.mpr ⟨hkey, hbefore⟩, ?_⟩
        rcases hrest with rfl | ⟨value, after, rfl⟩ | ⟨fault, after, rfl⟩
        · exact .inl rfl
        · exact .inr (.inl ⟨value, after, rfl⟩)
        · exact .inr (.inr ⟨fault, after, rfl⟩)

theorem declared?_found (key value : List Char)
    (after : List (Except AttributeFault RawAttribute)) :
    declared? key (.ok ⟨key, value⟩ :: after) = .ok (some value) := if_pos rfl

/-- A declaration passes if and only if it is as it should be. -/
theorem checkDeclaration_eq_ok_iff {content : List Char} :
    checkDeclaration content = .ok () ↔ DeclaresUtf8 content := by
  unfold checkDeclaration
  constructor
  · intro hcheck
    obtain ⟨before, hbefore, hraws⟩ :=
      exists_before "encoding".toList (rawAttributes false content)
    refine ⟨before, hbefore, ?_⟩
    rcases hraws with hall | ⟨value, after, hvalue⟩ | ⟨fault, after, hfault⟩
    · exact .inl hall
    · rw [hvalue, declared?_append hbefore, declared?_found] at hcheck
      refine .inr ⟨value, after, hvalue, ?_⟩
      by_contra hforeign
      rw [← Bool.or_eq_true] at hforeign
      have herror := (if_neg hforeign).symm.trans hcheck
      cases herror
    · rw [hfault, declared?_append hbefore] at hcheck
      cases hcheck
  · rintro ⟨before, hbefore, hall | ⟨value, after, hvalue, hutf8⟩⟩
    · have hnone := declared?_append hbefore []
      rw [List.append_nil] at hnone
      rw [hall, hnone]
      rfl
    · rw [← Bool.or_eq_true] at hutf8
      rw [hvalue, declared?_append hbefore, declared?_found]
      exact if_pos hutf8

/-! ### Items -/

/-- The reader comes to the end of the source, by way of these items. -/
def Reads (source : String) (items : List Item) : Prop :=
  (pieces (dropMark source.toList)).map Piece.item = items.map .ok

def Item.Readable : Item → Prop
  | .text raw => ∃ chars, unescape raw = .ok chars
  | .startTag content => HasAttributes content
  | .emptyTag content => HasAttributes content
  | .declaration content => DeclaresUtf8 content
  | .cdata _ | .endTag _ | .instruction | .comment | .doctype => True

/-- Whether an element starts with the item. -/
def Item.opens : Item → Bool
  | .startTag _ | .emptyTag _ => true
  | _ => false

/-- The names of the elements that are open after the item, the innermost first. -/
def Item.namesAfter (opened : List (List Char)) : Item → List (List Char)
  | .startTag content => tagName content :: opened
  | .endTag _ => opened.tail
  | _ => opened

/-- An end tag must be that of the innermost open element, and around the root only blanks may
stand. -/
def Item.Fits (opened : List (List Char)) : Item → Prop
  | .endTag name => opened.head? = some name
  | .cdata _ => opened ≠ []
  | .text raw => opened = [] → ∀ chars, unescape raw = .ok chars → chars.all isBlank = true
  | _ => True

def namesAfter (opened : List (List Char)) (items : List Item) : List (List Char) :=
  items.foldl Item.namesAfter opened

/-- The items that stand outside all elements. -/
def outside (opened : List (List Char)) : List Item → List Item
  | [] => []
  | item :: rest =>
    (if opened = [] then [item] else []) ++ outside (item.namesAfter opened) rest

structure IsDocument (items : List Item) : Prop where
  readable : ∀ item ∈ items, item.Readable
  fits : ∀ before item after, items = before ++ item :: after → item.Fits (namesAfter [] before)
  closed : namesAfter [] items = []
  oneRoot : (outside [] items).countP Item.opens = 1

theorem isSome_events?_iff {item : Item} : item.events?.isSome ↔ item.Readable := by
  cases item with
  | text raw =>
    rw [Item.events?, Item.Readable, Option.isSome_map]
    cases unescape raw <;> simp [Except.toOption]
  | cdata content => exact ⟨fun _ => trivial, fun _ => rfl⟩
  | startTag content =>
    rw [Item.events?, Item.Readable, Option.isSome_map]
    exact isSome_bareAttributes?_rawAttributes_iff
  | emptyTag content =>
    rw [Item.events?, Item.Readable, Option.isSome_map]
    exact isSome_bareAttributes?_rawAttributes_iff
  | endTag name => exact ⟨fun _ => trivial, fun _ => rfl⟩
  | declaration content =>
    rw [Item.events?, Item.Readable, Option.isSome_map, ← checkDeclaration_eq_ok_iff]
    cases checkDeclaration content <;> simp [Except.toOption]
  | instruction => exact ⟨fun _ => trivial, fun _ => rfl⟩
  | comment => exact ⟨fun _ => trivial, fun _ => rfl⟩
  | doctype => exact ⟨fun _ => trivial, fun _ => rfl⟩

def eventsOfItems? : List Item → Option (List Event)
  | [] => some []
  | item :: rest => item.events?.bind fun events => (eventsOfItems? rest).map (events ++ ·)

theorem isSome_eventsOfItems?_iff {items : List Item} :
    (eventsOfItems? items).isSome ↔ ∀ item ∈ items, item.Readable := by
  induction items with
  | nil => simp [eventsOfItems?]
  | cons item rest ih =>
    rw [List.forall_mem_cons, ← ih, ← isSome_events?_iff, eventsOfItems?]
    cases item.events? <;> simp

/-- The events of pieces are those of the items that they are. -/
theorem eventsOf?_eq_eventsOfItems? {pieces : List Piece} {items : List Item}
    (hitems : pieces.map Piece.item = items.map .ok) : eventsOf? pieces = eventsOfItems? items := by
  induction pieces generalizing items with
  | nil =>
    cases items with
    | nil => rfl
    | cons item rest => cases hitems
  | cons piece rest ih =>
    cases items with
    | nil => cases hitems
    | cons item others =>
      rw [List.map_cons, List.map_cons, List.cons.injEq] at hitems
      have hpiece : piece.events? = item.events? := by
        rw [Piece.events?, hitems.1]
        rfl
      rw [eventsOf?, eventsOfItems?, hpiece, ih hitems.2]

theorem exists_items_of_eventsOf? {pieces : List Piece} {events : List Event}
    (hevents : eventsOf? pieces = some events) :
    ∃ items : List Item, pieces.map Piece.item = items.map .ok := by
  induction pieces generalizing events with
  | nil => exact ⟨[], rfl⟩
  | cons piece rest ih =>
    obtain ⟨first, hfirst, hevents⟩ := Option.bind_eq_some_iff.mp hevents
    obtain ⟨later, hlater, -⟩ := Option.map_eq_some_iff.mp hevents
    obtain ⟨item, hitem, -⟩ := Option.bind_eq_some_iff.mp hfirst
    obtain ⟨items, hitems⟩ := ih hlater
    exact ⟨item :: items, by rw [List.map_cons, List.map_cons, hitems, toOption_eq_some_iff.mp hitem]⟩

/-! ### Nesting -/

/-- Every item fits where it stands when elements with these names are open before all of them. -/
def FitTogether (opened : List (List Char)) (items : List Item) : Prop :=
  ∀ before item after, items = before ++ item :: after → item.Fits (namesAfter opened before)

theorem fitTogether_cons {opened : List (List Char)} {item : Item} {rest : List Item} :
    FitTogether opened (item :: rest) ↔
      item.Fits opened ∧ FitTogether (item.namesAfter opened) rest := by
  constructor
  · intro hfit
    refine ⟨hfit [] item rest rfl, fun before other after hrest => ?_⟩
    exact hfit (item :: before) other after (by rw [hrest]; rfl)
  · rintro ⟨hitem, hrest⟩ before other after hsplit
    cases before with
    | nil =>
      cases hsplit
      exact hitem
    | cons first before =>
      cases hsplit
      exact hrest before other after rfl

/-- Whether an element starts with the item outside all others, as a number. -/
def startsOutside (opened : List (List Char)) (item : Item) : Nat :=
  if opened = [] ∧ item.opens = true then 1 else 0

theorem countP_outside_cons (opened : List (List Char)) (item : Item) (rest : List Item) :
    (outside opened (item :: rest)).countP Item.opens =
      startsOutside opened item + (outside (item.namesAfter opened) rest).countP Item.opens := by
  rw [outside, List.countP_append]
  by_cases hopened : opened = []
  · simp [startsOutside, hopened, List.countP_cons]
  · simp [startsOutside, hopened]

namespace Assembly

/-- The names of the open elements, the innermost first. -/
def names (assembly : Assembly) : List (List Char) := assembly.pending.map (·.name.toList)

/-- The number of elements that started outside all others, as far as it can be seen: the root and
the outermost open element. -/
def begun (assembly : Assembly) : Nat :=
  (if assembly.root.isSome then 1 else 0) + (if assembly.pending.isEmpty then 0 else 1)

/-- What an item does: either it fits and leads to a next document, or the document cannot be
finished any more. -/
inductive Outcome (assembly : Assembly) (item : Item) : Option Assembly → Prop
  | next {next : Assembly} (fits : item.Fits assembly.names)
      (names : next.names = item.namesAfter assembly.names)
      (begun : next.begun = assembly.begun + startsOutside assembly.names item) :
      Outcome assembly item (some next)
  | stuck (misfit : item.Fits assembly.names →
      2 ≤ assembly.begun + startsOutside assembly.names item) : Outcome assembly item none

theorem outcome_silent (assembly : Assembly) {item : Item} (hfits : item.Fits assembly.names)
    (hnames : item.namesAfter assembly.names = assembly.names) (hopens : item.opens = false) :
    assembly.Outcome item (some assembly) := by
  refine .next hfits hnames.symm ?_
  simp [startsOutside, hopens]

theorem outcome_push (element : OpenElement) (outer : List OpenElement) (root : Option Element)
    {item : Item} (node : Node) (hfits : item.Fits (names ⟨element :: outer, root⟩))
    (hnames : item.namesAfter (names ⟨element :: outer, root⟩) = names ⟨element :: outer, root⟩)
    (hopens : item.opens = false) :
    Outcome ⟨element :: outer, root⟩ item (some ⟨element.push node :: outer, root⟩) := by
  refine .next hfits hnames.symm ?_
  simp [startsOutside, hopens, begun]

theorem outcome_startTag (assembly : Assembly) (content : List Char) (attributes : List Attribute) :
    assembly.Outcome (.startTag content)
      (assembly.takeAll? [.start (String.ofList (tagName content)) attributes]) := by
  obtain ⟨pending, root⟩ := assembly
  refine .next trivial ?_ ?_
  · simp [names, Item.namesAfter]
  · cases pending <;> simp [begun, startsOutside, names, Item.opens]

theorem outcome_endTag (assembly : Assembly) (name : List Char) :
    assembly.Outcome (.endTag name) (assembly.takeAll? [.stop (String.ofList name)]) := by
  obtain ⟨pending, root⟩ := assembly
  cases pending with
  | nil =>
    refine .stuck fun hfits => ?_
    cases hfits
  | cons element outer =>
    by_cases hname : element.name = String.ofList name
    · have hfits : (Item.endTag name).Fits (names ⟨element :: outer, root⟩) := by
        simp [Item.Fits, names, hname]
      have htake : takeAll? ⟨element :: outer, root⟩ [.stop (String.ofList name)] =
          (complete ⟨outer, root⟩ (element.close 0)).toOption := by
        simp [takeAll?, take?, hname]
      rw [htake]
      cases outer with
      | cons parent outer => exact .next hfits rfl rfl
      | nil =>
        cases root with
        | none => exact .next hfits rfl rfl
        | some root => exact .stuck fun _ => Nat.le_refl 2
    · have htake : takeAll? ⟨element :: outer, root⟩ [.stop (String.ofList name)] = none := by
        simp [takeAll?, take?, hname]
      rw [htake]
      refine .stuck fun hfits => absurd ?_ hname
      have hhead : element.name.toList = name := Option.some.inj hfits
      rw [← hhead, String.ofList_toList]

theorem outcome_emptyTag (assembly : Assembly) (content : List Char) (attributes : List Attribute) :
    assembly.Outcome (.emptyTag content)
      (assembly.takeAll? [.start (String.ofList (tagName content)) attributes,
        .stop (String.ofList (tagName content))]) := by
  obtain ⟨pending, root⟩ := assembly
  let opened : OpenElement := ⟨String.ofList (tagName content), attributes, 0, []⟩
  have htake : takeAll? ⟨pending, root⟩ [.start opened.name attributes, .stop opened.name] =
      (complete ⟨pending, root⟩ (opened.close 0)).toOption := by
    simp [takeAll?, take?, opened]
  rw [htake]
  cases pending with
  | cons parent outer => exact .next trivial rfl rfl
  | nil =>
    cases root with
    | none => exact .next trivial rfl rfl
    | some root => exact .stuck fun _ => Nat.le_refl 2

theorem outcome_text (assembly : Assembly) {raw chars : List Char}
    (hread : unescape raw = .ok chars) :
    assembly.Outcome (.text raw) (assembly.takeAll? [.text (String.ofList chars)]) := by
  obtain ⟨pending, root⟩ := assembly
  cases pending with
  | cons element outer =>
    exact outcome_push element outer root _ (fun hnil => nomatch hnil) rfl rfl
  | nil =>
    have hfits : (Item.text raw).Fits [] ↔ chars.all isBlank = true := by
      simp [Item.Fits, hread]
    by_cases hblank : chars.all isBlank = true
    · have htake : takeAll? ⟨[], root⟩ [.text (String.ofList chars)] = some ⟨[], root⟩ := by
        simp [takeAll?, take?, hblank]
      rw [htake]
      exact outcome_silent ⟨[], root⟩ (hfits.mpr hblank) rfl rfl
    · have htake : takeAll? ⟨[], root⟩ [.text (String.ofList chars)] = none := by
        simp [takeAll?, take?, hblank]
      rw [htake]
      exact .stuck fun hblanks => absurd (hfits.mp hblanks) hblank

theorem outcome_cdata (assembly : Assembly) (content : List Char) :
    assembly.Outcome (.cdata content) (assembly.takeAll? [.cdata (String.ofList content)]) := by
  obtain ⟨pending, root⟩ := assembly
  cases pending with
  | nil => exact .stuck fun hfits => absurd rfl hfits
  | cons element outer => exact outcome_push element outer root _ (List.cons_ne_nil _ _) rfl rfl

/-- One item, of whatever kind. -/
theorem outcome_takeAll? (assembly : Assembly) {item : Item} {events : List Event}
    (hevents : item.events? = some events) :
    assembly.Outcome item (assembly.takeAll? events) := by
  cases item with
  | text raw =>
    obtain ⟨chars, hread, rfl⟩ := Option.map_eq_some_iff.mp hevents
    exact assembly.outcome_text (toOption_eq_some_iff.mp hread)
  | cdata content =>
    cases hevents
    exact assembly.outcome_cdata content
  | startTag content =>
    obtain ⟨attributes, -, rfl⟩ := Option.map_eq_some_iff.mp hevents
    exact assembly.outcome_startTag content attributes
  | emptyTag content =>
    obtain ⟨attributes, -, rfl⟩ := Option.map_eq_some_iff.mp hevents
    exact assembly.outcome_emptyTag content attributes
  | endTag name =>
    cases hevents
    exact assembly.outcome_endTag name
  | declaration content =>
    obtain ⟨-, -, rfl⟩ := Option.map_eq_some_iff.mp hevents
    exact assembly.outcome_silent trivial rfl rfl
  | instruction =>
    cases hevents
    exact assembly.outcome_silent trivial rfl rfl
  | comment =>
    cases hevents
    exact assembly.outcome_silent trivial rfl rfl
  | doctype =>
    cases hevents
    exact assembly.outcome_silent trivial rfl rfl

/-- A document can be finished if nothing is open and one element has begun. -/
theorem finish_isOk_iff (assembly : Assembly) :
    (∃ root, assembly.finish = .ok root) ↔ assembly.names = [] ∧ assembly.begun = 1 := by
  obtain ⟨pending, root⟩ := assembly
  cases pending <;> cases root <;> simp [finish, names, begun]

/-- Items lead to a finished document if and only if they fit together, close what is open, and one
element starts outside all others. -/
theorem finishes_iff (assembly : Assembly) {items : List Item} {events : List Event}
    (hevents : eventsOfItems? items = some events) :
    (∃ last root, assembly.takeAll? events = some last ∧ last.finish = .ok root) ↔
      FitTogether assembly.names items ∧ namesAfter assembly.names items = [] ∧
        assembly.begun + (outside assembly.names items).countP Item.opens = 1 := by
  induction items generalizing assembly events with
  | nil =>
    cases hevents
    have hfit : FitTogether assembly.names [] := by
      intro before item after hsplit
      cases before <;> cases hsplit
    have hfinish := assembly.finish_isOk_iff
    constructor
    · rintro ⟨last, root, htake, hroot⟩
      cases htake
      obtain ⟨hnames, hbegun⟩ := hfinish.mp ⟨root, hroot⟩
      exact ⟨hfit, hnames, hbegun⟩
    · rintro ⟨-, hnames, hbegun⟩
      obtain ⟨root, hroot⟩ := hfinish.mpr ⟨hnames, hbegun⟩
      exact ⟨assembly, root, rfl, hroot⟩
  | cons item rest ih =>
    obtain ⟨first, hfirst, hrest⟩ := Option.bind_eq_some_iff.mp hevents
    obtain ⟨later, hlater, rfl⟩ := Option.map_eq_some_iff.mp hrest
    have houtcome := assembly.outcome_takeAll? hfirst
    rw [takeAll?_append, fitTogether_cons, countP_outside_cons, ← Nat.add_assoc]
    cases htake : assembly.takeAll? first with
    | none =>
      rw [htake] at houtcome
      cases houtcome with
      | stuck hmisfit =>
        constructor
        · rintro ⟨last, root, hnone, -⟩
          cases hnone
        · rintro ⟨⟨hfits, -⟩, -, hcount⟩
          have htwo := hmisfit hfits
          omega
    | some next =>
      rw [htake] at houtcome
      cases houtcome with
      | next hfits hnames hbegun =>
        have hafter : namesAfter assembly.names (item :: rest) = namesAfter next.names rest := by
          rw [hnames]
          rfl
        rw [← hnames, hafter, ← hbegun, Option.bind_some, ih next hlater]
        simp [hfits]

end Assembly

/-- The sources that are documents, said piece by piece. -/
theorem parse_isOk_iff (source : String) :
    (∃ document, parse source = .ok document) ↔ ∃ items, Reads source items ∧ IsDocument items := by
  constructor
  · rintro ⟨document, hparse⟩
    obtain ⟨events, last, hevents, htake, hfinish⟩ :=
      exists_parseChars_iff.mp ⟨document, hparse, rfl⟩
    obtain ⟨items, hitems⟩ := exists_items_of_eventsOf? hevents
    rw [eventsOf?_eq_eventsOfItems? hitems] at hevents
    obtain ⟨hfits, hclosed, hroot⟩ :=
      (Assembly.empty.finishes_iff hevents).mp ⟨last, _, htake, hfinish⟩
    have hreadable : ∀ item ∈ items, item.Readable :=
      isSome_eventsOfItems?_iff.mp (Option.isSome_of_eq_some hevents)
    exact ⟨items, hitems, hreadable, hfits, hclosed, (Nat.zero_add _).symm.trans hroot⟩
  · rintro ⟨items, hitems, hdocument⟩
    obtain ⟨events, hevents⟩ :=
      Option.isSome_iff_exists.mp (isSome_eventsOfItems?_iff.mpr hdocument.readable)
    obtain ⟨last, root, htake, hfinish⟩ := (Assembly.empty.finishes_iff hevents).mpr
      ⟨hdocument.fits, hdocument.closed, (Nat.zero_add _).trans hdocument.oneRoot⟩
    rw [← eventsOf?_eq_eventsOfItems? hitems] at hevents
    obtain ⟨document, hparse, -⟩ :=
      exists_parseChars_iff.mpr ⟨events, last, hevents, htake, hfinish⟩
    exact ⟨document, hparse⟩

end CompatChanges.Xml
