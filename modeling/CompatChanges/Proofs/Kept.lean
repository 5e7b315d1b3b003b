import CompatChanges.Proofs.Event
import CompatChanges.Proofs.Normal

/-!
# What a document keeps

A document says what its source says, in the same order, apart from layout. Whether a blank text is
layout is known only where the element around it ends, so what is kept is described with a look
ahead: for every open element, whether ink stands in it before its end tag.
-/

namespace CompatChanges.Xml

open Text

/-! ### The events of a tree -/

mutual

/-- The tags and texts of an element in document order. -/
def Element.events : Element → List Event
  | .mk name attributes content _ => .start name attributes :: (content.events ++ [.stop name])

def Content.events : Content → List Event
  | .empty => []
  | .elements children => eventsOfElements children
  | .text string _ => [.text string]
  | .mixed nodes => eventsOfNodes nodes

def eventsOfElements : List Element → List Event
  | [] => []
  | element :: rest => element.events ++ eventsOfElements rest

def eventsOfNodes : List Node → List Event
  | [] => []
  | .element element :: rest => element.events ++ eventsOfNodes rest
  | .text string _ :: rest => .text string :: eventsOfNodes rest

end

def Node.events : Node → List Event
  | .element child => child.events
  | .text string _ => [.text string]

theorem eventsOfElements_eq (elements : List Element) :
    eventsOfElements elements = (elements.map Node.element).flatMap Node.events := by
  induction elements with
  | nil => rfl
  | cons element rest ih =>
    rw [eventsOfElements, ih]
    rfl

theorem eventsOfNodes_eq (nodes : List Node) : eventsOfNodes nodes = nodes.flatMap Node.events := by
  induction nodes with
  | nil => rfl
  | cons node rest ih =>
    cases node with
    | element element =>
      rw [eventsOfNodes, ih]
      rfl
    | text string span =>
      rw [eventsOfNodes, ih]
      rfl

theorem Content.events_eq (content : Content) :
    content.events = content.nodes.flatMap Node.events := by
  cases content with
  | empty => rfl
  | elements children => exact eventsOfElements_eq children
  | text string span => rfl
  | mixed nodes => exact eventsOfNodes_eq nodes

theorem Element.events_mk (name : String) (attributes : List Attribute) (content : Content)
    (span : Span) :
    (mk name attributes content span).events =
      .start name attributes :: (content.nodes.flatMap Node.events ++ [.stop name]) := by
  rw [events, content.events_eq]

/-! ### Content and layout -/

/-- Whether a text has a character that is not blank. -/
def hasInk (string : String) : Bool := !string.toList.all isBlank

/-- Whether ink comes that stands directly in an open element, which has `depth` open elements
in it. -/
def inkAhead : (depth : Nat) → List Event → Bool
  | _, [] => false
  | depth, .start _ _ :: rest => inkAhead (depth + 1) rest
  | 0, .stop _ :: _ => false
  | depth + 1, .stop _ :: rest => inkAhead depth rest
  | depth, .text string :: rest => depth = 0 && hasInk string || inkAhead depth rest
  | depth, .cdata string :: rest => depth = 0 && hasInk string || inkAhead depth rest

/-- A text as content. It is left out around the root, and where it is blank and stands in an element
without ink. -/
def contentText (inks : List Bool) (string : String) : List Event :=
  match inks with
  | [] => []
  | ink :: _ => if hasInk string || ink then [.text string] else []

/-- The events that are content; `inks` says for each open element, the innermost first, whether ink
stands directly in it. -/
def contentFrom : (inks : List Bool) → List Event → List Event
  | _, [] => []
  | inks, .start name attributes :: rest =>
    .start name attributes :: contentFrom (inkAhead 0 rest :: inks) rest
  | inks, .stop name :: rest => .stop name :: contentFrom inks.tail rest
  | inks, .text string :: rest => contentText inks string ++ contentFrom inks rest
  | inks, .cdata string :: rest => contentText inks string ++ contentFrom inks rest

/-- The nodes that are content in an element, which has ink or not. -/
def keptNodes (ink : Bool) (nodes : List Node) : List Node :=
  if ink then nodes else nodes.filter Node.isElement

theorem keptNodes_append (ink : Bool) (left right : List Node) :
    keptNodes ink (left ++ right) = keptNodes ink left ++ keptNodes ink right := by
  cases ink with
  | false => exact List.filter_append ..
  | true => rfl

theorem withoutLayout_eq_keptNodes (nodes : List Node) :
    Content.withoutLayout nodes = keptNodes (nodes.any Node.isInk) nodes := rfl

/-! ### A document under way -/

namespace Assembly

/-- Whether each of the open elements has ink, given what comes. -/
def inksFrom (events : List Event) : (depth : Nat) → List OpenElement → List Bool
  | _, [] => []
  | depth, element :: outer =>
    (element.children.any Node.isInk || inkAhead depth events) :: inksFrom events (depth + 1) outer

/-- What open elements say so far, the innermost last. -/
def openEvents : (inks : List Bool) → List OpenElement → List Event
  | ink :: inks, element :: outer =>
    openEvents inks outer ++
      .start element.name element.attributes ::
        (keptNodes ink element.children.reverse).flatMap Node.events
  | _, _ => []

def inks (assembly : Assembly) (events : List Event) : List Bool :=
  inksFrom events 0 assembly.pending

/-- What the document says so far, given what comes. -/
def said (assembly : Assembly) (events : List Event) : List Event :=
  assembly.root.elim [] Element.events ++ openEvents (assembly.inks events) assembly.pending

/-- What the document says once the events that come are taken. -/
def saidAfter (assembly : Assembly) (events : List Event) : List Event :=
  assembly.said events ++ contentFrom (assembly.inks events) events

theorem inksFrom_congr {left right : List Event} {m n : Nat}
    (hahead : ∀ depth, inkAhead (depth + m) left = inkAhead (depth + n) right)
    (pending : List OpenElement) : inksFrom left m pending = inksFrom right n pending := by
  induction pending generalizing m n with
  | nil => rfl
  | cons element outer ih =>
    have hself : inkAhead m left = inkAhead n right := by simpa using hahead 0
    have houter : inksFrom left (m + 1) outer = inksFrom right (n + 1) outer := by
      apply ih
      intro depth
      simpa [Nat.add_assoc, Nat.add_comm 1] using hahead (depth + 1)
    rw [inksFrom, inksFrom, hself, houter]

/-- A node that is pushed is said, unless it is layout. -/
theorem openEvents_push (ink : Bool) (inks : List Bool) (element : OpenElement)
    (outer : List OpenElement) (node : Node) :
    openEvents (ink :: inks) (element.push node :: outer) =
      openEvents (ink :: inks) (element :: outer) ++ (keptNodes ink [node]).flatMap Node.events := by
  simp [openEvents, OpenElement.push, keptNodes_append]

theorem events_close (element : OpenElement) (stop : Nat) :
    (element.close stop).events =
      openEvents [element.children.any Node.isInk] [element] ++ [.stop element.name] := by
  unfold OpenElement.close
  rw [Element.events_mk, Content.ofNodes, Content.nodes_classify]
  simp [openEvents, withoutLayout_eq_keptNodes]

/-- A complete element is said after all that was open around it, and is no ink. -/
theorem saidAfter_complete {assembly next : Assembly} {element : Element}
    (hcomplete : assembly.complete element = .ok next) (events : List Event) :
    next.saidAfter events =
      assembly.said events ++ element.events ++ contentFrom (assembly.inks events) events := by
  obtain ⟨pending, root⟩ := assembly
  cases pending with
  | nil =>
    cases root with
    | none =>
      cases hcomplete
      simp [saidAfter, said, inks, inksFrom, openEvents]
    | some root => cases hcomplete
  | cons parent outer =>
    cases hcomplete
    have hinks : inks ⟨parent.push (.element element) :: outer, root⟩ events =
        inks ⟨parent :: outer, root⟩ events := rfl
    have hkept (ink : Bool) : keptNodes ink [.element element] = [.element element] := by
      cases ink <;> rfl
    unfold saidAfter said
    rw [hinks]
    dsimp only [inks, inksFrom]
    rw [openEvents_push, hkept]
    simp [Node.events]

theorem inkAhead_text (depth : Nat) (string : String) (rest : List Event) :
    inkAhead depth (.text string :: rest) =
      (depth = 0 && hasInk string || inkAhead depth rest) := by
  cases depth <;> rfl

theorem inkAhead_cdata (depth : Nat) (string : String) (rest : List Event) :
    inkAhead depth (.cdata string :: rest) =
      (depth = 0 && hasInk string || inkAhead depth rest) := by
  cases depth <;> rfl

/-- Text in an element is said as content: it is ink of this element, and of no other. -/
theorem saidAfter_text {event : Event} {string : String} (element : OpenElement)
    (outer : List OpenElement) (root : Option Element) (rest : List Event)
    (hahead : ∀ depth, inkAhead depth (event :: rest) =
      (depth = 0 && hasInk string || inkAhead depth rest))
    (hcontent : ∀ inks, contentFrom inks (event :: rest) =
      contentText inks string ++ contentFrom inks rest) :
    saidAfter ⟨element.push (.text string {}) :: outer, root⟩ rest =
      saidAfter ⟨element :: outer, root⟩ (event :: rest) := by
  have houter : inksFrom (event :: rest) 1 outer = inksFrom rest 1 outer := by
    apply inksFrom_congr
    intro depth
    rw [hahead]
    simp
  let ink := element.children.any Node.isInk || inkAhead 0 (event :: rest)
  have hink : ((element.push (.text string {})).children.any Node.isInk || inkAhead 0 rest) = ink := by
    have hself : (Node.text string {}).isInk = hasInk string := rfl
    simp only [ink, hahead, OpenElement.push, List.any_cons, hself]
    cases hasInk string <;> simp
  have hkept : (keptNodes ink [.text string {}]).flatMap Node.events =
      contentText (ink :: inksFrom rest 1 outer) string := by
    by_cases hstring : hasInk string = true
    · have hall : ink = true := by simp [ink, hahead, hstring]
      rw [hall]
      simp [keptNodes, contentText, Node.events]
    · cases ink <;> simp [keptNodes, contentText, Node.events, hstring, Node.isElement]
  have hnext : inks ⟨element.push (.text string {}) :: outer, root⟩ rest =
      ink :: inksFrom rest 1 outer := by rw [← hink]; rfl
  have hnow : inks ⟨element :: outer, root⟩ (event :: rest) = ink :: inksFrom rest 1 outer := by
    rw [← houter]
    rfl
  unfold saidAfter said
  rw [hnext, hnow, openEvents_push, hkept, hcontent]
  simp only [List.append_assoc]

theorem inkAhead_start (depth : Nat) (name : String) (attributes : List Attribute)
    (rest : List Event) :
    inkAhead depth (.start name attributes :: rest) = inkAhead (depth + 1) rest := by
  cases depth <;> rfl

/-- One event: it is said as content, if it may come. -/
theorem saidAfter_take? {assembly next : Assembly} {event : Event}
    (htake : assembly.take? event = some next) (rest : List Event) :
    next.saidAfter rest = assembly.saidAfter (event :: rest) := by
  obtain ⟨pending, root⟩ := assembly
  cases event with
  | start name attributes =>
    cases htake
    have hinks : inksFrom (.start name attributes :: rest) 0 pending = inksFrom rest 1 pending := by
      apply inksFrom_congr
      intro depth
      exact inkAhead_start depth name attributes rest
    have hnow : inks ⟨pending, root⟩ (.start name attributes :: rest) = inksFrom rest 1 pending :=
      hinks
    have hnext : inks ⟨⟨name, attributes, 0, []⟩ :: pending, root⟩ rest =
        inkAhead 0 rest :: inksFrom rest 1 pending := rfl
    unfold saidAfter said
    rw [hnow, hnext, contentFrom]
    simp [openEvents, keptNodes]
  | stop name =>
    cases pending with
    | nil => cases htake
    | cons element outer =>
      simp only [take?] at htake
      split at htake
      · next hname =>
        have hcomplete : complete ⟨outer, root⟩ (element.close 0) = .ok next := by
          cases hcase : complete ⟨outer, root⟩ (element.close 0) with
          | error error => simp [hcase, Except.toOption] at htake
          | ok found => simpa [hcase, Except.toOption] using htake
        have houter : inksFrom (.stop name :: rest) 1 outer = inksFrom rest 0 outer := by
          apply inksFrom_congr
          intro depth
          rfl
        have hnow : inks ⟨element :: outer, root⟩ (.stop name :: rest) =
            element.children.any Node.isInk :: inks ⟨outer, root⟩ rest := by
          rw [inks, inksFrom, houter]
          simp [inkAhead, inks]
        rw [saidAfter_complete hcomplete, events_close]
        unfold saidAfter said
        rw [hnow, contentFrom, hname]
        simp [openEvents]
      · cases htake
  | text string =>
    cases pending with
    | nil =>
      simp only [take?] at htake
      split at htake
      · cases htake
        rfl
      · cases htake
    | cons element outer =>
      cases htake
      exact saidAfter_text element outer root rest (fun _ => inkAhead_text ..) fun _ => rfl
  | cdata string =>
    cases pending with
    | nil => cases htake
    | cons element outer =>
      cases htake
      exact saidAfter_text element outer root rest (fun _ => inkAhead_cdata ..) fun _ => rfl

theorem saidAfter_takeAll? {assembly last : Assembly} {events : List Event}
    (htake : assembly.takeAll? events = some last) : last.saidAfter [] = assembly.saidAfter events := by
  induction events generalizing assembly with
  | nil =>
    cases htake
    rfl
  | cons event rest ih =>
    obtain ⟨next, hnext, hrest⟩ := Option.bind_eq_some_iff.mp htake
    rw [ih hrest, saidAfter_take? hnext]

/-- What a finished document says is the content of the events that it was built from. -/
theorem events_of_takeAll? {last : Assembly} {root : Element} {events : List Event}
    (htake : empty.takeAll? events = some last) (hfinish : last.finish = .ok root) :
    root.events = contentFrom [] events := by
  have hsaid := saidAfter_takeAll? htake
  obtain ⟨pending, found⟩ := last
  cases pending with
  | cons element outer => cases hfinish
  | nil =>
    cases found with
    | none => cases hfinish
    | some element =>
      cases hfinish
      simpa [saidAfter, said, inks, inksFrom, openEvents, contentFrom, empty] using hsaid

end Assembly

/-- The tags and texts of a document, in order, are those of its source, apart from what stands
around the root and from blank texts in elements without ink. -/
theorem events_root_of_parse {source : String} {document : Document}
    (hparse : parse source = .ok document) :
    ∃ events, eventsOf? (pieces (dropMark source.toList)) = some events ∧
      document.root.bare.events = contentFrom [] events := by
  obtain ⟨events, last, hevents, htake, hfinish⟩ :=
    exists_parseChars_iff.mp ⟨document, hparse, rfl⟩
  exact ⟨events, hevents, Assembly.events_of_takeAll? htake hfinish⟩

/-- Blank text that is layout in one element and content in another, around a comment and CDATA. -/
def inkSource : String :=
  "<?xml version='1.0'?>\n<a k='&lt;'> <b>x<c/> <![CDATA[ ]]></b><!-- n --> <d> </d>\n</a>\n"

theorem events_root_inkSource :
    ∃ document, parse inkSource = .ok document ∧
      document.root.bare.events =
        [.start "a" [⟨"k", "<", {}⟩], .start "b" [], .text "x", .start "c" [], .stop "c", .text " ",
          .text " ", .stop "b", .start "d" [], .stop "d", .stop "a"] ∧
      ∃ events, eventsOf? (pieces (dropMark inkSource.toList)) = some events ∧
        document.root.bare.events = contentFrom [] events := by
  have hread : (parse inkSource).toOption.map (·.root.bare.events) =
      some [.start "a" [⟨"k", "<", {}⟩], .start "b" [], .text "x", .start "c" [], .stop "c",
        .text " ", .text " ", .stop "b", .start "d" [], .stop "d", .stop "a"] := by
    decide +kernel
  obtain ⟨document, hdocument, hevents⟩ := Option.map_eq_some_iff.mp hread
  have hparse : parse inkSource = .ok document := toOption_eq_some_iff.mp hdocument
  exact ⟨document, hparse, hevents, events_root_of_parse hparse⟩

end CompatChanges.Xml
