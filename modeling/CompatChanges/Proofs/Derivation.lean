import CompatChanges.Proofs.RoundTrip

/-!
# What pieces form

An element is a stretch of pieces: an empty tag, or a start tag, what stands in the element, and the end
tag of the same name. Which element it is does not depend on what stands around the stretch. A reader
keeps no more than the elements that are open, and yet it finds these stretches; reading a stretch by
itself gives the element that it forms.
-/

namespace CompatChanges.Xml

open Text

/-- The number of bytes of pieces. -/
def extent (pieces : List Piece) : Nat := Utf8.size (pieces.flatMap Piece.source)

@[simp]
theorem extent_nil : extent [] = 0 := rfl

@[simp]
theorem extent_cons (piece : Piece) (rest : List Piece) :
    extent (piece :: rest) = piece.size + extent rest := by
  simp [extent, Piece.size]

@[simp]
theorem extent_append (left right : List Piece) :
    extent (left ++ right) = extent left + extent right := by
  simp [extent]

/-- The text that the item is. -/
def Item.chars? : Item → Option (List Char)
  | .text raw => (unescape raw).toOption
  | .cdata chars => some chars
  | _ => none

/-- An item that no element has anything of. -/
def Item.IsSilent : Item → Prop
  | .declaration content => checkDeclaration content = .ok ()
  | .instruction | .comment | .doctype => True
  | _ => False

/-- The nodes that pieces are side by side, when the first piece is at byte `start`. Which pieces are
an element is for `forms` to say. -/
inductive Row (forms : Nat → List Piece → Element → Prop) : Nat → List Piece → List Node → Prop
  | nil (start : Nat) : Row forms start [] []
  | silent {start : Nat} {piece : Piece} {item : Item} {rest : List Piece} {nodes : List Node}
      (item_eq : piece.item = .ok item) (silent : item.IsSilent)
      (tail : Row forms (start + piece.size) rest nodes) : Row forms start (piece :: rest) nodes
  | text {start : Nat} {piece : Piece} {item : Item} {chars : List Char} {rest : List Piece}
      {nodes : List Node} (item_eq : piece.item = .ok item) (chars_eq : item.chars? = some chars)
      (tail : Row forms (start + piece.size) rest nodes) :
      Row forms start (piece :: rest)
        (.text (String.ofList chars) ⟨start, start + piece.size⟩ :: nodes)
  | element {start : Nat} {own rest : List Piece} {element : Element} {nodes : List Node}
      (head : forms start own element) (tail : Row forms (start + extent own) rest nodes) :
      Row forms start (own ++ rest) (.element element :: nodes)

/-- The element that pieces are from its first tag to its last, when the first piece is at byte
`start`. -/
inductive Forms : Nat → List Piece → Element → Prop
  | emptyTag {start : Nat} {piece : Piece} {content : List Char} {attributes : List Attribute}
      (item_eq : piece.item = .ok (.emptyTag content))
      (attributes_eq : readAttributes content (start + 1) = .ok attributes) :
      Forms start [piece]
        (.mk (String.ofList (tagName content)) attributes .empty ⟨start, start + piece.size⟩)
  | tags {start : Nat} {first last : Piece} {content : List Char} {attributes : List Attribute}
      {inside : List Piece} {children : List Node}
      (first_eq : first.item = .ok (.startTag content))
      (attributes_eq : readAttributes content (start + 1) = .ok attributes)
      (row : Row Forms (start + first.size) inside children)
      (last_eq : last.item = .ok (.endTag (tagName content))) :
      Forms start (first :: (inside ++ [last]))
        (.mk (String.ofList (tagName content)) attributes (.ofNodes children)
          ⟨start, start + extent (first :: (inside ++ [last]))⟩)

/-- The pieces of a node in a row; a text is one piece. -/
def Node.IsOwn (forms : Nat → List Piece → Element → Prop) (start : Nat) (own : List Piece) :
    Node → Prop
  | .element child => forms start own child
  | .text string span =>
    ∃ piece item, own = [piece] ∧ piece.item = .ok item ∧ item.chars? = some string.toList ∧
      span = ⟨start, start + piece.size⟩

variable {start : Nat} {own : List Piece} {element : Element}

theorem Forms.span_eq (hforms : Forms start own element) :
    element.span = ⟨start, start + extent own⟩ := by
  cases hforms with
  | emptyTag => simp
  | tags => rfl

namespace Row

variable {forms other : Nat → List Piece → Element → Prop} {pieces left right : List Piece}
  {nodes more : List Node}

theorem append (hleft : Row forms start left nodes)
    (hright : Row forms (start + extent left) right more) :
    Row forms start (left ++ right) (nodes ++ more) := by
  induction hleft with
  | nil start => simpa using hright
  | silent item_eq silent tail ih =>
    rw [extent_cons, ← Nat.add_assoc] at hright
    exact .silent item_eq silent (ih hright)
  | text item_eq chars_eq tail ih =>
    rw [extent_cons, ← Nat.add_assoc] at hright
    exact .text item_eq chars_eq (ih hright)
  | element head tail ih =>
    rw [extent_append, ← Nat.add_assoc] at hright
    rw [List.append_assoc]
    exact .element head (ih hright)

/-- Only the elements among the nodes matter to what `forms` says. -/
theorem mono (hrow : Row forms start pieces nodes)
    (himp : ∀ start own element, .element element ∈ nodes → forms start own element →
      other start own element) : Row other start pieces nodes := by
  induction hrow with
  | nil start => exact .nil start
  | silent item_eq silent tail ih => exact .silent item_eq silent (ih himp)
  | text item_eq chars_eq tail ih =>
    apply Row.text item_eq chars_eq
    apply ih
    intro start own element hmem
    exact himp start own element (List.mem_cons_of_mem _ hmem)
  | element head tail ih =>
    apply Row.element (himp _ _ _ List.mem_cons_self head)
    apply ih
    intro start own element hmem
    exact himp start own element (List.mem_cons_of_mem _ hmem)

/-- A node in a row has a stretch of its own. -/
theorem exists_own (hrow : Row forms start pieces nodes) {node : Node} (hmem : node ∈ nodes) :
    ∃ before own after, pieces = before ++ own ++ after ∧
      node.IsOwn forms (start + extent before) own := by
  have hlater {start : Nat} {rest : List Piece} (front : List Piece)
      (hrest : ∃ before own after, rest = before ++ own ++ after ∧
        node.IsOwn forms (start + extent front + extent before) own) :
      ∃ before own after, front ++ rest = before ++ own ++ after ∧
        node.IsOwn forms (start + extent before) own := by
    obtain ⟨before, own, after, rfl, hown⟩ := hrest
    refine ⟨front ++ before, own, after, by simp, ?_⟩
    rwa [extent_append, ← Nat.add_assoc]
  induction hrow with
  | nil => cases hmem
  | @silent start piece item rest nodes item_eq silent tail ih =>
    exact hlater [piece] (by simpa using ih hmem)
  | @text start piece item chars rest nodes item_eq chars_eq tail ih =>
    rcases List.mem_cons.mp hmem with rfl | hrest
    · exact ⟨[], [piece], rest, rfl, piece, item, rfl, item_eq, by simpa using chars_eq, rfl⟩
    · exact hlater [piece] (by simpa using ih hrest)
  | @element start own rest element nodes head tail ih =>
    rcases List.mem_cons.mp hmem with rfl | hrest
    · exact ⟨[], own, rest, rfl, head⟩
    · exact hlater own (ih hrest)

end Row

/-- What holds of an element when it holds of the elements between its tags holds of every element
that pieces form. -/
@[elab_as_elim]
theorem Forms.treeInduction
    {motive : (start : Nat) → (own : List Piece) → (element : Element) → Forms start own element → Prop}
    (emptyTag : ∀ {start piece content attributes}
      (item_eq : piece.item = .ok (.emptyTag content))
      (attributes_eq : readAttributes content (start + 1) = .ok attributes),
      motive start [piece] _ (.emptyTag item_eq attributes_eq))
    (tags : ∀ {start first last content attributes inside children}
      (first_eq : first.item = .ok (.startTag content))
      (attributes_eq : readAttributes content (start + 1) = .ok attributes)
      (row : Row Forms (start + first.size) inside children)
      (last_eq : last.item = .ok (.endTag (tagName content))),
      (∀ start own child, .element child ∈ children → (hchild : Forms start own child) →
        motive start own child hchild) →
      motive start (first :: (inside ++ [last])) _ (.tags first_eq attributes_eq row last_eq))
    (hforms : Forms start own element) : motive start own element hforms := by
  -- Layout among the children is text, so that every child element is in the content.
  induction element using Element.childInduction generalizing start own with
  | mk name attributes content span ih =>
    cases hforms with
    | emptyTag item_eq attributes_eq => exact emptyTag item_eq attributes_eq
    | @tags _ first last content _ inside children first_eq attributes_eq row last_eq =>
      apply tags first_eq attributes_eq row last_eq
      intro start own child hmem hchild
      apply ih child
      rw [← Content.mem_children, Content.children_ofNodes]
      exact List.mem_filterMap.mpr ⟨_, hmem, rfl⟩

/-- An element at any depth has a stretch within that of the element around it. -/
theorem Forms.exists_own (hforms : Forms start own element) {inner : Element}
    (hinner : inner ∈ element.subtree) :
    ∃ before part after, own = before ++ part ++ after ∧
      Forms (start + extent before) part inner := by
  have hself {start : Nat} {own : List Piece} (hforms : Forms start own inner) :
      ∃ before part after, own = before ++ part ++ after ∧
        Forms (start + extent before) part inner :=
    ⟨[], own, [], by simp, hforms⟩
  induction hforms using Forms.treeInduction with
  | emptyTag item_eq attributes_eq =>
    obtain rfl : inner = _ := by simpa [Element.subtree_mk, Content.children, Content.nodes] using hinner
    exact hself (.emptyTag item_eq attributes_eq)
  | @tags start first last content attributes inside children first_eq attributes_eq row last_eq ih =>
    rw [Element.subtree_mk, List.mem_cons, List.mem_flatMap] at hinner
    rcases hinner with rfl | ⟨child, hchild, hinner⟩
    · exact hself (.tags first_eq attributes_eq row last_eq)
    · rw [Content.children_ofNodes] at hchild
      obtain ⟨node, hmem, hnode⟩ := List.mem_filterMap.mp hchild
      cases node with
      | text string place => cases hnode
      | element found =>
        cases hnode
        obtain ⟨before, part, after, rfl, hown⟩ := row.exists_own hmem
        have hpart : Forms (start + first.size + extent before) part child := hown
        obtain ⟨outer, deep, rest, rfl, hdeep⟩ := ih _ _ child hmem hpart hinner
        refine ⟨first :: (before ++ outer), deep, rest ++ (after ++ [last]), by simp, ?_⟩
        simpa [Nat.add_assoc] using hdeep

/-! ### Reading a stretch -/

namespace Assembly

theorem addPieces_cons_of_item {piece : Piece} {item : Item} (hitem : piece.item = .ok item)
    {assembly next : Assembly} {offset : Nat}
    (hadd : assembly.addItem ⟨offset, offset + piece.size⟩ item = .ok next) (rest : List Piece) :
    assembly.addPieces offset (piece :: rest) = next.addPieces (offset + piece.size) rest := by
  rw [addPieces, addPiece, hitem]
  dsimp only
  rw [hadd]

theorem addItem_of_isSilent {item : Item} (hsilent : item.IsSilent) (assembly : Assembly)
    (span : Span) : assembly.addItem span item = .ok assembly := by
  cases item with
  | declaration content =>
    have hcheck : checkDeclaration content = .ok () := hsilent
    rw [addItem, hcheck]
    rfl
  | instruction | comment | doctype => rfl
  | text | cdata | startTag | emptyTag | endTag => exact hsilent.elim

theorem addItem_of_chars? {item : Item} {chars : List Char} (hchars : item.chars? = some chars)
    (element : OpenElement) (outer : List OpenElement) (root : Option Element) (span : Span) :
    addItem ⟨element :: outer, root⟩ span item =
      .ok ⟨element.push (.text (String.ofList chars) span) :: outer, root⟩ := by
  cases item with
  | text raw => rw [addItem, addText, toOption_eq_some_iff.mp hchars]
  | cdata content =>
    cases hchars
    rfl
  | startTag | emptyTag | endTag | declaration | instruction | comment | doctype => cases hchars

theorem addPieces_append (assembly : Assembly) (offset : Nat) (left right : List Piece) :
    assembly.addPieces offset (left ++ right) =
      (assembly.addPieces offset left).bind fun next =>
        next.addPieces (offset + extent left) right := by
  induction left generalizing assembly offset with
  | nil => rfl
  | cons piece rest ih =>
    rw [List.cons_append, addPieces, addPieces]
    cases assembly.addPiece ⟨offset, offset + piece.size⟩ piece with
    | error error => rfl
    | ok next =>
      dsimp only
      rw [ih, extent_cons, Nat.add_assoc]

theorem push_pushAll (element : OpenElement) (node : Node) (nodes : List Node) :
    (element.push node).pushAll nodes = element.pushAll (node :: nodes) := by
  simp [OpenElement.push, OpenElement.pushAll]

/-- Nodes in a row go to the innermost open element. -/
theorem addPieces_of_row {pieces : List Piece} {nodes : List Node}
    (hrow : Row (fun start own element => ∀ assembly : Assembly,
      assembly.addPieces start own = assembly.complete element) start pieces nodes)
    (element : OpenElement) (outer : List OpenElement) (root : Option Element) :
    addPieces ⟨element :: outer, root⟩ start pieces =
      .ok ⟨element.pushAll nodes :: outer, root⟩ := by
  induction hrow generalizing element with
  | nil => rfl
  | silent item_eq silent tail ih =>
    rw [addPieces_cons_of_item item_eq (addItem_of_isSilent silent _ _), ih]
  | text item_eq chars_eq tail ih =>
    rw [addPieces_cons_of_item item_eq (addItem_of_chars? chars_eq ..), ih, push_pushAll]
  | element head tail ih =>
    rw [addPieces_append, head]
    change addPieces _ _ _ = _
    rw [ih, push_pushAll]

/-- The pieces of an element complete it, whatever is under way. -/
theorem addPieces_of_forms (hforms : Forms start own element) (assembly : Assembly) :
    assembly.addPieces start own = assembly.complete element := by
  induction hforms using Forms.treeInduction generalizing assembly with
  | @emptyTag start piece content attributes item_eq attributes_eq =>
    rw [addPieces, addPiece, item_eq]
    dsimp only [addItem]
    rw [Assembly.emptyTag, attributes_eq]
    dsimp only
    cases assembly.complete _ with
    | error error => rfl
    | ok next => rfl
  | @tags start first last content attributes inside children first_eq attributes_eq row last_eq ih =>
    let opened : OpenElement := ⟨String.ofList (tagName content), attributes, start, []⟩
    have hopen : assembly.addItem ⟨start, start + first.size⟩ (.startTag content) =
        .ok ⟨opened :: assembly.pending, assembly.root⟩ := by
      rw [addItem, openTag, attributes_eq]
    have hinside := addPieces_of_row (row.mono ih) opened assembly.pending assembly.root
    have hclose (span : Span) : addItem ⟨opened.pushAll children :: assembly.pending, assembly.root⟩
        span (.endTag (tagName content)) =
          assembly.complete (.mk opened.name attributes (.ofNodes children) ⟨start, span.stop⟩) := by
      rw [addItem, closeTag]
      simp [OpenElement.close, OpenElement.pushAll, opened]
    rw [addPieces_cons_of_item first_eq hopen, addPieces_append, hinside]
    dsimp only [Except.bind]
    rw [addPieces, addPiece, last_eq]
    dsimp only
    rw [hclose]
    simp only [extent_cons, extent_append, extent_nil, Nat.add_assoc, Nat.add_zero, opened]
    cases assembly.complete _ with
    | error error => rfl
    | ok next => rfl

end Assembly

/-! ### What has been read -/

/-- A piece that may stand around the root. -/
def Piece.IsOutside (piece : Piece) : Prop :=
  ∃ item, piece.item = .ok item ∧
    (item.IsSilent ∨
      ∃ raw chars, item = .text raw ∧ unescape raw = .ok chars ∧ chars.all isBlank = true)

/-- The assembly after pieces. Outside the root they leave nothing in it; each element that is open has
its start tag, and the row of its children so far. -/
inductive Makes : List Piece → Assembly → Prop
  | before {pieces : List Piece} (outside : ∀ piece ∈ pieces, piece.IsOutside) :
      Makes pieces ⟨[], none⟩
  | after {before own after : List Piece} {root : Element}
      (outside : ∀ piece ∈ before ++ after, piece.IsOutside)
      (forms : Forms (extent before) own root) : Makes (before ++ (own ++ after)) ⟨[], some root⟩
  | inside {done inside : List Piece} {first : Piece} {content : List Char}
      {attributes : List Attribute} {children : List Node} {outer : List OpenElement}
      {root : Option Element} (makes : Makes done ⟨outer, root⟩)
      (first_eq : first.item = .ok (.startTag content))
      (attributes_eq : readAttributes content (extent done + 1) = .ok attributes)
      (row : Row Forms (extent done + first.size) inside children) :
      Makes (done ++ first :: inside)
        ⟨⟨String.ofList (tagName content), attributes, extent done, children.reverse⟩ :: outer, root⟩

namespace Makes

variable {done : List Piece} {assembly next : Assembly} {piece : Piece} {item : Item}

theorem outside {root : Option Element} (hmakes : Makes done ⟨[], root⟩) (hpiece : piece.IsOutside) :
    Makes (done ++ [piece]) ⟨[], root⟩ := by
  cases hmakes with
  | before outside =>
    apply Makes.before
    simpa [or_imp, forall_and] using And.intro outside hpiece
  | @after before own after root outside forms =>
    rw [List.append_assoc, List.append_assoc]
    refine .after ?_ forms
    rw [← List.append_assoc]
    simpa [or_imp, forall_and, and_assoc] using And.intro outside hpiece

theorem row {pieces : List Piece} {nodes : List Node} {element : OpenElement}
    {outer : List OpenElement} {root : Option Element} (hmakes : Makes done ⟨element :: outer, root⟩)
    (hrow : Row Forms (extent done) pieces nodes) :
    Makes (done ++ pieces) ⟨element.pushAll nodes :: outer, root⟩ := by
  cases hmakes with
  | @inside done inside first content attributes children _ _ makes first_eq attributes_eq row =>
    rw [extent_append, extent_cons, ← Nat.add_assoc] at hrow
    have hmore := makes.inside first_eq attributes_eq (row.append hrow)
    simpa [OpenElement.pushAll] using hmore

theorem silent (hmakes : Makes done assembly) (hitem : piece.item = .ok item)
    (hsilent : item.IsSilent) : Makes (done ++ [piece]) assembly := by
  obtain ⟨pending, root⟩ := assembly
  cases pending with
  | nil => exact hmakes.outside ⟨item, hitem, .inl hsilent⟩
  | cons element outer =>
    have hrow : Row Forms (extent done) [piece] [] := .silent hitem hsilent (.nil _)
    exact hmakes.row hrow

theorem text {element : OpenElement} {outer : List OpenElement} {root : Option Element}
    (hmakes : Makes done ⟨element :: outer, root⟩) (hitem : piece.item = .ok item)
    {chars : List Char} (hchars : item.chars? = some chars) :
    Makes (done ++ [piece])
      ⟨element.push (.text (String.ofList chars) ⟨extent done, extent done + piece.size⟩) :: outer,
        root⟩ := by
  have hrow : Row Forms (extent done) [piece] _ := .text hitem hchars (.nil _)
  exact hmakes.row hrow

/-- A complete element is the root, or it is one more child of the innermost open element. -/
theorem complete (hmakes : Makes done assembly) {own : List Piece} {element : Element}
    (hforms : Forms (extent done) own element) (hnext : assembly.complete element = .ok next) :
    Makes (done ++ own) next := by
  obtain ⟨pending, root⟩ := assembly
  cases pending with
  | nil =>
    cases hmakes with
    | before outside =>
      cases hnext
      have hafter : Makes (done ++ (own ++ [])) ⟨[], some element⟩ :=
        .after (by simpa using outside) hforms
      rwa [List.append_nil] at hafter
    | after outside forms => cases hnext
  | cons parent outer =>
    cases hnext
    have hrow : Row Forms (extent done) (own ++ []) [.element element] := .element hforms (.nil _)
    rw [List.append_nil] at hrow
    exact hmakes.row hrow

/-- The end tag of the innermost open element completes what its start tag began. -/
theorem exists_forms_of_close {element : OpenElement} {outer : List OpenElement}
    {root : Option Element} (hmakes : Makes done ⟨element :: outer, root⟩) {name : List Char}
    (hitem : piece.item = .ok (.endTag name)) (hname : element.name = String.ofList name) :
    ∃ earlier own, done ++ [piece] = earlier ++ own ∧ Makes earlier ⟨outer, root⟩ ∧
      Forms (extent earlier) own (element.close (extent done + piece.size)) := by
  cases hmakes with
  | @inside done inside first content attributes children _ _ makes first_eq attributes_eq row =>
    obtain rfl : tagName content = name := String.ofList_injective hname
    refine ⟨done, first :: (inside ++ [piece]), by simp, makes, ?_⟩
    have hclose : OpenElement.close
        ⟨String.ofList (tagName content), attributes, extent done, children.reverse⟩
          (extent (done ++ first :: inside) + piece.size) =
        .mk (String.ofList (tagName content)) attributes (.ofNodes children)
          ⟨extent done, extent done + extent (first :: (inside ++ [piece]))⟩ := by
      simp [OpenElement.close, Nat.add_assoc]
    rw [hclose]
    exact .tags first_eq attributes_eq row hitem

theorem closeTag (hmakes : Makes done assembly) {name : List Char}
    (hitem : piece.item = .ok (.endTag name))
    (hnext : assembly.closeTag name ⟨extent done, extent done + piece.size⟩ = .ok next) :
    Makes (done ++ [piece]) next := by
  obtain ⟨pending, root⟩ := assembly
  cases pending with
  | nil => cases hnext
  | cons element outer =>
    dsimp only [Assembly.closeTag] at hnext
    split at hnext
    · next hname =>
      obtain ⟨earlier, own, hdone, makes, hforms⟩ := hmakes.exists_forms_of_close hitem hname
      rw [hdone]
      exact makes.complete hforms hnext
    · cases hnext

theorem addItem (hmakes : Makes done assembly) (hitem : piece.item = .ok item)
    (hnext : assembly.addItem ⟨extent done, extent done + piece.size⟩ item = .ok next) :
    Makes (done ++ [piece]) next := by
  obtain ⟨pending, root⟩ := assembly
  cases item with
  | text raw =>
    rw [Assembly.addItem, Assembly.addText] at hnext
    split at hnext
    · cases hnext
    · next chars element outer hread hpending =>
      obtain rfl : pending = element :: outer := hpending
      cases hnext
      exact hmakes.text hitem (toOption_eq_some_iff.mpr hread)
    · next chars hread hpending =>
      obtain rfl : pending = [] := hpending
      split at hnext
      · next hblank =>
        cases hnext
        exact hmakes.outside ⟨_, hitem, .inr ⟨raw, chars, rfl, hread, hblank⟩⟩
      · cases hnext
  | cdata chars =>
    cases pending with
    | nil => cases hnext
    | cons element outer =>
      cases hnext
      exact hmakes.text hitem rfl
  | startTag content =>
    rw [Assembly.addItem, Assembly.openTag] at hnext
    split at hnext
    · cases hnext
    · next attributes hattributes =>
      cases hnext
      exact hmakes.inside hitem hattributes (.nil _)
  | emptyTag content =>
    rw [Assembly.addItem, Assembly.emptyTag] at hnext
    split at hnext
    · cases hnext
    · next attributes hattributes => exact hmakes.complete (.emptyTag hitem hattributes) hnext
  | endTag name => exact hmakes.closeTag hitem hnext
  | declaration content =>
    rw [Assembly.addItem] at hnext
    cases hcheck : checkDeclaration content with
    | error error =>
      rw [hcheck] at hnext
      cases hnext
    | ok _ =>
      rw [hcheck] at hnext
      cases hnext
      exact hmakes.silent hitem hcheck
  | instruction | comment | doctype =>
    cases hnext
    exact hmakes.silent hitem trivial

theorem addPiece (hmakes : Makes done assembly)
    (hnext : assembly.addPiece ⟨extent done, extent done + piece.size⟩ piece = .ok next) :
    Makes (done ++ [piece]) next := by
  rw [Assembly.addPiece] at hnext
  split at hnext
  · cases hnext
  · next item hitem => exact hmakes.addItem hitem hnext

theorem addPieces (hmakes : Makes done assembly) {rest : List Piece}
    (hnext : assembly.addPieces (extent done) rest = .ok next) : Makes (done ++ rest) next := by
  induction rest generalizing done assembly with
  | nil =>
    cases hnext
    rwa [List.append_nil]
  | cons piece rest ih =>
    rw [Assembly.addPieces] at hnext
    split at hnext
    · cases hnext
    · next reached hpiece =>
      have hstop : extent done + piece.size = extent (done ++ [piece]) := by simp
      rw [hstop] at hnext
      have hmore := ih (hmakes.addPiece hpiece) hnext
      rwa [List.append_assoc, List.singleton_append] at hmore

end Makes

theorem Assembly.addPieces_of_isOutside {pieces : List Piece}
    (houtside : ∀ piece ∈ pieces, piece.IsOutside) (root : Option Element) (offset : Nat) :
    addPieces ⟨[], root⟩ offset pieces = .ok ⟨[], root⟩ := by
  induction pieces generalizing offset with
  | nil => rfl
  | cons piece rest ih =>
    obtain ⟨⟨item, hitem, hout⟩, hrest⟩ := List.forall_mem_cons.mp houtside
    have hadd (span : Span) : addItem ⟨[], root⟩ span item = .ok ⟨[], root⟩ := by
      rcases hout with hsilent | ⟨raw, chars, rfl, hread, hblank⟩
      · exact addItem_of_isSilent hsilent _ span
      · rw [addItem, addText, hread]
        exact if_pos hblank
    rw [addPieces_cons_of_item hitem (hadd _), ih hrest]

/-- The root is what a stretch of the pieces forms, with nothing around it. -/
theorem parseRoot_eq_ok_iff {source : List Char} {root : Element} :
    parseRoot source = .ok root ↔
      ∃ before own after, pieces (dropMark source) = before ++ (own ++ after) ∧
        (∀ piece ∈ before ++ after, piece.IsOutside) ∧ Forms (extent before) own root := by
  unfold parseRoot
  constructor
  · intro hparse
    split at hparse
    · cases hparse
    · next last hlast =>
      have hmakes : Makes (pieces (dropMark source)) last :=
        Makes.addPieces (.before (List.forall_mem_nil _)) hlast
      obtain ⟨pending, found⟩ := last
      cases pending with
      | cons element outer => cases hparse
      | nil =>
        generalize hpieces : pieces (dropMark source) = all at hmakes
        cases hmakes with
        | before outside => cases hparse
        | @after before own after root outside forms =>
          cases hparse
          exact ⟨before, own, after, rfl, outside, forms⟩
  · rintro ⟨before, own, after, hpieces, houtside, hforms⟩
    have hbefore : ∀ piece ∈ before, piece.IsOutside := fun piece hmem =>
      houtside piece (List.mem_append_left _ hmem)
    have hafter : ∀ piece ∈ after, piece.IsOutside := fun piece hmem =>
      houtside piece (List.mem_append_right _ hmem)
    have hall : Assembly.empty.addPieces 0 (before ++ (own ++ after)) = .ok ⟨[], some root⟩ := by
      rw [Assembly.addPieces_append, Assembly.empty, Assembly.addPieces_of_isOutside hbefore]
      dsimp only [Except.bind]
      rw [Nat.zero_add, Assembly.addPieces_append, Assembly.addPieces_of_forms hforms]
      exact Assembly.addPieces_of_isOutside hafter _ _
    rw [hpieces, hall]
    rfl

theorem exists_of_map_eq_ok {ε α β : Type} {f : α → β} {result : Except ε α} {b : β}
    (hmap : result.map f = .ok b) : ∃ a, result = .ok a ∧ f a = b := by
  cases result with
  | error e => cases hmap
  | ok a => exact ⟨a, rfl, Except.ok.inj hmap⟩

theorem parseRoot_of_parse {source : String} {document : Document}
    (hparse : parse source = .ok document) : parseRoot source.toList = .ok document.root := by
  obtain ⟨root, hroot, rfl⟩ := exists_of_map_eq_ok hparse
  exact hroot

theorem dropMark_eq_self {source : List Char} (hmark : source.head? ≠ some byteOrderMark) :
    dropMark source = source := by
  cases source with
  | nil => rfl
  | cons c rest =>
    have hc : c ≠ byteOrderMark := by simpa using hmark
    rw [dropMark, if_neg hc]

/-- An element of a document, at any depth, is what a stretch of the pieces forms. -/
theorem exists_forms_of_parse {source : String} {document : Document}
    (hparse : parse source = .ok document) {element : Element}
    (hmem : element ∈ document.root.subtree) :
    ∃ before own after, pieces (dropMark source.toList) = before ++ own ++ after ∧
      Forms (extent before) own element := by
  obtain ⟨before, own, after, hpieces, -, hforms⟩ :=
    parseRoot_eq_ok_iff.mp (parseRoot_of_parse hparse)
  obtain ⟨front, part, back, rfl, hpart⟩ := hforms.exists_own hmem
  refine ⟨before ++ front, part, back ++ after, ?_, ?_⟩
  · rw [hpieces]
    simp
  · rwa [extent_append]

end CompatChanges.Xml
