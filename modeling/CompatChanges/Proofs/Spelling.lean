import CompatChanges.Proofs.Quoted

/-!
# Names that were read

An element of a document has its names from a tag of the source. The names of a tag that was read can be
written and read again, unless quotes stand in them or the name of the element is empty or ends in a
slash.
-/

namespace CompatChanges.Xml

open Text

/-! ### Tags -/

/-- Markup ends at the first `>` that ends it. -/
def EndsFirst (content : List Char) : Prop :=
  closes content = true ∧ ∀ front back, content = front ++ '>' :: back → closes front = false

theorem Piece.item_unclosed_ne_ok (content : List Char) (item : Item) :
    (Piece.unclosed content).item ≠ .ok item := by
  unfold Piece.item
  dsimp only
  split <;> nofun

theorem endsFirst_of_mem_piecesFrom {piece : OpenPiece} {source content : List Char}
    (hopen : ∀ markup, piece = .markup markup → ∀ front back,
      markup.content = front ++ '>' :: back → closes front = false)
    (hmem : .markup content ∈ piecesFrom piece source) : EndsFirst content := by
  have htext (seen : List Char) : Piece.markup content ∉ textPiece seen := by
    unfold textPiece
    split <;> simp
  induction source generalizing piece with
  | nil =>
    cases piece with
    | text seen => exact absurd hmem (htext seen)
    | markup markup => simp [piecesFrom] at hmem
  | cons c rest ih =>
    cases piece with
    | text seen =>
      rw [piecesFrom] at hmem
      split at hmem
      · rcases List.mem_append.mp hmem with hseen | hrest
        · exact absurd hseen (htext seen)
        · refine ih ?_ hrest
          intro markup hmarkup front back hsplit
          cases hmarkup
          simp [OpenMarkup.content, OpenMarkup.empty] at hsplit
      · refine ih ?_ hmem
        intro markup hmarkup
        cases hmarkup
    | markup markup =>
      have hfront := hopen markup rfl
      rw [piecesFrom] at hmem
      split at hmem
      · next hends =>
        rw [Bool.and_eq_true, markup.ends_eq_closes] at hends
        rcases List.mem_cons.mp hmem with heq | hrest
        · cases heq
          exact ⟨hends.2, hfront⟩
        · refine ih ?_ hrest
          intro markup hmarkup
          cases hmarkup
      · next hends =>
        rw [Bool.and_eq_true, markup.ends_eq_closes, not_and, decide_eq_true_eq] at hends
        refine ih ?_ hmem
        intro next hnext front back hsplit
        cases hnext
        -- The `>` is the character that came, or one that came before.
        rw [OpenMarkup.content, OpenMarkup.seen_push, List.reverse_cons] at hsplit
        rcases List.eq_nil_or_concat back with rfl | ⟨back, last, rfl⟩
        · obtain ⟨hsame, hc⟩ := List.append_inj' hsplit rfl
          cases hc
          rw [← hsame]
          exact Bool.not_eq_true _ ▸ hends rfl
        · have hsplit : markup.seen.reverse ++ [c] = (front ++ '>' :: back) ++ [last] := by
            simpa using hsplit
          exact hfront front back (List.append_inj' hsplit rfl).1

/-- What a tag that was read has between `<` and `>`, or `/>`. -/
structure IsTagText (inner : List Char) : Prop where
  head : inner.head? ≠ some '!' ∧ inner.head? ≠ some '?' ∧ inner.head? ≠ some '/'
  closed : inner.foldl quoteAfter none = none
  unclosed : ∀ front back, inner = front ++ '>' :: back → front.foldl quoteAfter none ≠ none

theorem MarkupKind.of?_eq_tag_iff {content : List Char} :
    MarkupKind.of? content = some .tag ↔ content.head? ≠ some '!' ∧ content.head? ≠ some '?' := by
  cases content with
  | nil => simp [MarkupKind.of?]
  | cons first rest =>
    by_cases hbang : first = '!'
    · subst hbang
      simp only [List.head?_cons, ne_eq, not_true_eq_false, false_and, iff_false]
      unfold MarkupKind.of?
      split <;> simp_all
    · by_cases hmark : first = '?'
      · subst hmark
        simp [MarkupKind.of?]
      · simp [MarkupKind.of?, hbang, hmark]

theorem tagItem_eq_tag {content inner : List Char}
    (hitem : tagItem content = .startTag inner ∨ tagItem content = .emptyTag inner) :
    content.head? ≠ some '/' ∧ (content = inner ∨ content = inner ++ ['/']) := by
  unfold tagItem at hitem
  split at hitem
  · rcases hitem with hitem | hitem <;> cases hitem
  · next hslash =>
    refine ⟨?_, ?_⟩
    · intro hhead
      obtain ⟨rest, rfl⟩ := List.head?_eq_some_iff.mp hhead
      exact hslash rest rfl
    · split at hitem
      · next hsuffix =>
        obtain ⟨front, rfl⟩ := List.isSuffixOf_iff_suffix.mp hsuffix
        rw [List.dropLast_concat] at hitem
        rcases hitem with hitem | hitem <;> cases hitem
        exact .inr rfl
      · rcases hitem with hitem | hitem <;> cases hitem
        exact .inl rfl

/-- Markup that is a tag is what stands in it, with a slash after it if it is empty. -/
theorem markupItem_eq_tag {content inner : List Char}
    (hitem : markupItem content = .ok (.startTag inner) ∨ markupItem content = .ok (.emptyTag inner)) :
    MarkupKind.of? content = some .tag ∧ content.head? ≠ some '/' ∧
      (content = inner ∨ content = inner ++ ['/']) := by
  have hinstruction (inside : List Char) :
      instructionItem inside ≠ .startTag inner ∧ instructionItem inside ≠ .emptyTag inner := by
    unfold instructionItem
    split <;> simp
  unfold markupItem at hitem
  split at hitem
  · rcases hitem with hitem | hitem <;> cases hitem
  · next hkind =>
    simp only [Except.ok.injEq] at hitem
    exact ⟨hkind, tagItem_eq_tag hitem⟩
  · split at hitem
    · simp only [Except.ok.injEq, hinstruction, or_self] at hitem
    · rcases hitem with hitem | hitem <;> cases hitem
  · split at hitem <;> rcases hitem with hitem | hitem <;> cases hitem
  · split at hitem <;> rcases hitem with hitem | hitem <;> cases hitem
  · split at hitem
    · rcases hitem with hitem | hitem <;> cases hitem
    · split at hitem <;> rcases hitem with hitem | hitem <;> cases hitem

theorem isTagText_of_markupItem {content inner : List Char} (hends : EndsFirst content)
    (hitem : markupItem content = .ok (.startTag inner) ∨ markupItem content = .ok (.emptyTag inner)) :
    IsTagText inner := by
  obtain ⟨hkind, hslash, hcontent⟩ := markupItem_eq_tag hitem
  obtain ⟨hbang, hmark⟩ := MarkupKind.of?_eq_tag_iff.mp hkind
  -- A beginning of a tag is again of this kind, so quotes alone decide whether it ends there.
  have hbeginning {front back : List Char} (hsplit : content = front ++ back) :
      closes front = quotesClosed front := by
    have hfront : MarkupKind.of? front = some .tag := by
      rw [MarkupKind.of?_eq_tag_iff]
      cases front with
      | nil => simp
      | cons first rest =>
        rw [hsplit] at hbang hmark
        exact ⟨hbang, hmark⟩
    simp [closes, hfront]
  have hclosed : content.foldl quoteAfter none = none := by
    have hquotes := hends.1
    rw [hbeginning (List.append_nil content).symm] at hquotes
    exact Option.isNone_iff_eq_none.mp hquotes
  have hopen : ∀ front back, content = front ++ '>' :: back → front.foldl quoteAfter none ≠ none := by
    intro front back hsplit hnone
    have hquotes := hends.2 front back hsplit
    rw [hbeginning hsplit, quotesClosed, hnone] at hquotes
    cases hquotes
  rcases hcontent with rfl | rfl
  · exact ⟨⟨hbang, hmark, hslash⟩, hclosed, hopen⟩
  · refine ⟨?_, ?_, ?_⟩
    · cases inner with
      | nil => simp
      | cons first rest => exact ⟨hbang, hmark, hslash⟩
    · rw [List.foldl_append] at hclosed
      rwa [List.foldl_cons, List.foldl_nil, quoteAfter_of_not_isQuote
        (isQuoteOrNone_foldl isQuoteOrNone_none inner) (by decide)] at hclosed
    · intro front back hsplit
      exact hopen front (back ++ ['/']) (by simp [hsplit])

section

variable {inner : List Char} {raws : List RawAttribute}

theorem exists_tagName_append (inner : List Char) :
    ∃ rest, inner = tagName inner ++ rest ∧ inner.drop (tagName inner).length = rest :=
  ⟨_, (List.prefix_iff_eq_append.mp (List.takeWhile_prefix _)).symm, rfl⟩

theorem IsTagText.isKey (htext : IsTagText inner)
    (hread : rawAttributes true inner = raws.map .ok) (hunquoted : ∀ raw ∈ raws, Unquoted raw.key) :
    ∀ raw ∈ raws, IsKey raw.key := by
  obtain ⟨rest, hinner, hrest⟩ := exists_tagName_append inner
  unfold rawAttributes at hread
  dsimp only at hread
  rw [hrest] at hread
  -- All quotes are closed at the end of the tag, so they are after its name.
  have hname : (tagName inner).foldl quoteAfter none = none := by
    have hclosed := htext.closed
    rw [hinner, List.foldl_append] at hclosed
    exact (foldl_quoteAfter_eq_none_iff hread hunquoted isQuoteOrNone_none
      (isQuoteOrNone_foldl isQuoteOrNone_none _)).mp hclosed
  apply isKey_of_attributesFrom hread hunquoted AttributeStage.sound_beforeKey
  intro front back hsplit
  have hopen := htext.unclosed (tagName inner ++ front) back (by
    rw [List.append_assoc, ← hsplit, ← hinner])
  rwa [List.foldl_append, hname] at hopen

theorem IsTagText.head_tagName (htext : IsTagText inner) :
    (tagName inner).head? ≠ some '!' ∧ (tagName inner).head? ≠ some '?' ∧
      (tagName inner).head? ≠ some '/' := by
  obtain ⟨rest, hinner, -⟩ := exists_tagName_append inner
  cases hname : tagName inner with
  | nil => simp
  | cons first others =>
    have hhead := htext.head
    rw [hinner, hname] at hhead
    exact hhead

theorem IsTagText.isTagName (htext : IsTagText inner) (hne : tagName inner ≠ [])
    (hunquoted : Unquoted (tagName inner)) (hlast : (tagName inner).getLast? ≠ some '/') :
    IsTagName (tagName inner) where
  ne_nil := hne
  plain := by
    intro c hmem
    simpa using List.all_eq_true.mp List.all_takeWhile c hmem
  unquoted := hunquoted
  unclosed := by
    intro hmem
    obtain ⟨front, back, hsplit⟩ := List.append_of_mem hmem
    obtain ⟨rest, hinner, -⟩ := exists_tagName_append inner
    have hopen := htext.unclosed front (back ++ rest) (by
      conv_lhs => rw [hinner, hsplit]
      simp)
    rw [hsplit] at hunquoted
    exact hopen (foldl_quoteAfter_of_none fun c hc => hunquoted c (by simp [hc]))
  head := htext.head_tagName
  last := hlast

end

/-- The names in a tag are those that a tag was read with. -/
def NamesRead (name : String) (attributes : List Attribute) : Prop :=
  ∃ (inner : List Char) (raws : List RawAttribute),
    IsTagText inner ∧ rawAttributes true inner = raws.map .ok ∧ name = String.ofList (tagName inner) ∧
      attributes.map Attribute.name = raws.map fun raw => String.ofList raw.key

namespace NamesRead

variable {name : String} {attributes : List Attribute}

theorem head (hnames : NamesRead name attributes) :
    name.toList.head? ≠ some '!' ∧ name.toList.head? ≠ some '?' := by
  obtain ⟨inner, raws, htext, -, rfl, -⟩ := hnames
  rw [String.toList_ofList]
  exact ⟨htext.head_tagName.1, htext.head_tagName.2.1⟩

theorem distinct (hnames : NamesRead name attributes) : (attributes.map Attribute.name).Nodup := by
  obtain ⟨inner, raws, -, hread, -, hkeys⟩ := hnames
  have hnodup := (rawAttributes_true_iff.mp hread).2
  have hmap : attributes.map Attribute.name = (raws.map RawAttribute.key).map String.ofList := by
    rw [hkeys, List.map_map]
    rfl
  rw [hmap]
  exact List.Pairwise.map String.ofList
    (fun left right hne hsame => hne (String.ofList_injective hsame)) hnodup

theorem isKey (hnames : NamesRead name attributes)
    (hunquoted : ∀ a ∈ attributes, Unquoted a.name.toList) :
    ∀ a ∈ attributes, IsKey a.name.toList := by
  obtain ⟨inner, raws, htext, hread, -, hkeys⟩ := hnames
  have hraws : ∀ raw ∈ raws, Unquoted raw.key := by
    intro raw hmem
    have hname : String.ofList raw.key ∈ attributes.map Attribute.name := by
      rw [hkeys]
      exact List.mem_map_of_mem hmem
    obtain ⟨a, ha, hsame⟩ := List.mem_map.mp hname
    have hplain := hunquoted a ha
    rwa [hsame, String.toList_ofList] at hplain
  intro a ha
  have hname : a.name ∈ raws.map fun raw => String.ofList raw.key := by
    rw [← hkeys]
    exact List.mem_map_of_mem ha
  obtain ⟨raw, hmem, hsame⟩ := List.mem_map.mp hname
  rw [← hsame, String.toList_ofList]
  exact htext.isKey hread hraws raw hmem

theorem legible (hnames : NamesRead name attributes) (hne : name ≠ "")
    (hname : Unquoted name.toList) (hlast : name.toList.getLast? ≠ some '/')
    (hunquoted : ∀ a ∈ attributes, Unquoted a.name.toList) : LegibleTag name attributes where
  isTagName := by
    obtain ⟨inner, raws, htext, -, rfl, -⟩ := hnames
    rw [String.toList_ofList] at hname hlast ⊢
    apply htext.isTagName _ hname hlast
    intro hnil
    exact hne (by rw [hnil])
  isKey := hnames.isKey hunquoted
  distinct := hnames.distinct

end NamesRead

/-! ### Documents -/

theorem names_of_bareAttributes? {raws : List RawAttribute} {attributes : List Attribute}
    (hread : bareAttributes? (raws.map .ok) = some attributes) :
    attributes.map Attribute.name = raws.map fun raw => String.ofList raw.key := by
  induction raws generalizing attributes with
  | nil =>
    cases hread
    rfl
  | cons raw rest ih =>
    rw [List.map_cons, bareAttributes?] at hread
    cases hvalue : unescape raw.value with
    | error fault =>
      rw [hvalue] at hread
      cases hread
    | ok value =>
      rw [hvalue] at hread
      obtain ⟨later, hlater, rfl⟩ := Option.map_eq_some_iff.mp hread
      rw [List.map_cons, List.map_cons, ih hlater]

theorem namesRead_of_bareAttributes? {inner : List Char} (htext : IsTagText inner)
    {attributes : List Attribute}
    (hread : bareAttributes? (rawAttributes true inner) = some attributes) :
    NamesRead (String.ofList (tagName inner)) attributes := by
  obtain ⟨raws, hraws, -⟩ := isSome_bareAttributes?_iff.mp (Option.isSome_of_eq_some hread)
  rw [hraws] at hread
  exact ⟨inner, raws, htext, hraws, rfl, names_of_bareAttributes? hread⟩

theorem namesRead_of_piece {source : List Char} {piece : Piece} (hpiece : piece ∈ pieces source)
    {events : List Event} (hevents : piece.events? = some events) {name : String}
    {attributes : List Attribute} (hstart : .start name attributes ∈ events) :
    NamesRead name attributes := by
  obtain ⟨item, hitem, hevents⟩ := Option.bind_eq_some_iff.mp hevents
  have hitem : piece.item = .ok item := toOption_eq_some_iff.mp hitem
  have htag {inner : List Char} (htag : item = .startTag inner ∨ item = .emptyTag inner) :
      IsTagText inner := by
    cases piece with
    | text chars =>
      cases hitem
      rcases htag with htag | htag <;> cases htag
    | markup content =>
      refine isTagText_of_markupItem (endsFirst_of_mem_piecesFrom ?_ hpiece) ?_
      · intro markup hmarkup
        cases hmarkup
      · exact htag.imp (fun h => by rw [← h]; exact hitem) (fun h => by rw [← h]; exact hitem)
    | unclosed content => exact absurd hitem (Piece.item_unclosed_ne_ok content item)
  cases item with
  | startTag inner =>
    obtain ⟨read, hread, rfl⟩ := Option.map_eq_some_iff.mp hevents
    cases List.mem_singleton.mp hstart
    exact namesRead_of_bareAttributes? (htag (.inl rfl)) hread
  | emptyTag inner =>
    obtain ⟨read, hread, rfl⟩ := Option.map_eq_some_iff.mp hevents
    have hfirst : Event.start name attributes = .start (String.ofList (tagName inner)) read := by
      simpa using hstart
    cases hfirst
    exact namesRead_of_bareAttributes? (htag (.inr rfl)) hread
  | text raw =>
    obtain ⟨chars, -, rfl⟩ := Option.map_eq_some_iff.mp hevents
    simp at hstart
  | declaration content =>
    obtain ⟨-, -, rfl⟩ := Option.map_eq_some_iff.mp hevents
    simp at hstart
  | cdata | endTag | instruction | comment | doctype =>
    cases hevents
    simp at hstart

theorem exists_piece_of_mem_eventsOf? {pieces : List Piece} {events : List Event}
    (hevents : eventsOf? pieces = some events) {event : Event} (hmem : event ∈ events) :
    ∃ piece ∈ pieces, ∃ own, piece.events? = some own ∧ event ∈ own := by
  induction pieces generalizing events with
  | nil =>
    cases hevents
    cases hmem
  | cons piece rest ih =>
    obtain ⟨own, hown, hrest⟩ := Option.bind_eq_some_iff.mp hevents
    obtain ⟨later, hlater, rfl⟩ := Option.map_eq_some_iff.mp hrest
    rcases List.mem_append.mp hmem with hfirst | hsecond
    · exact ⟨piece, by simp, own, hown, hfirst⟩
    · obtain ⟨other, hother, found⟩ := ih hlater hsecond
      exact ⟨other, by simp [hother], found⟩

theorem start_mem_of_mem_contentFrom {inks : List Bool} {events : List Event} {name : String}
    {attributes : List Attribute} (hmem : .start name attributes ∈ contentFrom inks events) :
    .start name attributes ∈ events := by
  have htext (inks : List Bool) (string : String) :
      Event.start name attributes ∉ contentText inks string := by
    unfold contentText
    split
    · simp
    · split <;> simp
  induction events generalizing inks with
  | nil => cases hmem
  | cons event rest ih =>
    cases event with
    | start | stop =>
      rcases List.mem_cons.mp hmem with hself | hrest
      · simp [hself]
      · exact List.mem_cons_of_mem _ (ih hrest)
    | text string | cdata string =>
      rcases List.mem_append.mp hmem with hself | hrest
      · exact absurd hself (htext inks string)
      · exact List.mem_cons_of_mem _ (ih hrest)

theorem Element.start_mem_events {element inner : Element} (hinner : inner ∈ element.subtree) :
    .start inner.name inner.attributes ∈ element.events := by
  induction element using childInduction with
  | mk name attributes content span ih =>
    rw [subtree_mk, List.mem_cons, List.mem_flatMap] at hinner
    rw [events_mk]
    rcases hinner with rfl | ⟨child, hchild, hinner⟩
    · simp
    · have hnode : Node.element child ∈ content.nodes := Content.mem_children.mp hchild
      have hevent : .start inner.name inner.attributes ∈ content.nodes.flatMap Node.events :=
        List.mem_flatMap.mpr ⟨.element child, hnode, ih child hnode hinner⟩
      simp [hevent]

/-- Every element of a document that was read has the names of some tag. -/
theorem namesRead_of_parse {source : List Char} {document : Document}
    (hparse : parseChars source = .ok document) {inner : Element}
    (hinner : inner ∈ document.root.subtree) : NamesRead inner.name inner.attributes := by
  obtain ⟨events, last, hevents, htake, hfinish⟩ :=
    exists_parseChars_iff.mp ⟨document, hparse, rfl⟩
  have hbare : inner.bare ∈ document.root.bare.subtree := by
    rw [Element.subtree_bare]
    exact List.mem_map_of_mem hinner
  have hstart := Element.start_mem_events hbare
  rw [Assembly.events_of_takeAll? htake hfinish] at hstart
  obtain ⟨piece, hpiece, own, hown, hmem⟩ :=
    exists_piece_of_mem_eventsOf? hevents (start_mem_of_mem_contentFrom hstart)
  have hread := namesRead_of_piece hpiece hown hmem
  obtain ⟨name, attributes, content, span⟩ := inner
  obtain ⟨found, raws, htext, hraws, hname, hkeys⟩ := hread
  refine ⟨found, raws, htext, hraws, hname, ?_⟩
  rw [← hkeys]
  simp [Attribute.bare, Function.comp_def]

end CompatChanges.Xml
