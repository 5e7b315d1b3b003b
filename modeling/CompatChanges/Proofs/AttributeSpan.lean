import CompatChanges.Proofs.AttributeSearch

/-!
# Where attributes stand

The spans of an element's attributes against the places where its tag has their names. The first is
always right. All are if and only if no name occurs between the place where the search for it starts
and its own, where a search starts in the value of the attribute before.
-/

namespace CompatChanges.Xml

open Text

/-- The text has the name of the attribute, and its value with references. -/
def AttributeText.Spells (text : AttributeText) (a : Attribute) : Prop :=
  text.key = a.name.toList ∧ unescape text.value = .ok a.value.toList

/-- The name of the attribute stands at the span, followed by an equals sign and by its value in
quotes, with separators at most between them. -/
def Attribute.WrittenAt (source : List Char) (a : Attribute) (span : Span) : Prop :=
  ∃ (text : AttributeText) (before after : List Char), source = before ++ (text.body ++ after) ∧
    span = ⟨Utf8.size before, Utf8.size (before ++ text.key)⟩ ∧ text.Spells a

/-- The texts of an element's attributes stand one after the other in its first tag, with their names
at `places`. -/
structure Element.Tagged (source : List Char) (element : Element) (texts : List AttributeText)
    (places : List Span) : Prop where
  tag : ∃ before blanks after, source = before ++ '<' :: (element.name.toList ++
      (texts.flatMap AttributeText.source ++ (blanks ++ after))) ∧
    element.span.start = Utf8.size before ∧ IsGap blanks ∧
    (['>'] <+: after ∨ ['/', '>'] <+: after) ∧
    places = AttributeText.nameSpans (Utf8.size (before ++ '<' :: element.name.toList)) texts
  spells : List.Forall₂ AttributeText.Spells texts element.attributes
  written : List.Forall₂ (Attribute.WrittenAt source) element.attributes places
  increasing : places.Pairwise fun left right => left.stop < right.start

theorem forall₂_writtenAt {source front back : List Char} {texts : List AttributeText}
    {attributes : List Attribute}
    (hsource : source = front ++ (texts.flatMap AttributeText.source ++ back))
    (hspells : List.Forall₂ AttributeText.Spells texts attributes) :
    List.Forall₂ (Attribute.WrittenAt source) attributes
      (AttributeText.nameSpans (Utf8.size front) texts) := by
  induction hspells generalizing front with
  | nil => exact .nil
  | @cons text a rest others hhead htail ih =>
    have hfront : source = front ++ text.gap ++
        (text.body ++ (rest.flatMap AttributeText.source ++ back)) := by
      rw [hsource]
      simp [AttributeText.source]
    have hrest := @ih (front ++ text.source) (by
      rw [hsource]
      simp)
    rw [Utf8.size_append] at hrest
    refine .cons ⟨text, front ++ text.gap, _, hfront, ?_, hhead⟩ hrest
    simp [Nat.add_assoc]

theorem map_key_eq {texts : List AttributeText} {attributes : List Attribute}
    (hspells : List.Forall₂ AttributeText.Spells texts attributes) :
    texts.map AttributeText.key = attributes.map fun a => a.name.toList := by
  have hkeys : List.Forall₂ (· = ·) (texts.map AttributeText.key)
      (attributes.map fun a => a.name.toList) := by
    rw [List.forall₂_map_left_iff, List.forall₂_map_right_iff]
    exact hspells.imp fun _ _ hspells => hspells.1
  rwa [List.forall₂_eq_eq_eq] at hkeys

/-- The first tag of an element that pieces form. -/
theorem Forms.exists_tag {start : Nat} {own : List Piece} {element : Element}
    (hforms : Forms start own element) :
    ∃ content after, own.flatMap Piece.source = '<' :: (content ++ after) ∧
      (['>'] <+: after ∨ ['/', '>'] <+: after) ∧ tagName content = element.name.toList ∧
      readAttributes content (start + 1) = .ok element.attributes := by
  cases hforms with
  | @emptyTag _ piece content attributes item_eq attributes_eq =>
    obtain ⟨closer, hsource, hcloser⟩ := exists_closer_of_tag (.inr item_eq)
    refine ⟨content, closer, by simp [hsource], ?_, by simp, attributes_eq⟩
    rcases hcloser with rfl | rfl
    · exact .inl (List.prefix_refl _)
    · exact .inr (List.prefix_refl _)
  | @tags _ first last content attributes inside children first_eq attributes_eq row last_eq =>
    obtain ⟨closer, hsource, hcloser⟩ := exists_closer_of_tag (.inl first_eq)
    refine ⟨content, closer ++ (inside ++ [last]).flatMap Piece.source, by simp [hsource], ?_, by simp,
      attributes_eq⟩
    rcases hcloser with rfl | rfl
    · exact .inl (List.prefix_append _ _)
    · exact .inr (List.prefix_append _ _)

/-- The spans of the attributes are at the places of their names if and only if each attribute clears
the next one. The first is in any case; and the others hold a name each, one after the other, up to an
attribute from which on all stand for the first byte after the `<`. -/
theorem attributes_span_of_parse {source : String} {document : Document}
    (hmark : source.toList.head? ≠ some byteOrderMark) (hparse : parse source = .ok document)
    {element : Element} (hmem : element ∈ document.root.subtree) :
    ∃ (texts : List AttributeText) (places : List Span),
      element.Tagged source.toList texts places ∧
      (element.attributes.map Attribute.span = places ↔ texts.IsChain AttributeText.Clears) ∧
      (element.attributes.map Attribute.span).head? = places.head? ∧
      Spread source.toList ⟨element.span.start + 1, element.span.start + 2⟩ (element.span.start + 1)
        (element.attributes.map fun a => a.name.toList) (element.attributes.map Attribute.span) := by
  obtain ⟨before, own, after, hpieces, hforms⟩ := exists_forms_of_parse hparse hmem
  obtain ⟨content, closer, hown, hcloser, hname, hread⟩ := hforms.exists_tag
  have hstart : element.span.start = extent before := by rw [hforms.span_eq]
  unfold readAttributes at hread
  obtain ⟨read, hraws, hspans, hread⟩ := exists_read_of_placeAttributes hread
  obtain ⟨texts, blanks, htexts, hblanks, rfl⟩ := exists_texts_of_rawAttributes hraws
  have hcontent : content = element.name.toList ++ (texts.flatMap AttributeText.source ++ blanks) := by
    obtain ⟨rest, hcontent, hrest⟩ := exists_tagName_append content
    rw [← hname, ← htexts, hrest, ← hcontent]
  have hspells : List.Forall₂ AttributeText.Spells texts element.attributes := by
    rw [List.forall₂_map_left_iff] at hread
    exact hread
  rw [htexts, hname] at hspans
  -- The tag in the source, cut before the first text and after the last blank.
  let front := before.flatMap Piece.source ++ '<' :: element.name.toList
  let back := closer ++ after.flatMap Piece.source
  have hfront : Utf8.size front = extent before + 1 + Utf8.size element.name.toList := by
    simp only [front, Utf8.size_append, Utf8.size_cons]
    exact (Nat.add_assoc _ _ _).symm
  have hsource : source.toList =
      front ++ (texts.flatMap AttributeText.source ++ (blanks ++ back)) := by
    rw [← dropMark_eq_self hmark, ← pieces_source (dropMark source.toList), hpieces]
    simp [front, back, hown, hcontent]
  refine ⟨texts, AttributeText.nameSpans (Utf8.size front) texts, ⟨?_, hspells, ?_, ?_⟩, ?_, ?_, ?_⟩
  · refine ⟨before.flatMap Piece.source, blanks, back, ?_, hstart, hblanks, ?_, rfl⟩
    · rw [hsource]
      simp [front]
    · exact hcloser.imp (·.trans (List.prefix_append _ _)) (·.trans (List.prefix_append _ _))
  · exact forall₂_writtenAt hsource hspells
  · exact AttributeText.pairwise_nameSpans _ _
  · rw [hspans, hfront]
    exact spansFrom_eq_nameSpans_iff
  · rw [hspans, hfront]
    exact head?_spansFrom _ _ texts blanks
  · have hspread := @spread_spansFrom (extent before + 1) (Utf8.size element.name.toList) front []
      blanks back hfront texts
    have hwhole : front ++ ([] ++ (texts.flatMap AttributeText.source ++ blanks)) ++ back =
        source.toList := by
      rw [hsource]
      simp
    rw [hwhole] at hspread
    rw [← map_key_eq hspells, hspans, hstart]
    exact hspread.of_le (Nat.le_add_right _ _)

/-- In `q` the second name is found in the first value, in `r` it is not looked for. -/
def sharingSource : String := "<p a='1' é = \"2\"><q a='xb' b='1'/><r a='xéy' b='1'/></p>"

theorem attributes_span_sharingSource :
    sharingSource.toList.head? ≠ some byteOrderMark ∧
      ∃ document, parse sharingSource = .ok document ∧
        document.root.subtree.map (fun inner => inner.attributes.map Attribute.span) =
          [[⟨3, 4⟩, ⟨9, 11⟩], [⟨21, 22⟩, ⟨25, 26⟩], [⟨38, 39⟩, ⟨36, 37⟩]] ∧
        ∀ element ∈ document.root.subtree, ∃ texts places,
          element.Tagged sharingSource.toList texts places ∧
            (element.attributes.map Attribute.span = places ↔
              texts.IsChain AttributeText.Clears) := by
  have hmark : sharingSource.toList.head? ≠ some byteOrderMark := by decide +kernel
  have hread : (parse sharingSource).toOption.map
      (fun document => document.root.subtree.map fun inner => inner.attributes.map Attribute.span) =
        some [[⟨3, 4⟩, ⟨9, 11⟩], [⟨21, 22⟩, ⟨25, 26⟩], [⟨38, 39⟩, ⟨36, 37⟩]] := by
    decide +kernel
  obtain ⟨document, hdocument, hspans⟩ := Option.map_eq_some_iff.mp hread
  have hparse : parse sharingSource = .ok document := toOption_eq_some_iff.mp hdocument
  refine ⟨hmark, document, hparse, hspans, fun element hmem => ?_⟩
  obtain ⟨texts, places, htagged, hplaces, -⟩ := attributes_span_of_parse hmark hparse hmem
  exact ⟨texts, places, htagged, hplaces⟩

/-- The name of the second attribute is found in the first value, where it is not written. -/
theorem not_writtenAt_span :
    ∃ document second, parse "<r a=\"xb\" b=\"1\"/>" = .ok document ∧
      second ∈ document.root.attributes ∧
      ¬second.WrittenAt "<r a=\"xb\" b=\"1\"/>".toList second.span := by
  have hread : (parse "<r a=\"xb\" b=\"1\"/>").toOption.map (fun document => document.root.attributes) =
      some [⟨"a", "xb", ⟨3, 4⟩⟩, ⟨"b", "1", ⟨7, 8⟩⟩] := by
    decide +kernel
  obtain ⟨document, hdocument, hattributes⟩ := Option.map_eq_some_iff.mp hread
  refine ⟨document, ⟨"b", "1", ⟨7, 8⟩⟩, toOption_eq_some_iff.mp hdocument, by simp [hattributes], ?_⟩
  rintro ⟨text, before, after, hsource, hspan, hkey, -⟩
  have hparts : "<r a=\"x".toList ++ "b\" b=\"1\"/>".toList = before ++ (text.body ++ after) := by
    rw [← hsource]
    decide
  have hsize : Utf8.size "<r a=\"x".toList = Utf8.size before := congrArg Span.start hspan
  obtain ⟨middle, rfl, hrest⟩ := Utf8.exists_append_of_size_le hparts (Nat.le_of_eq hsize)
  have hnil : middle = [] := by
    rw [Utf8.size_append] at hsize
    exact Utf8.eq_nil_of_size (by omega)
  -- After the name comes a quote, which is neither a separator nor an equals sign.
  rw [hnil, List.nil_append, AttributeText.body, hkey, AttributeText.setting] at hrest
  cases hblanks : text.beforeEquals with
  | nil =>
    rw [hblanks] at hrest
    exact absurd hrest (by simp)
  | cons c more =>
    have hc : isSeparator c = true := text.isGap_beforeEquals c (by simp [hblanks])
    rw [hblanks] at hrest
    have hquote : '"' = c := by
      have hsecond := congrArg (·[1]?) hrest
      simpa using hsecond
    subst hquote
    exact absurd hc (by decide)

end CompatChanges.Xml
