import CompatChanges.Proofs.Escape
import CompatChanges.Proofs.Event
import CompatChanges.Xml.Layout

/-!
# Written tags

A tag whose names are ordinary ends at the `>` that was written last, and is read as the name and the
attributes that it was written for. So is any tag whose names cannot be mistaken: ordinary names are
more than is needed.
-/

namespace CompatChanges.Xml

open Text

def isNameChar (c : Char) : Bool :=
  !(isSeparator c || isQuote c || c = '<' || c = '>' || c = '/' || c = '=')

def IsName (name : String) : Prop := name.toList ≠ [] ∧ name.toList.all isNameChar = true

instance (name : String) : Decidable (IsName name) := inferInstanceAs (Decidable (_ ∧ _))

/-- Ordinary names for a tag. One that begins with a mark would make the tag some other markup. -/
structure NamesTag (name : String) (attributes : List Attribute) : Prop where
  isName : IsName name
  unmarked : name.toList.head? ≠ some '!' ∧ name.toList.head? ≠ some '?'
  attributeNames : ∀ a ∈ attributes, IsName a.name
  distinct : (attributes.map Attribute.name).Nodup

theorem namesTag_iff (name : String) (attributes : List Attribute) :
    NamesTag name attributes ↔
      IsName name ∧ (name.toList.head? ≠ some '!' ∧ name.toList.head? ≠ some '?') ∧
        (∀ a ∈ attributes, IsName a.name) ∧ (attributes.map Attribute.name).Nodup :=
  ⟨fun h => ⟨h.isName, h.unmarked, h.attributeNames, h.distinct⟩,
    fun ⟨hname, hmarks, hattributes, hdistinct⟩ => ⟨hname, hmarks, hattributes, hdistinct⟩⟩

instance (name : String) (attributes : List Attribute) : Decidable (NamesTag name attributes) :=
  decidable_of_iff' _ (namesTag_iff name attributes)

/-- A key is read up to the next `=` or separator, whatever its first character is. -/
def KeyForm (key : List Char) : Prop :=
  ∃ first rest, key = first :: rest ∧ isSeparator first = false ∧
    ∀ c ∈ rest, c ≠ '=' ∧ isSeparator c = false

def Unquoted (chars : List Char) : Prop := ∀ c ∈ chars, isQuote c = false

-- Over the characters of the list: there is an instance that goes through all that exist.
instance (chars : List Char) : Decidable (Unquoted chars) :=
  decidable_of_iff (chars.all (!isQuote ·) = true) (by simp [Unquoted])

/-- A key that is read as it was written, and does not end the tag. -/
structure IsKey (key : List Char) : Prop where
  form : KeyForm key
  unquoted : Unquoted key
  unclosed : '>' ∉ key

/-- A name that is read as it was written in an end tag, and does not end it. -/
structure IsEndName (name : List Char) : Prop where
  ne_nil : name ≠ []
  plain : ∀ c ∈ name, isSeparator c = false
  unquoted : Unquoted name
  unclosed : '>' ∉ name

/-- A name that is read as it was written in any tag. -/
structure IsTagName (name : List Char) : Prop extends IsEndName name where
  head : name.head? ≠ some '!' ∧ name.head? ≠ some '?' ∧ name.head? ≠ some '/'
  last : name.getLast? ≠ some '/'

/-- A tag that is read as it was written. -/
structure LegibleTag (name : String) (attributes : List Attribute) : Prop where
  isTagName : IsTagName name.toList
  isKey : ∀ a ∈ attributes, IsKey a.name.toList
  distinct : (attributes.map Attribute.name).Nodup

variable {name : String} {attributes : List Attribute}

theorem isNameChar_iff (c : Char) :
    isNameChar c = true ↔ isSeparator c = false ∧ isQuote c = false ∧
      c ≠ '<' ∧ c ≠ '>' ∧ c ≠ '/' ∧ c ≠ '=' := by
  simp [isNameChar, and_assoc]

theorem IsName.isNameChar (hname : IsName name) :
    ∀ c ∈ name.toList, isNameChar c = true := List.all_eq_true.mp hname.2

theorem IsName.plain (hname : IsName name) :
    ∀ c ∈ name.toList, c ≠ '=' ∧ isSeparator c = false := by
  intro c hmem
  obtain ⟨hseparator, -, -, -, -, hequals⟩ := (isNameChar_iff c).mp (hname.isNameChar c hmem)
  exact ⟨hequals, hseparator⟩

theorem IsName.unquoted (hname : IsName name) : Unquoted name.toList := fun c hmem =>
  ((isNameChar_iff c).mp (hname.isNameChar c hmem)).2.1

theorem IsName.not_mem (hname : IsName name) :
    '>' ∉ name.toList ∧ '/' ∉ name.toList := by
  constructor
  · intro hmem
    exact absurd rfl ((isNameChar_iff _).mp (hname.isNameChar _ hmem)).2.2.2.1
  · intro hmem
    exact absurd rfl ((isNameChar_iff _).mp (hname.isNameChar _ hmem)).2.2.2.2.1

theorem IsName.isKey (hname : IsName name) : IsKey name.toList where
  form := by
    obtain ⟨first, rest, hlist⟩ := List.exists_cons_of_ne_nil hname.1
    have hplain := hname.plain
    rw [hlist] at hplain
    obtain ⟨hfirst, hrest⟩ := List.forall_mem_cons.mp hplain
    exact ⟨first, rest, hlist, hfirst.2, hrest⟩
  unquoted := hname.unquoted
  unclosed := hname.not_mem.1

theorem IsName.isEndName (hname : IsName name) : IsEndName name.toList where
  ne_nil := hname.1
  plain := fun c hmem => (hname.plain c hmem).2
  unquoted := hname.unquoted
  unclosed := hname.not_mem.1

theorem IsName.isTagName (hname : IsName name)
    (hmarks : name.toList.head? ≠ some '!' ∧ name.toList.head? ≠ some '?') :
    IsTagName name.toList where
  toIsEndName := hname.isEndName
  head := ⟨hmarks.1, hmarks.2, fun hhead => hname.not_mem.2 (List.mem_of_mem_head? hhead)⟩
  last := fun hlast => hname.not_mem.2 (List.mem_of_getLast? hlast)

theorem NamesTag.legible (hnames : NamesTag name attributes) : LegibleTag name attributes where
  isTagName := hnames.isName.isTagName hnames.unmarked
  isKey := fun a hmem => (hnames.attributeNames a hmem).isKey
  distinct := hnames.distinct

/-! ## Attributes -/

theorem attributesFrom_inKey {chars : List Char}
    (hchars : ∀ c ∈ chars, c ≠ '=' ∧ isSeparator c = false) (distinct : Bool)
    (earlier : List PlacedKey) (start offset : Nat) (seen rest : List Char) :
    attributesFrom distinct earlier (.inKey start seen) offset (chars ++ rest) =
      attributesFrom distinct earlier (.inKey start (chars.reverse ++ seen))
        (offset + Utf8.size chars) rest := by
  induction chars generalizing offset seen with
  | nil => simp
  | cons c chars ih =>
    obtain ⟨⟨hequals, hseparator⟩, hrest⟩ := List.forall_mem_cons.mp hchars
    rw [List.cons_append, attributesFrom]
    simp only [AttributeStage.step, hequals, hseparator, if_false, Bool.false_eq_true]
    rw [ih hrest, Utf8.size_cons, Nat.add_assoc, List.reverse_cons, List.append_assoc,
      List.singleton_append]

theorem attributesFrom_inValue {value : List Char} {quote : Char} (hvalue : ∀ c ∈ value, c ≠ quote)
    (distinct : Bool) (earlier : List PlacedKey) (key : PlacedKey) (offset : Nat)
    (seen rest : List Char) :
    attributesFrom distinct earlier (.inValue key quote seen) offset (value ++ quote :: rest) =
      .ok ⟨key.key, seen.reverse ++ value⟩ ::
        attributesFrom distinct earlier .beforeKey (offset + Utf8.size value + quote.utf8Size) rest := by
  induction value generalizing offset seen with
  | nil => simp [attributesFrom, AttributeStage.step]
  | cons c value ih =>
    obtain ⟨hc, hrest⟩ := List.forall_mem_cons.mp hvalue
    rw [List.cons_append, attributesFrom]
    simp only [AttributeStage.step, hc, if_false]
    rw [ih hrest, Utf8.size_cons, Nat.add_assoc, List.reverse_cons, List.append_assoc,
      List.singleton_append]
    simp only [Nat.add_assoc]

theorem duplicateOf?_eq_none {earlier : List PlacedKey} {key : PlacedKey}
    (hfresh : ∀ other ∈ earlier, other.key ≠ key.key) : duplicateOf? earlier key = none := by
  unfold duplicateOf?
  rw [Option.map_eq_none_iff, List.find?_eq_none]
  intro other hmem
  simpa using hfresh other hmem

/-- A new key is read once its `=` has come. -/
theorem attributesFrom_key {key : List Char} (hform : KeyForm key) (distinct : Bool)
    {earlier : List PlacedKey} (hfresh : ∀ other ∈ earlier, other.key ≠ key) (offset : Nat)
    (rest : List Char) :
    attributesFrom distinct earlier .beforeKey offset (' ' :: key ++ '=' :: rest) =
      attributesFrom distinct (⟨key, offset + 1⟩ :: earlier)
        (.beforeValue ⟨key, offset + 1⟩) (offset + Utf8.size (' ' :: key ++ ['='])) rest := by
  obtain ⟨first, others, rfl, hfirst, hothers⟩ := hform
  have hkey : duplicateOf? earlier ⟨first :: others, offset + 1⟩ = none := duplicateOf?_eq_none hfresh
  have hsize : offset + Utf8.size (' ' :: (first :: others) ++ ['=']) =
      offset + 1 + first.utf8Size + Utf8.size others + '='.utf8Size := by
    have hspace : ' '.utf8Size = 1 := rfl
    simp only [hspace, Utf8.size_append, Utf8.size_cons, Utf8.size_nil]
    omega
  rw [hsize]
  rw [List.cons_append, List.cons_append, attributesFrom]
  simp only [AttributeStage.step, show isSeparator ' ' = true from rfl, if_true]
  rw [attributesFrom]
  simp only [AttributeStage.step, hfirst, Bool.false_eq_true, if_false]
  rw [attributesFrom_inKey hothers, attributesFrom]
  have hseen : (others.reverse ++ [first]).reverse = first :: others := by simp
  have hspace : offset + ' '.utf8Size = offset + 1 := rfl
  simp only [AttributeStage.step, if_true, hseen, hspace, hkey, ite_self]

theorem attributesFrom_value {value : List Char} (hvalue : ∀ c ∈ value, c ≠ '"') (distinct : Bool)
    (earlier : List PlacedKey) (key : PlacedKey) (offset : Nat) (rest : List Char) :
    attributesFrom distinct earlier (.beforeValue key) offset ('"' :: value ++ '"' :: rest) =
      .ok ⟨key.key, value⟩ ::
        attributesFrom distinct earlier .beforeKey (offset + Utf8.size ('"' :: value ++ ['"']))
          rest := by
  have hsize : offset + Utf8.size ('"' :: value ++ ['"']) =
      offset + '"'.utf8Size + Utf8.size value + '"'.utf8Size := by
    simp only [Utf8.size_append, Utf8.size_cons, Utf8.size_nil]
    omega
  rw [List.cons_append, attributesFrom]
  simp only [AttributeStage.step, show isSeparator '"' = false from rfl, Bool.false_eq_true, if_false,
    show isQuote '"' = true from rfl, if_true]
  rw [attributesFrom_inValue hvalue, List.reverse_nil, List.nil_append, hsize]

/-- A written attribute is read as it stands, whatever comes after it. -/
theorem attributesFrom_source {a : Attribute} (hform : KeyForm a.name.toList) (distinct : Bool)
    {earlier : List PlacedKey} (hfresh : ∀ other ∈ earlier, other.key ≠ a.name.toList)
    (offset : Nat) (rest : List Char) :
    attributesFrom distinct earlier .beforeKey offset (a.source ++ rest) =
      .ok ⟨a.name.toList, escapeValue a.value.toList⟩ ::
        attributesFrom distinct (⟨a.name.toList, offset + 1⟩ :: earlier) .beforeKey
          (offset + Utf8.size a.source) rest := by
  have hvalue : ∀ c ∈ escapeValue a.value.toList, c ≠ '"' := fun c hmem =>
    (ne_of_mem_escapeValue hmem).2.2
  have hsource : a.source = (' ' :: a.name.toList ++ ['=']) ++
      ('"' :: escapeValue a.value.toList ++ ['"']) := by
    simp [Attribute.source]
  have hsize : offset + Utf8.size a.source = offset + Utf8.size (' ' :: a.name.toList ++ ['=']) +
      Utf8.size ('"' :: escapeValue a.value.toList ++ ['"']) := by
    rw [hsource, Utf8.size_append, Nat.add_assoc]
  have hrest : a.source ++ rest = ' ' :: a.name.toList ++
      '=' :: ('"' :: escapeValue a.value.toList ++ '"' :: rest) := by
    simp [Attribute.source]
  rw [hrest, hsize, attributesFrom_key hform distinct hfresh, attributesFrom_value hvalue]

theorem attributesFrom_sources {attributes : List Attribute}
    (hforms : ∀ a ∈ attributes, KeyForm a.name.toList)
    (hdistinct : (attributes.map Attribute.name).Nodup) {earlier : List PlacedKey}
    (hfresh : ∀ a ∈ attributes, ∀ other ∈ earlier, other.key ≠ a.name.toList) (offset : Nat) :
    attributesFrom true earlier .beforeKey offset (attributes.flatMap Attribute.source) =
      attributes.map fun a => .ok ⟨a.name.toList, escapeValue a.value.toList⟩ := by
  -- The keys met so far grow; as the names are distinct, each later one is still new.
  induction attributes generalizing earlier offset with
  | nil => rfl
  | cons a rest ih =>
    rw [List.map_cons, List.nodup_cons] at hdistinct
    obtain ⟨ha, hforms⟩ := List.forall_mem_cons.mp hforms
    obtain ⟨hself, hfresh⟩ := List.forall_mem_cons.mp hfresh
    have hrest : ∀ b ∈ rest, ∀ other ∈ (⟨a.name.toList, offset + 1⟩ : PlacedKey) :: earlier,
        other.key ≠ b.name.toList := by
      intro b hmem other hother
      rcases List.mem_cons.mp hother with rfl | hearlier
      · intro hsame
        exact hdistinct.1 (List.mem_map.mpr ⟨b, hmem, (String.toList_inj.mp hsame).symm⟩)
      · exact hfresh b hmem other hearlier
    rw [List.flatMap_cons, attributesFrom_source ha true hself, ih hforms hdistinct.2 hrest,
      List.map_cons]

theorem tagName_tagSource (hname : IsTagName name.toList) (attributes : List Attribute) :
    tagName (tagSource name attributes) = name.toList := by
  have hplain : ∀ c ∈ name.toList, (!isSeparator c) = true := by
    intro c hmem
    simp [hname.plain c hmem]
  unfold tagName tagSource
  rw [List.takeWhile_append_of_pos hplain]
  cases attributes with
  | nil => simp
  | cons a rest => simp [Attribute.source, isSeparator]

theorem rawAttributes_tagSource (hlegible : LegibleTag name attributes) :
    rawAttributes true (tagSource name attributes) =
      attributes.map fun a => .ok ⟨a.name.toList, escapeValue a.value.toList⟩ := by
  unfold rawAttributes
  rw [tagName_tagSource hlegible.isTagName]
  unfold tagSource
  dsimp only
  rw [List.drop_left]
  exact attributesFrom_sources (fun a hmem => (hlegible.isKey a hmem).form) hlegible.distinct
    (by simp) _

/-! ## Where a tag ends -/

theorem foldl_quoteAfter_of_none {chars : List Char} (hchars : Unquoted chars) :
    chars.foldl quoteAfter none = none := by
  induction chars with
  | nil => rfl
  | cons c rest ih =>
    obtain ⟨hc, hrest⟩ := List.forall_mem_cons.mp hchars
    simp [quoteAfter, hc, ih hrest]

theorem foldl_quoteAfter_of_some {chars : List Char} {quote : Char} (hchars : ∀ c ∈ chars, c ≠ quote) :
    chars.foldl quoteAfter (some quote) = some quote := by
  induction chars with
  | nil => rfl
  | cons c rest ih =>
    obtain ⟨hc, hrest⟩ := List.forall_mem_cons.mp hchars
    simp [quoteAfter, hc, ih hrest]

theorem foldl_quoteAfter_source {a : Attribute} (hname : Unquoted a.name.toList) :
    a.source.foldl quoteAfter none = none := by
  have hvalue : (escapeValue a.value.toList).foldl quoteAfter (some '"') = some '"' :=
    foldl_quoteAfter_of_some fun c hmem => (ne_of_mem_escapeValue hmem).2.2
  unfold Attribute.source
  simp only [List.foldl_append, List.foldl_cons, List.foldl_nil]
  rw [show quoteAfter none ' ' = none from rfl, foldl_quoteAfter_of_none hname,
    show quoteAfter none '=' = none from rfl, show quoteAfter none '"' = some '"' from rfl, hvalue]
  rfl

theorem foldl_quoteAfter_sources (hattributes : ∀ a ∈ attributes, Unquoted a.name.toList) :
    (attributes.flatMap Attribute.source).foldl quoteAfter none = none := by
  induction attributes with
  | nil => rfl
  | cons a rest ih =>
    obtain ⟨ha, hrest⟩ := List.forall_mem_cons.mp hattributes
    rw [List.flatMap_cons, List.foldl_append, foldl_quoteAfter_source ha]
    exact ih hrest

/-- Every quote that a written tag opens is closed in it. -/
theorem foldl_quoteAfter_tagSource (hlegible : LegibleTag name attributes) :
    (tagSource name attributes).foldl quoteAfter none = none := by
  unfold tagSource
  rw [List.foldl_append, foldl_quoteAfter_of_none hlegible.isTagName.unquoted]
  exact foldl_quoteAfter_sources fun a hmem => (hlegible.isKey a hmem).unquoted

theorem IsTagName.exists_cons {name : List Char} (hname : IsTagName name) :
    ∃ first others, name = first :: others ∧ first ≠ '!' ∧ first ≠ '?' ∧ first ≠ '/' := by
  obtain ⟨first, others, rfl⟩ := List.exists_cons_of_ne_nil hname.ne_nil
  exact ⟨first, others, rfl, by simpa using hname.head⟩

theorem not_mem_source {a : Attribute} (hname : '>' ∉ a.name.toList) : '>' ∉ a.source := by
  have hvalue : '>' ∉ escapeValue a.value.toList := fun hmem => (ne_of_mem_escapeValue hmem).2.1 rfl
  simp [Attribute.source, hname, hvalue]

theorem not_mem_tagSource (hlegible : LegibleTag name attributes) :
    '>' ∉ tagSource name attributes := by
  unfold tagSource
  rw [List.mem_append, List.mem_flatMap, not_or]
  refine ⟨hlegible.isTagName.unclosed, ?_⟩
  rintro ⟨a, hmem, hsource⟩
  exact not_mem_source (hlegible.isKey a hmem).unclosed hsource

/-- A written tag ends in a quote or in a character of its name, never in the slash of an empty one. -/
theorem not_isSuffixOf_tagSource (hname : IsTagName name.toList) :
    ['/'].isSuffixOf (tagSource name attributes) = false := by
  rw [← Bool.not_eq_true, List.isSuffixOf_iff_suffix]
  intro hsuffix
  rcases List.eq_nil_or_concat attributes with rfl | ⟨init, a, rfl⟩
  · rw [tagSource, List.flatMap_nil, List.append_nil] at hsuffix
    obtain ⟨front, hfront⟩ := hsuffix
    exact hname.last (by simp [← hfront])
  · obtain ⟨front, hfront⟩ := hsuffix
    have hquote : tagSource name (init.concat a) = (name.toList ++ init.flatMap Attribute.source ++
        (' ' :: a.name.toList ++ '=' :: '"' :: escapeValue a.value.toList)) ++ ['"'] := by
      simp [tagSource, Attribute.source]
    rw [hquote] at hfront
    have hlast := (List.append_inj' hfront rfl).2
    simp at hlast

theorem MarkupKind.of?_tagSource (hname : IsTagName name.toList) (attributes : List Attribute)
    (after : List Char) : MarkupKind.of? (tagSource name attributes ++ after) = some .tag := by
  obtain ⟨first, others, hlist, hbang, hquestion, -⟩ := hname.exists_cons
  simp [tagSource, hlist, MarkupKind.of?, hbang, hquestion]

theorem endTagName_name (hname : IsEndName name.toList) :
    endTagName name.toList = name.toList := by
  have hplain : ∀ c ∈ name.toList.reverse, isSeparator c ≠ true := by
    intro c hmem
    simp [hname.plain c (List.mem_reverse.mp hmem)]
  have hdrop : name.toList.reverse.dropWhile isSeparator = name.toList.reverse := by
    cases hreverse : name.toList.reverse with
    | nil => rfl
    | cons c rest =>
      rw [hreverse] at hplain
      exact List.dropWhile_cons_of_neg (hplain c (by simp))
  unfold endTagName dropTrailing
  rw [hdrop, List.reverse_reverse]
  exact if_neg (by simpa using hname.ne_nil)

/-! ## What a tag means -/

theorem tagItem_of_ne_slash {first : Char} (hslash : first ≠ '/') (rest : List Char) :
    tagItem (first :: rest) =
      if ['/'].isSuffixOf (first :: rest) then .emptyTag (first :: rest).dropLast
      else .startTag (first :: rest) := by
  unfold tagItem
  split
  · next name heq => exact absurd (List.cons.inj heq).1 hslash
  · rfl

/-- A tag that begins with a name is a start tag, or an empty one if it ends in a slash. -/
theorem markupItem_tagSource (hname : IsTagName name.toList) (attributes : List Attribute)
    (after : List Char) :
    markupItem (tagSource name attributes ++ after) =
      .ok (if ['/'].isSuffixOf (tagSource name attributes ++ after)
        then .emptyTag (tagSource name attributes ++ after).dropLast
        else .startTag (tagSource name attributes ++ after)) := by
  have hkind := MarkupKind.of?_tagSource hname attributes after
  obtain ⟨first, others, hlist, -, -, hslash⟩ := hname.exists_cons
  have hcons : tagSource name attributes ++ after =
      first :: (others ++ attributes.flatMap Attribute.source ++ after) := by
    simp [tagSource, hlist]
  unfold markupItem
  rw [hkind, hcons]
  exact congrArg _ (tagItem_of_ne_slash hslash _)

theorem markupItem_startTag (hname : IsTagName name.toList) (attributes : List Attribute) :
    markupItem (tagSource name attributes) = .ok (.startTag (tagSource name attributes)) := by
  have hitem := markupItem_tagSource hname attributes []
  rw [List.append_nil, not_isSuffixOf_tagSource hname] at hitem
  exact hitem

theorem markupItem_emptyTag (hname : IsTagName name.toList) (attributes : List Attribute) :
    markupItem (tagSource name attributes ++ ['/']) = .ok (.emptyTag (tagSource name attributes)) := by
  have hsuffix : ['/'].isSuffixOf (tagSource name attributes ++ ['/']) = true :=
    List.isSuffixOf_iff_suffix.mpr (List.suffix_append _ _)
  rw [markupItem_tagSource hname, if_pos hsuffix, List.dropLast_concat]

theorem markupItem_endTag (hname : IsEndName name.toList) :
    markupItem ('/' :: name.toList) = .ok (.endTag name.toList) := by
  change Except.ok (Item.endTag (endTagName name.toList)) = _
  rw [endTagName_name hname]

theorem bareAttributes?_tagSource (hlegible : LegibleTag name attributes) :
    bareAttributes? (rawAttributes true (tagSource name attributes)) =
      some (attributes.map Attribute.bare) := by
  rw [rawAttributes_tagSource hlegible]
  clear hlegible
  induction attributes with
  | nil => rfl
  | cons a rest ih =>
    rw [List.map_cons, bareAttributes?]
    simp only [unescape_escapeValue, ih, Option.map_some, List.map_cons, Attribute.bare,
      String.ofList_toList]

end CompatChanges.Xml
