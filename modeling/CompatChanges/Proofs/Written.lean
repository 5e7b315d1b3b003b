import CompatChanges.Proofs.Tag

/-!
# Written tokens

Tags and texts that are written one after the other are read back as events. Texts with nothing
between them come back as one, and a text without characters does not come back.
-/

namespace CompatChanges.Xml

open Text

def Token.Named : Token → Prop
  | .startTag name attributes => NamesTag name attributes
  | .emptyTag name attributes => NamesTag name attributes
  | .endTag name => IsName name
  | .text _ => True

/-- A token that is read as it was written. -/
def Token.Legible : Token → Prop
  | .startTag name attributes => LegibleTag name attributes
  | .emptyTag name attributes => LegibleTag name attributes
  | .endTag name => IsEndName name.toList
  | .text _ => True

/-- What a tag has between `<` and `>`. -/
def Token.markup? : Token → Option (List Char)
  | .startTag name attributes => some (tagSource name attributes)
  | .emptyTag name attributes => some (tagSource name attributes ++ ['/'])
  | .endTag name => some ('/' :: name.toList)
  | .text _ => none

theorem eq_text_of_markup?_eq_none {token : Token} (hmarkup : token.markup? = none) :
    ∃ string, token = .text string := by
  cases token with
  | startTag name attributes => cases hmarkup
  | emptyTag name attributes => cases hmarkup
  | endTag name => cases hmarkup
  | text string => exact ⟨string, rfl⟩

def Token.tagEvents : Token → List Event
  | .startTag name attributes => [.start name (attributes.map Attribute.bare)]
  | .emptyTag name attributes => [.start name (attributes.map Attribute.bare), .stop name]
  | .endTag name => [.stop name]
  | .text _ => []

def textEvents (text : String) : List Event := if text = "" then [] else [.text text]

/-- The events of tokens that come right after `text`. -/
def eventsFrom (text : String) : List Token → List Event
  | [] => textEvents text
  | token :: rest =>
    match token with
    | .text string => eventsFrom (text ++ string) rest
    | tag => textEvents text ++ (tag.tagEvents ++ eventsFrom "" rest)

theorem eventsFrom_tag {token : Token} {content : List Char} (hmarkup : token.markup? = some content)
    (text : String) (rest : List Token) :
    eventsFrom text (token :: rest) =
      textEvents text ++ (token.tagEvents ++ eventsFrom "" rest) := by
  cases token with
  | startTag name attributes => rfl
  | emptyTag name attributes => rfl
  | endTag name => rfl
  | text string => cases hmarkup

theorem source_of_markup {token : Token} {content : List Char} (hmarkup : token.markup? = some content) :
    token.source = '<' :: content ++ ['>'] := by
  cases token with
  | startTag name attributes =>
    cases hmarkup
    rfl
  | emptyTag name attributes =>
    cases hmarkup
    simp [Token.source]
  | endTag name =>
    cases hmarkup
    rfl
  | text string => cases hmarkup

/-- A legible tag ends where it is meant to end. -/
theorem closes_of_markup {token : Token} (hlegible : token.Legible) {content : List Char}
    (hmarkup : token.markup? = some content) : closes content = true ∧ '>' ∉ content := by
  cases token with
  | startTag name attributes =>
    cases hmarkup
    have htag : LegibleTag name attributes := hlegible
    have hkind := MarkupKind.of?_tagSource htag.isTagName attributes []
    rw [List.append_nil] at hkind
    refine ⟨?_, not_mem_tagSource htag⟩
    simp [closes, hkind, quotesClosed, foldl_quoteAfter_tagSource htag]
  | emptyTag name attributes =>
    cases hmarkup
    have htag : LegibleTag name attributes := hlegible
    have hkind := MarkupKind.of?_tagSource htag.isTagName attributes ['/']
    refine ⟨?_, by simp [not_mem_tagSource htag]⟩
    simp [closes, hkind, quotesClosed, foldl_quoteAfter_tagSource htag, quoteAfter, isQuote]
  | endTag name =>
    cases hmarkup
    have hname : IsEndName name.toList := hlegible
    refine ⟨?_, by simp [hname.unclosed]⟩
    simp [closes, MarkupKind.of?, quotesClosed, quoteAfter, isQuote,
      foldl_quoteAfter_of_none hname.unquoted]
  | text string => cases hmarkup

theorem events?_of_markup {token : Token} (hlegible : token.Legible) {content : List Char}
    (hmarkup : token.markup? = some content) :
    (Piece.markup content).events? = some token.tagEvents := by
  unfold Piece.events?
  cases token with
  | startTag name attributes =>
    cases hmarkup
    have htag : LegibleTag name attributes := hlegible
    rw [show (Piece.markup _).item = markupItem _ from rfl, markupItem_startTag htag.isTagName]
    simp [Except.toOption, Item.events?, bareAttributes?_tagSource htag,
      tagName_tagSource htag.isTagName, Token.tagEvents]
  | emptyTag name attributes =>
    cases hmarkup
    have htag : LegibleTag name attributes := hlegible
    rw [show (Piece.markup _).item = markupItem _ from rfl, markupItem_emptyTag htag.isTagName]
    simp [Except.toOption, Item.events?, bareAttributes?_tagSource htag,
      tagName_tagSource htag.isTagName, Token.tagEvents]
  | endTag name =>
    cases hmarkup
    rw [show (Piece.markup _).item = markupItem _ from rfl, markupItem_endTag hlegible]
    simp [Except.toOption, Item.events?, Token.tagEvents]
  | text string => cases hmarkup

/-! ## Pieces -/

theorem piecesFrom_text {chars : List Char} (hchars : ∀ c ∈ chars, c ≠ '<') (seen rest : List Char) :
    piecesFrom (.text seen) (chars ++ rest) = piecesFrom (.text (chars.reverse ++ seen)) rest := by
  induction chars generalizing seen with
  | nil => rfl
  | cons c chars ih =>
    obtain ⟨hc, hrest⟩ := List.forall_mem_cons.mp hchars
    rw [List.cons_append, piecesFrom, if_neg hc, ih hrest, List.reverse_cons,
      List.append_assoc, List.singleton_append]

/-- Markup goes on to the first `>` that ends it. -/
theorem piecesFrom_markup (markup : OpenMarkup) {content : List Char}
    (hopen : ∀ front back, content = front ++ '>' :: back → closes (markup.content ++ front) = false)
    (hcloses : closes (markup.content ++ content) = true) (rest : List Char) :
    piecesFrom (.markup markup) (content ++ '>' :: rest) =
      .markup (markup.content ++ content) :: piecesFrom (.text []) rest := by
  induction content generalizing markup with
  | nil =>
    rw [List.append_nil] at hcloses ⊢
    rw [List.nil_append, piecesFrom, if_pos (by simp [markup.ends_eq_closes, hcloses])]
  | cons c content ih =>
    have hpush (chars : List Char) :
        (markup.push c).content ++ chars = markup.content ++ c :: chars := by
      simp [OpenMarkup.content]
    have hgoes : ¬(c = '>' && markup.ends) = true := by
      rw [Bool.and_eq_true, markup.ends_eq_closes, decide_eq_true_eq]
      rintro ⟨rfl, hends⟩
      have hfirst := hopen [] content rfl
      rw [List.append_nil, hends] at hfirst
      cases hfirst
    have hopenNext : ∀ front back, content = front ++ '>' :: back →
        closes ((markup.push c).content ++ front) = false := by
      intro front back hsplit
      rw [hpush]
      exact hopen (c :: front) back (by rw [hsplit]; rfl)
    rw [List.cons_append, piecesFrom, if_neg hgoes,
      ih (markup.push c) hopenNext (by rwa [hpush]), hpush]

theorem piecesFrom_markup_of_not_mem (markup : OpenMarkup) {content : List Char}
    (hchars : '>' ∉ content) (hcloses : closes (markup.content ++ content) = true)
    (rest : List Char) :
    piecesFrom (.markup markup) (content ++ '>' :: rest) =
      .markup (markup.content ++ content) :: piecesFrom (.text []) rest := by
  apply piecesFrom_markup markup _ hcloses
  intro front back hsplit
  exact absurd (by simp [hsplit]) hchars

theorem eventsOf?_textPiece {seen : List Char} {text : String}
    (hseen : seen.reverse = escapeText text.toList) :
    eventsOf? (textPiece seen) = some (textEvents text) := by
  unfold textPiece textEvents
  by_cases hempty : text = ""
  · subst hempty
    rw [show escapeText "".toList = [] from rfl, List.reverse_eq_nil_iff] at hseen
    subst hseen
    rfl
  · have hne : ¬seen.isEmpty = true := by
      intro hnil
      rw [List.isEmpty_iff.mp hnil, List.reverse_nil] at hseen
      have hchars := escapeText_eq_nil_iff.mp hseen.symm
      exact hempty (String.toList_eq_nil_iff.mp hchars)
    rw [if_neg hne, if_neg hempty, hseen]
    simp [eventsOf?, Piece.events?, Piece.item, Item.events?, Except.toOption]

/-- Written tokens are read back as their events. -/
theorem eventsOf?_tokens {tokens : List Token} (hlegible : ∀ token ∈ tokens, token.Legible)
    {text : String} {seen : List Char} (hseen : seen.reverse = escapeText text.toList) :
    eventsOf? (piecesFrom (.text seen) (tokens.flatMap Token.source)) =
      some (eventsFrom text tokens) := by
  induction tokens generalizing text seen with
  | nil => exact eventsOf?_textPiece hseen
  | cons token rest ih =>
    obtain ⟨htoken, hrest⟩ := List.forall_mem_cons.mp hlegible
    rw [List.flatMap_cons]
    cases hmarkup : token.markup? with
    | none =>
      obtain ⟨string, rfl⟩ := eq_text_of_markup?_eq_none hmarkup
      have hchars : ∀ c ∈ escapeText string.toList, c ≠ '<' := fun c hmem =>
        (ne_of_mem_escapeText hmem).1
      rw [Token.source, piecesFrom_text hchars]
      exact ih hrest (by simp [hseen])
    | some content =>
      obtain ⟨hcloses, hchars⟩ := closes_of_markup htoken hmarkup
      have hmarkupPiece : piecesFrom (.markup .empty) (content ++ '>' :: rest.flatMap Token.source) =
          .markup content :: piecesFrom (.text []) (rest.flatMap Token.source) :=
        piecesFrom_markup_of_not_mem .empty hchars hcloses _
      have hafter : eventsOf? (piecesFrom (.text []) (rest.flatMap Token.source)) =
          some (eventsFrom "" rest) := ih hrest rfl
      rw [source_of_markup hmarkup, List.append_assoc, List.singleton_append, List.cons_append,
        piecesFrom, if_pos rfl, hmarkupPiece, eventsOf?_append, eventsOf?_textPiece hseen, eventsOf?,
        events?_of_markup htoken hmarkup, hafter, eventsFrom_tag hmarkup]
      rfl

/-- The declaration says nothing to the document, and its first character is no byte order mark. -/
theorem eventsOf?_legible {tokens : List Token} (hlegible : ∀ token ∈ tokens, token.Legible) :
    eventsOf? (pieces (dropMark (declarationSource ++ tokens.flatMap Token.source))) =
      some (eventsFrom "" tokens) := by
  let content : List Char := "?xml version=\"1.0\" encoding=\"utf-8\"?".toList
  have hsource : dropMark (declarationSource ++ tokens.flatMap Token.source) =
      '<' :: (content ++ '>' :: tokens.flatMap Token.source) := rfl
  have hdeclaration : piecesFrom (.markup .empty) (content ++ '>' :: tokens.flatMap Token.source) =
      .markup content :: piecesFrom (.text []) (tokens.flatMap Token.source) :=
    piecesFrom_markup_of_not_mem .empty (by decide +kernel) (by decide +kernel) _
  have hsilent : (Piece.markup content).events? = some [] := by decide +kernel
  have hafter : eventsOf? (piecesFrom (.text []) (tokens.flatMap Token.source)) =
      some (eventsFrom "" tokens) := eventsOf?_tokens hlegible rfl
  unfold pieces
  rw [hsource, piecesFrom, if_pos rfl, hdeclaration]
  change eventsOf? (.markup content :: _) = _
  rw [eventsOf?, hsilent, hafter]
  rfl

theorem Token.Named.legible {token : Token} (hnamed : token.Named) : token.Legible := by
  cases token with
  | startTag name attributes => exact NamesTag.legible hnamed
  | emptyTag name attributes => exact NamesTag.legible hnamed
  | endTag name => exact IsName.isEndName hnamed
  | text string => trivial

theorem eventsOf?_document {tokens : List Token} (hnamed : ∀ token ∈ tokens, token.Named) :
    eventsOf? (pieces (dropMark (declarationSource ++ tokens.flatMap Token.source))) =
      some (eventsFrom "" tokens) :=
  eventsOf?_legible fun token hmem => (hnamed token hmem).legible

end CompatChanges.Xml
