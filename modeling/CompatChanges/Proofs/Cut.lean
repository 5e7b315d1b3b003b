import CompatChanges.Proofs.Spelling
import CompatChanges.Proofs.Written
import Mathlib.Data.List.Chain

/-!
# Where a source is cut

Pieces that can have been cut from a source are cut again from the text that they are together. Any
stretch of the pieces of a source is therefore cut in the same way when it stands alone.
-/

namespace CompatChanges.Xml

open Text

def Piece.isText : Piece → Bool
  | .text _ => true
  | .markup _ | .unclosed _ => false

/-- A piece that goes as far as it has to and no further. -/
def Piece.IsWhole : Piece → Prop
  | .text chars => chars ≠ [] ∧ '<' ∉ chars
  | .markup content => EndsFirst content
  | .unclosed _ => False

structure WellCut (pieces : List Piece) : Prop where
  whole : ∀ piece ∈ pieces, piece.IsWhole
  apart : pieces.IsChain fun left right => left.isText = true → right.isText = false

theorem WellCut.stretch {part whole : List Piece} (hcut : WellCut whole) (hpart : part <:+: whole) :
    WellCut part where
  whole piece hmem := hcut.whole piece (hpart.subset hmem)
  apart := List.IsChain.infix hcut.apart hpart

/-! ### Cutting again -/

theorem piecesFrom_source_of_wellCut {pieces : List Piece} (hcut : WellCut pieces)
    {seen : List Char} (hseen : ∀ first ∈ pieces.head?, first.isText = true → seen = []) :
    piecesFrom (.text seen) (pieces.flatMap Piece.source) = textPiece seen ++ pieces := by
  -- A text before the pieces would be one with a text at their beginning.
  induction pieces generalizing seen with
  | nil => rw [List.append_nil, List.flatMap_nil, piecesFrom]
  | cons piece rest ih =>
    obtain ⟨happart, hchain⟩ := List.isChain_cons.mp hcut.apart
    obtain ⟨hpiece, hwhole⟩ := List.forall_mem_cons.mp hcut.whole
    have hrest : WellCut rest := ⟨hwhole, hchain⟩
    rw [List.flatMap_cons]
    cases piece with
    | text chars =>
      obtain ⟨hne, hplain⟩ := hpiece
      obtain rfl := hseen (.text chars) rfl rfl
      have hchars : ∀ c ∈ chars, c ≠ '<' := by
        rintro c hmem rfl
        exact hplain hmem
      have hnext : ∀ first ∈ rest.head?, first.isText = true → chars.reverse = [] := by
        intro first hfirst htext
        rw [happart first hfirst rfl] at htext
        cases htext
      have hpieceAgain : textPiece chars.reverse = [.text chars] := by
        simp [textPiece, hne]
      rw [Piece.source, piecesFrom_text hchars, List.append_nil, ih hrest hnext, hpieceAgain]
      rfl
    | markup content =>
      obtain ⟨hcloses, hopen⟩ := hpiece
      have hmarkup := piecesFrom_markup .empty hopen hcloses (rest.flatMap Piece.source)
      have hrestAgain : piecesFrom (.text []) (rest.flatMap Piece.source) = rest :=
        ih hrest fun _ _ _ => rfl
      rw [hrestAgain] at hmarkup
      rw [Piece.source, List.append_assoc, List.singleton_append, List.cons_append, piecesFrom,
        if_pos rfl, hmarkup]
      rfl
    | unclosed content => exact hpiece.elim

theorem WellCut.pieces_source {parts : List Piece} (hcut : WellCut parts) :
    pieces (parts.flatMap Piece.source) = parts :=
  piecesFrom_source_of_wellCut hcut fun _ _ _ => rfl

/-! ### The pieces of a source -/

theorem text_of_mem_piecesFrom {piece : OpenPiece} {source chars : List Char}
    (hopen : ∀ seen, piece = .text seen → '<' ∉ seen)
    (hmem : .text chars ∈ piecesFrom piece source) : chars ≠ [] ∧ '<' ∉ chars := by
  have htext {seen : List Char} (hplain : '<' ∉ seen) (hmem : .text chars ∈ textPiece seen) :
      chars ≠ [] ∧ '<' ∉ chars := by
    unfold textPiece at hmem
    split at hmem
    · cases hmem
    · next hne =>
      cases List.mem_singleton.mp hmem
      rw [List.isEmpty_iff] at hne
      exact ⟨by simpa using hne, by simpa using hplain⟩
  induction source generalizing piece with
  | nil =>
    cases piece with
    | text seen => exact htext (hopen seen rfl) hmem
    | markup markup => simp [piecesFrom] at hmem
  | cons c rest ih =>
    cases piece with
    | text seen =>
      rw [piecesFrom] at hmem
      split at hmem
      · rcases List.mem_append.mp hmem with hseen | hrest
        · exact htext (hopen seen rfl) hseen
        · apply ih _ hrest
          rintro _ ⟨⟩
      · next hc =>
        apply ih _ hmem
        rintro _ ⟨⟩
        exact List.not_mem_cons_of_ne_of_not_mem (Ne.symm hc) (hopen seen rfl)
    | markup markup =>
      rw [piecesFrom] at hmem
      split at hmem
      · rcases List.mem_cons.mp hmem with hself | hrest
        · cases hself
        · apply ih _ hrest
          rintro _ ⟨⟩
          exact List.not_mem_nil
      · apply ih _ hmem
        rintro _ ⟨⟩

theorem isText_head_piecesFrom_markup (markup : OpenMarkup) (source : List Char) :
    ∀ first ∈ (piecesFrom (.markup markup) source).head?, first.isText = false := by
  induction source generalizing markup with
  | nil => simp [piecesFrom, Piece.isText]
  | cons c rest ih =>
    rw [piecesFrom]
    split
    · simp [Piece.isText]
    · exact ih _

theorem isChain_piecesFrom (piece : OpenPiece) (source : List Char) :
    (piecesFrom piece source).IsChain fun left right =>
      left.isText = true → right.isText = false := by
  have htext (seen : List Char) {rest : List Piece}
      (hrest : rest.IsChain fun left right => left.isText = true → right.isText = false)
      (hhead : ∀ first ∈ rest.head?, first.isText = false) :
      (textPiece seen ++ rest).IsChain fun left right =>
        left.isText = true → right.isText = false := by
    unfold textPiece
    split
    · exact hrest
    · exact List.isChain_cons.mpr ⟨fun first hfirst _ => hhead first hfirst, hrest⟩
  induction source generalizing piece with
  | nil =>
    cases piece with
    | text seen =>
      rw [piecesFrom, ← List.append_nil (textPiece seen)]
      apply htext seen .nil
      intro first hfirst
      cases hfirst
    | markup markup => exact .singleton _
  | cons c rest ih =>
    cases piece with
    | text seen =>
      rw [piecesFrom]
      split
      · exact htext seen (ih _) (isText_head_piecesFrom_markup _ rest)
      · exact ih _
    | markup markup =>
      rw [piecesFrom]
      split
      · rw [List.isChain_cons]
        refine ⟨?_, ih _⟩
        intro first _ hmarkup
        cases hmarkup
      · exact ih _

theorem Piece.isWhole_of_mem {piece : Piece} {source : List Char} (hmem : piece ∈ pieces source)
    (hclosed : ∀ content, piece ≠ .unclosed content) : piece.IsWhole := by
  cases piece with
  | text chars =>
    apply text_of_mem_piecesFrom _ hmem
    rintro _ ⟨⟩
    exact List.not_mem_nil
  | markup content =>
    apply endsFirst_of_mem_piecesFrom _ hmem
    rintro _ ⟨⟩
  | unclosed content => exact absurd rfl (hclosed content)

theorem wellCut_pieces {source : List Char} (hclosed : ∀ content, .unclosed content ∉ pieces source) :
    WellCut (pieces source) where
  whole piece hmem := by
    apply Piece.isWhole_of_mem hmem
    rintro content rfl
    exact hclosed content hmem
  apart := isChain_piecesFrom _ source

end CompatChanges.Xml
