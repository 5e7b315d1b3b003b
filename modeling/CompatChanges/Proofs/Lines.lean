import CompatChanges.Proofs.Extent

/-!
# Line numbers

The line of a byte is found by halving among the places where lines begin; it is the number of line
feeds before the byte. Lines are counted in the source as it was given. Spans count from after a byte
order mark, so after one a line number is that of a place three bytes too early.
-/

namespace CompatChanges

namespace Text.Utf8

theorem length_encode (chars : List Char) : (encode chars).length = size chars := by
  induction chars with
  | nil => rfl
  | cons c rest ih =>
    have hcons : encode (c :: rest) = String.utf8EncodeChar c ++ encode rest := rfl
    rw [hcons, List.length_append, String.length_utf8EncodeChar, ih, size_cons]

/-- A byte of a character of several bytes is no line feed. -/
theorem count_utf8EncodeChar (c : Char) :
    (String.utf8EncodeChar c).count 10 = if c = '\n' then 1 else 0 := by
  split
  · next hc =>
    subst hc
    decide
  · next hc =>
    have hval : c.val.toNat ≠ 10 := fun hval => hc (Char.ext (UInt32.toNat_inj.mp hval))
    rw [List.count_eq_zero]
    unfold String.utf8EncodeChar
    have hne {n : Nat} (hlow : n % 256 ≠ 10) : ¬10 = UInt8.ofNat n := by
      intro heq
      apply hlow
      simpa using (congrArg UInt8.toNat heq).symm
    dsimp only
    generalize c.val.toNat = n at hval
    -- Every byte of a longer form is 128 or more.
    split
    · simp only [List.mem_singleton]
      exact hne (by omega)
    · split
      · simp only [List.mem_cons, List.not_mem_nil, or_false, not_or]
        exact ⟨hne (by omega), hne (by omega)⟩
      · split
        · simp only [List.mem_cons, List.not_mem_nil, or_false, not_or]
          exact ⟨hne (by omega), hne (by omega), hne (by omega)⟩
        · simp only [List.mem_cons, List.not_mem_nil, or_false, not_or]
          exact ⟨hne (by omega), hne (by omega), hne (by omega), hne (by omega)⟩

theorem count_encode (chars : List Char) : (encode chars).count 10 = chars.count '\n' := by
  induction chars with
  | nil => rfl
  | cons c rest ih =>
    have hcons : encode (c :: rest) = String.utf8EncodeChar c ++ encode rest := rfl
    rw [hcons, List.count_append, count_utf8EncodeChar, ih, List.count_cons, Nat.add_comm]
    simp

end Text.Utf8

namespace Xml

open Text

/-! ### Where lines begin -/

theorem lt_of_mem_laterLines {start line : Nat} {chars : List Char}
    (hmem : line ∈ laterLines start chars) : start < line := by
  induction chars generalizing start with
  | nil => cases hmem
  | cons c rest ih =>
    have hc := c.utf8Size_pos
    rw [laterLines] at hmem
    split at hmem
    · rcases List.mem_cons.mp hmem with rfl | hrest
      · omega
      · have := ih hrest
        omega
    · have := ih hmem
      omega

theorem pairwise_laterLines (start : Nat) (chars : List Char) :
    (laterLines start chars).Pairwise (· < ·) := by
  induction chars generalizing start with
  | nil => exact .nil
  | cons c rest ih =>
    rw [laterLines]
    split
    · exact List.pairwise_cons.mpr ⟨fun line hmem => lt_of_mem_laterLines hmem, ih _⟩
    · exact ih _

/-- A line begins after each line feed, so those that begin up to an offset are as many as the line
feeds before it. -/
theorem countP_laterLines (start offset : Nat) (chars : List Char) :
    (laterLines start chars).countP (· ≤ start + offset) =
      ((Utf8.encode chars).take offset).count 10 := by
  induction chars generalizing start offset with
  | nil => simp [laterLines]
  | cons c rest ih =>
    have hcons : Utf8.encode (c :: rest) = String.utf8EncodeChar c ++ Utf8.encode rest := rfl
    have hlength := String.length_utf8EncodeChar c
    rw [hcons, List.take_append, List.count_append, laterLines]
    by_cases hpast : c.utf8Size ≤ offset
    · have hrest := ih (start + c.utf8Size) (offset - c.utf8Size)
      have hstart : start + c.utf8Size + (offset - c.utf8Size) = start + offset := by omega
      rw [hstart] at hrest
      rw [List.take_of_length_le (by omega), Utf8.count_utf8EncodeChar, hlength, ← hrest]
      split
      · rw [List.countP_cons_of_pos (by simpa using by omega), Nat.add_comm]
      · rw [Nat.zero_add]
    · -- The offset is at `c` or inside it, and every later line begins after it.
      have hnone (line : Nat) (hmem : line ∈ laterLines (start + c.utf8Size) rest) :
          ¬line ≤ start + offset := by
        have := lt_of_mem_laterLines hmem
        omega
      have hzero : (laterLines (start + c.utf8Size) rest).countP (· ≤ start + offset) = 0 := by
        simpa [List.countP_eq_zero] using hnone
      have hshort : offset - (String.utf8EncodeChar c).length = 0 := by omega
      have htake : ((String.utf8EncodeChar c).take offset).count 10 = 0 := by
        by_cases hc : c = '\n'
        · subst hc
          have hoffset : offset = 0 := by
            have hsize : '\n'.utf8Size = 1 := rfl
            omega
          subst hoffset
          rfl
        · have hall : (String.utf8EncodeChar c).count 10 = 0 := by
            rw [Utf8.count_utf8EncodeChar, if_neg hc]
          have hle := (List.take_sublist offset (String.utf8EncodeChar c)).count_le 10
          omega
      rw [hshort, List.take_zero, List.count_nil, htake]
      split
      · rw [List.countP_cons_of_neg (by simpa using by omega), hzero]
      · exact hzero

/-- In an ascending list the number of those up to a bound tells where the bound falls. -/
theorem countP_le_of_bounds {lines : List Nat} {row bound : Nat} (hrow : row < lines.length)
    (hbefore : ∀ i, (hi : i < lines.length) → i ≤ row → lines[i] ≤ bound)
    (hafter : ∀ i, (hi : i < lines.length) → row < i → bound < lines[i]) :
    lines.countP (· ≤ bound) = row + 1 := by
  have hfirst : (lines.take (row + 1)).countP (· ≤ bound) = (lines.take (row + 1)).length := by
    rw [List.countP_eq_length]
    intro line hmem
    obtain ⟨i, hi, rfl⟩ := List.mem_iff_getElem.mp hmem
    rw [List.length_take] at hi
    rw [List.getElem_take]
    exact decide_eq_true (hbefore i (by omega) (by omega))
  have hsecond : (lines.drop (row + 1)).countP (· ≤ bound) = 0 := by
    rw [List.countP_eq_zero]
    intro line hmem
    obtain ⟨i, hi, rfl⟩ := List.mem_iff_getElem.mp hmem
    rw [List.length_drop] at hi
    rw [List.getElem_drop]
    have := hafter (row + 1 + i) (by omega) (by omega)
    simpa using this
  rw [← List.take_append_drop (row + 1) lines, List.countP_append, hfirst, hsecond, List.length_take]
  omega

namespace LineIndex

theorem start_ofText (chars : List Char) {row : Nat}
    (hrow : row < (0 :: laterLines 0 chars).length) :
    (ofText chars).start row = (0 :: laterLines 0 chars)[row] := by
  rw [start, ofText, Array.getD_eq_getD_getElem?, List.getElem?_toArray,
    List.getElem?_eq_getElem hrow]
  rfl

theorem pairwise_lines (chars : List Char) : (0 :: laterLines 0 chars).Pairwise (· < ·) :=
  List.pairwise_cons.mpr ⟨fun _ hmem => lt_of_mem_laterLines hmem, pairwise_laterLines 0 chars⟩

/-- The row of an offset is that of the last line that begins at or before it. -/
theorem exists_row_locate_ofText (chars : List Char) (offset : Nat) :
    ∃ hrow : ((ofText chars).locate offset).row < (0 :: laterLines 0 chars).length,
      (0 :: laterLines 0 chars)[((ofText chars).locate offset).row] ≤ offset ∧
        ∀ i, (hi : i < (0 :: laterLines 0 chars).length) → ((ofText chars).locate offset).row < i →
          offset < (0 :: laterLines 0 chars)[i] := by
  have hascending := List.pairwise_iff_getElem.mp (pairwise_lines chars)
  have hsize : (ofText chars).starts.size = (0 :: laterLines 0 chars).length := rfl
  have hstarts : ∀ i j, i ≤ j → j < 0 + (ofText chars).starts.size →
      (ofText chars).start i ≤ (ofText chars).start j := by
    intro i j hle hlt
    rw [Nat.zero_add, hsize] at hlt
    rw [start_ofText chars (by omega), start_ofText chars hlt]
    rcases Nat.lt_or_eq_of_le hle with hne | rfl
    · exact Nat.le_of_lt (hascending i j _ _ hne)
    · exact Nat.le_refl _
  have hreached : (ofText chars).start 0 ≤ offset := Nat.zero_le _
  have hrow : ((ofText chars).locate offset).row =
      (ofText chars).rowFrom offset 0 (ofText chars).starts.size := rfl
  obtain ⟨hbelow, hbegins, hafter⟩ :=
    (ofText chars).rowFrom_bounds hstarts hreached (by simp [hsize])
  rw [← hrow, Nat.zero_add, hsize] at hbelow
  rw [← hrow, start_ofText chars hbelow] at hbegins
  rw [← hrow, Nat.zero_add, hsize] at hafter
  refine ⟨hbelow, hbegins, fun i hi hlt => ?_⟩
  rw [← start_ofText chars hi]
  exact hafter i hlt hi

/-- As many lines begin at or before an offset as come up to its row. -/
theorem countP_lines (chars : List Char) (offset : Nat) :
    (0 :: laterLines 0 chars).countP (· ≤ offset) = ((ofText chars).locate offset).row + 1 := by
  have hascending := List.pairwise_iff_getElem.mp (pairwise_lines chars)
  obtain ⟨hrow, hbegins, hafter⟩ := exists_row_locate_ofText chars offset
  apply countP_le_of_bounds hrow _ hafter
  intro i hi hle
  rcases Nat.lt_or_eq_of_le hle with hne | rfl
  · have := hascending i _ hi hrow hne
    omega
  · exact hbegins

/-- The row of an offset is the number of line feeds before it. -/
theorem row_locate_ofText (chars : List Char) (offset : Nat) :
    ((ofText chars).locate offset).row = ((Utf8.encode chars).take offset).count 10 := by
  have hcount := countP_lines chars offset
  rw [List.countP_cons_of_pos (by simp)] at hcount
  have hlines := countP_laterLines 0 offset chars
  rw [Nat.zero_add] at hlines
  omega

end LineIndex

/-! ### The line of an element -/

/-- The byte order mark at the start of a source, if it has one. -/
def leadingMark : List Char → List Char
  | c :: _ => if c = byteOrderMark then [c] else []
  | [] => []

theorem leadingMark_append_dropMark (source : List Char) :
    leadingMark source ++ dropMark source = source := by
  cases source with
  | nil => rfl
  | cons c rest =>
    rw [leadingMark, dropMark]
    split <;> rfl

theorem leadingMark_eq_nil {source : List Char} (hmark : source.head? ≠ some byteOrderMark) :
    leadingMark source = [] := by
  cases source with
  | nil => rfl
  | cons c rest =>
    have hc : c ≠ byteOrderMark := by simpa using hmark
    rw [leadingMark, if_neg hc]

theorem lines_of_parse {source : String} {document : Document}
    (hparse : parse source = .ok document) : document.lines = .ofText source.toList := by
  obtain ⟨root, -, rfl⟩ := exists_of_map_eq_ok hparse
  rfl

/-- The line of a place is one more than the line feeds that stand before it. -/
theorem lineOf_of_start {source : String} {document : Document} (hparse : parse source = .ok document)
    {before after : List Char} (hsource : source.toList = before ++ after) {span : Span}
    (hstart : span.start = Utf8.size before) : document.lineOf span = before.count '\n' + 1 := by
  have hrow := LineIndex.row_locate_ofText source.toList span.start
  rw [← lines_of_parse hparse, hsource, hstart, Utf8.encode_append, ← Utf8.length_encode,
    List.take_left, Utf8.count_encode, Utf8.length_encode, ← hstart] at hrow
  exact congrArg (· + 1) hrow

/-- An element stands in the source after the mark and as many bytes as its span says. -/
theorem exists_stretch_of_parse {source : String} {document : Document}
    (hparse : parse source = .ok document) {element : Element}
    (hmem : element ∈ document.root.subtree) :
    ∃ before text after inside alone,
      source.toList = before ++ text ++ after ∧
        Utf8.size before = Utf8.size (leadingMark source.toList) + element.span.start ∧
        text = '<' :: (element.name.toList ++ inside ++ ['>']) ∧
        parse (String.ofList text) = .ok alone ∧ alone.root.moved element.span.start = element := by
  have hcut := wellCut_of_parseRoot (parseRoot_of_parse hparse)
  obtain ⟨before, own, after, hpieces, hforms⟩ := exists_forms_of_parse hparse hmem
  rw [hpieces] at hcut
  obtain ⟨inside, hsource⟩ := hforms.exists_source
  obtain ⟨alone, halone, hmoved⟩ := hforms.exists_parse (hcut.stretch ⟨before, after, rfl⟩)
  have hstart : element.span.start = extent before := by rw [hforms.span_eq]
  refine ⟨leadingMark source.toList ++ before.flatMap Piece.source, own.flatMap Piece.source,
    after.flatMap Piece.source, inside, alone, ?_, ?_, hsource, halone, hstart ▸ hmoved⟩
  · calc source.toList
        = leadingMark source.toList ++ dropMark source.toList :=
          (leadingMark_append_dropMark _).symm
      _ = leadingMark source.toList ++ (before ++ own ++ after).flatMap Piece.source := by
          rw [← hpieces, pieces_source]
      _ = _ := by simp
  · rw [Utf8.size_append, hstart]
    rfl

/-- The line of an element is that of its `<`, less the line feeds in the last bytes before it, as
many as a byte order mark at the start of the source has. Without a mark it is the line of the `<`. -/
theorem lineOf_of_parse {source : String} {document : Document}
    (hparse : parse source = .ok document) {element : Element}
    (hmem : element ∈ document.root.subtree) :
    ∃ before text after inside alone,
      source.toList = before ++ text ++ after ∧
        Utf8.size before = Utf8.size (leadingMark source.toList) + element.span.start ∧
        text = '<' :: (element.name.toList ++ inside ++ ['>']) ∧
        parse (String.ofList text) = .ok alone ∧ alone.root.moved element.span.start = element ∧
        document.lineOf element.span +
            ((Utf8.encode before).drop element.span.start).count 10 = 1 + before.count '\n' ∧
        (document.lineOf element.span = 1 + before.count '\n' ↔
          10 ∉ (Utf8.encode before).drop element.span.start) ∧
        (source.toList.head? ≠ some byteOrderMark →
          document.lineOf element.span = 1 + before.count '\n') := by
  obtain ⟨before, text, after, inside, alone, hsource, hsize, htext, halone, hmoved⟩ :=
    exists_stretch_of_parse hparse hmem
  have hline : document.lineOf element.span =
      ((Utf8.encode before).take element.span.start).count 10 + 1 := by
    have hrow := LineIndex.row_locate_ofText source.toList element.span.start
    rw [← lines_of_parse hparse, hsource, List.append_assoc, Utf8.encode_append,
      List.take_append_of_le_length (by rw [Utf8.length_encode]; omega)] at hrow
    exact congrArg (· + 1) hrow
  have hall : document.lineOf element.span +
      ((Utf8.encode before).drop element.span.start).count 10 = 1 + before.count '\n' := by
    have hparts := congrArg (List.count 10)
      (List.take_append_drop element.span.start (Utf8.encode before))
    rw [List.count_append, Utf8.count_encode] at hparts
    omega
  have hexact : document.lineOf element.span = 1 + before.count '\n' ↔
      10 ∉ (Utf8.encode before).drop element.span.start := by
    rw [← List.count_eq_zero]
    omega
  refine ⟨before, text, after, inside, alone, hsource, hsize, htext, halone, hmoved, hall, hexact,
    fun hmark => hexact.mpr ?_⟩
  -- Without a mark nothing is left after as many bytes as the span tells.
  rw [leadingMark_eq_nil hmark, Utf8.size_nil, Nat.zero_add, ← Utf8.length_encode] at hsize
  rw [← hsize, List.drop_length]
  exact List.not_mem_nil

/-- Two of the line feeds stand in the three bytes before `a`. -/
def markedSource : String := "\ufeff<p>\n\n<a/>text<b/></p>"

theorem lineOf_markedSource :
    ∃ document, parse markedSource = .ok document ∧
      document.root.subtree.map (fun inner => (inner.name, document.lineOf inner.span)) =
        [("p", 1), ("a", 1), ("b", 3)] ∧
      ∀ element ∈ document.root.subtree, ∃ before after,
        markedSource.toList = before ++ '<' :: (element.name.toList ++ after) ∧
          document.lineOf element.span +
            ((Utf8.encode before).drop element.span.start).count 10 = 1 + before.count '\n' := by
  have hread : (parse markedSource).toOption.map
      (fun document =>
        document.root.subtree.map fun inner => (inner.name, document.lineOf inner.span)) =
        some [("p", 1), ("a", 1), ("b", 3)] := by
    decide +kernel
  obtain ⟨document, hdocument, hlines⟩ := Option.map_eq_some_iff.mp hread
  have hparse : parse markedSource = .ok document := toOption_eq_some_iff.mp hdocument
  refine ⟨document, hparse, hlines, fun element hmem => ?_⟩
  obtain ⟨before, text, after, inside, alone, hsource, -, htext, -, -, hline, -⟩ :=
    lineOf_of_parse hparse hmem
  exact ⟨before, inside ++ ['>'] ++ after, by simp [hsource, htext], hline⟩

/-- After a mark the line of an element can be too low: here the only `<` is on the second line. -/
theorem lineOf_ne_of_mark :
    ∃ document before after, parse "\ufeff\n<a/>" = .ok document ∧
      "\ufeff\n<a/>".toList = before ++ '<' :: after ∧ '<' ∉ before ++ after ∧
      document.lineOf document.root.span ≠ 1 + before.count '\n' := by
  have hread : (parse "\ufeff\n<a/>").toOption.map
      (fun document => document.lineOf document.root.span) = some 1 := by
    decide +kernel
  obtain ⟨document, hdocument, hline⟩ := Option.map_eq_some_iff.mp hread
  refine ⟨document, ['\ufeff', '\n'], ['a', '/', '>'], toOption_eq_some_iff.mp hdocument, ?_, ?_, ?_⟩
  · decide
  · decide
  · rw [hline]
    decide

end Xml

end CompatChanges
