import CompatChanges.Proofs.Lines

/-!
# Rows and columns

A byte offset can be had back from its row and its column, and places in a text are in the order of
their rows and columns. Where the line of an offset begins is told by the line feeds before it: just
after the last of them, or at the first byte of the text if there is none.
-/

namespace CompatChanges.Xml

open Text

/-- The line of the byte at `offset` begins at byte `start`, just after the last line feed before the
offset. -/
def BeginsLine (bytes : List UInt8) (offset start : Nat) : Prop :=
  (10 ∉ bytes.take offset ∧ start = 0) ∨
    ∃ before line, bytes.take offset = before ++ 10 :: line ∧ 10 ∉ line ∧ start = before.length + 1

/-- The lines after the first begin after line feeds. -/
theorem exists_line_feed_of_mem_laterLines {start line : Nat} {chars : List Char}
    (hmem : line ∈ laterLines start chars) :
    ∃ before after, Utf8.encode chars = before ++ 10 :: after ∧
      line = start + before.length + 1 := by
  induction chars generalizing start with
  | nil => cases hmem
  | cons c rest ih =>
    have hcons : Utf8.encode (c :: rest) = String.utf8EncodeChar c ++ Utf8.encode rest := rfl
    have hlater (hrest : line ∈ laterLines (start + c.utf8Size) rest) :
        ∃ before after, Utf8.encode (c :: rest) = before ++ 10 :: after ∧
          line = start + before.length + 1 := by
      obtain ⟨before, after, hbytes, hline⟩ := ih hrest
      refine ⟨String.utf8EncodeChar c ++ before, after, ?_, ?_⟩
      · rw [hcons, hbytes, List.append_assoc]
      · rw [hline, List.length_append, String.length_utf8EncodeChar]
        omega
    rw [laterLines] at hmem
    split at hmem
    · next hc =>
      subst hc
      rcases List.mem_cons.mp hmem with rfl | hrest
      · exact ⟨[], Utf8.encode rest, rfl, rfl⟩
      · exact hlater hrest
    · exact hlater hmem

namespace LineIndex

/-- Before a line stand as many line feeds as its number says. -/
theorem count_take_line (chars : List Char) {row : Nat}
    (hrow : row < (0 :: laterLines 0 chars).length) :
    ((Utf8.encode chars).take (0 :: laterLines 0 chars)[row]).count 10 = row := by
  have hascending := List.pairwise_iff_getElem.mp (pairwise_lines chars)
  have hcount : (0 :: laterLines 0 chars).countP (· ≤ (0 :: laterLines 0 chars)[row]) = row + 1 := by
    apply countP_le_of_bounds hrow
    · intro i hi hle
      rcases Nat.lt_or_eq_of_le hle with hne | rfl
      · exact Nat.le_of_lt (hascending i row hi hrow hne)
      · exact Nat.le_refl _
    · intro i hi hlt
      exact hascending row i hrow hi hlt
  rw [List.countP_cons_of_pos (by simp)] at hcount
  have hlines := countP_laterLines 0 (0 :: laterLines 0 chars)[row] chars
  rw [Nat.zero_add] at hlines
  omega

/-- A line that begins at or before an offset, with no line feed between the two. -/
theorem beginsLine_of_count {chars : List Char} {offset row : Nat}
    (hrow : row < (0 :: laterLines 0 chars).length) (hle : (0 :: laterLines 0 chars)[row] ≤ offset)
    (hcount : ((Utf8.encode chars).take offset).count 10 = row) :
    BeginsLine (Utf8.encode chars) offset (0 :: laterLines 0 chars)[row] := by
  cases row with
  | zero => exact .inl ⟨List.count_eq_zero.mp hcount, rfl⟩
  | succ row =>
    have hbefore := count_take_line chars hrow
    have hmem : (0 :: laterLines 0 chars)[row + 1] ∈ laterLines 0 chars := List.getElem_mem _
    obtain ⟨before, after, hbytes, hline⟩ := exists_line_feed_of_mem_laterLines hmem
    rw [Nat.zero_add] at hline
    rw [hline] at hle hbefore ⊢
    have htake : (Utf8.encode chars).take offset =
        before ++ 10 :: after.take (offset - (before.length + 1)) := by
      rw [hbytes, List.take_append, List.take_of_length_le (by omega)]
      obtain ⟨more, hmore⟩ : ∃ more, offset - before.length = more + 1 :=
        ⟨offset - before.length - 1, by omega⟩
      rw [hmore, List.take_succ_cons]
      congr 3
      omega
    have hfirst : (Utf8.encode chars).take (before.length + 1) = before ++ [10] := by
      rw [hbytes, List.take_append, List.take_of_length_le (by omega)]
      simp
    refine .inr ⟨before, _, htake, ?_, rfl⟩
    rw [htake, List.count_append, List.count_cons_self] at hcount
    rw [hfirst, List.count_append, List.count_cons_self, List.count_nil] at hbefore
    rw [← List.count_eq_zero]
    omega

/-- The row of an offset is a line of the index, and that line begins as many bytes before the
offset as its column says. -/
theorem exists_start_locate (chars : List Char) (offset : Nat) :
    ∃ start, (ofText chars).starts[((ofText chars).locate offset).row]? = some start ∧
      start + ((ofText chars).locate offset).column = offset ∧
      BeginsLine (Utf8.encode chars) offset start := by
  obtain ⟨hrow, hle, -⟩ := exists_row_locate_ofText chars offset
  have hget : (ofText chars).starts[((ofText chars).locate offset).row]? =
      some (0 :: laterLines 0 chars)[((ofText chars).locate offset).row] :=
    List.getElem?_toArray.trans (List.getElem?_eq_getElem hrow)
  have hcolumn : ((ofText chars).locate offset).column =
      offset - (0 :: laterLines 0 chars)[((ofText chars).locate offset).row] := by
    rw [← start_ofText chars hrow]
    rfl
  exact ⟨_, hget, by omega, beginsLine_of_count hrow hle (row_locate_ofText chars offset).symm⟩

/-- Rows do not go down, and in a row columns go up. -/
theorem locate_lt_locate (chars : List Char) {earlier later : Nat} (hlt : earlier < later) :
    ((ofText chars).locate earlier).row < ((ofText chars).locate later).row ∨
      ((ofText chars).locate earlier).row = ((ofText chars).locate later).row ∧
        ((ofText chars).locate earlier).column < ((ofText chars).locate later).column := by
  obtain ⟨start, hstart, hearlier, -⟩ := exists_start_locate chars earlier
  obtain ⟨other, hother, hlater, -⟩ := exists_start_locate chars later
  have hle : ((ofText chars).locate earlier).row ≤ ((ofText chars).locate later).row := by
    rw [row_locate_ofText, row_locate_ofText]
    exact (List.take_sublist_take_left (Nat.le_of_lt hlt)).count_le 10
  rcases Nat.lt_or_eq_of_le hle with hrow | hrow
  · exact .inl hrow
  · rw [hrow, hother, Option.some.injEq] at hstart
    exact .inr ⟨hrow, by omega⟩

end LineIndex

/-- The location of every offset: its row is the number of line feeds before it, and its column is
how far it is from the beginning of that line, which the index knows. A search among the lines finds
one more than the row, so that there always is a line to go back to. Past the end of the text offsets
are on its last line. -/
theorem Document.locate_exact (root : Element) (source : String) :
    let document : Document := ⟨root, .ofText source.toList⟩
    let bytes := Utf8.encode source.toList
    document.lines.starts.toList.Pairwise (· < ·) ∧
      (∀ offset,
        (document.locate offset).row = (bytes.take offset).count 10 ∧
          document.lines.starts.toList.countP (· ≤ offset) = (document.locate offset).row + 1 ∧
          ∃ start, document.lines.starts[(document.locate offset).row]? = some start ∧
            start + (document.locate offset).column = offset ∧ BeginsLine bytes offset start) ∧
      ∀ earlier later, earlier < later →
        (document.locate earlier).row < (document.locate later).row ∨
          (document.locate earlier).row = (document.locate later).row ∧
            (document.locate earlier).column < (document.locate later).column := by
  intro document bytes
  refine ⟨LineIndex.pairwise_lines _, fun offset => ?_, fun _ _ => LineIndex.locate_lt_locate _⟩
  exact ⟨LineIndex.row_locate_ofText _ offset, LineIndex.countP_lines _ offset,
    LineIndex.exists_start_locate _ offset⟩

/-- Offsets in a character, at a line feed, on an empty line, at the end and past it. -/
theorem Document.locate_exact_accented :
    let document : Document := ⟨.ofAttributes "a" [], .ofText "é\n\nx\n".toList⟩
    ([1, 2, 3, 4, 5, 6, 9].map fun offset =>
        ((document.locate offset).row, (document.locate offset).column)) =
          [(0, 1), (0, 2), (1, 0), (2, 0), (2, 1), (3, 0), (3, 3)] ∧
      2 < 3 ∧
      ((document.locate 2).row < (document.locate 3).row ∨
        (document.locate 2).row = (document.locate 3).row ∧
          (document.locate 2).column < (document.locate 3).column) := by
  intro document
  refine ⟨by decide +kernel, by decide, ?_⟩
  exact (Document.locate_exact (.ofAttributes "a" []) "é\n\nx\n").2.2 2 3 (by decide)

end CompatChanges.Xml
