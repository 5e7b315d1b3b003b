import CompatChanges.Text.Utf8

/-!
Reading UTF-8 gives back what was written. A character is written as one to four bytes; the reader
follows them byte by byte and finds that character, whatever it found before.
-/

namespace CompatChanges.Text.Utf8

theorem toNat_ofNat_of_lt {n : Nat} (h : n < 256) : (UInt8.ofNat n).toNat = n := by
  simp only [UInt8.toNat_ofNat']; omega

theorem lead_ascii {n : Nat} (h : n < 0x80) : lead (UInt8.ofNat n) = .inl (.char (Char.ofNat n)) := by
  have e := toNat_ofNat_of_lt (n := n) (by omega)
  unfold lead
  rw [if_pos (by rw [UInt8.lt_iff_toNat_lt, e]; exact h), e]

theorem lead_two {n : Nat} (lo : 0xC2 ≤ n) (hi : n < 0xE0) :
    lead (UInt8.ofNat n) = .inr ⟨n - 0xC0, 1, 1, 0x80, 0xBF⟩ := by
  have e := toNat_ofNat_of_lt (n := n) (by omega)
  unfold lead
  simp only [UInt8.lt_iff_toNat_lt, e, UInt8.reduceToNat]
  rw [if_neg (by omega), if_neg (by omega), if_pos (by omega)]

theorem lead_three {n : Nat} (lo : 0xE0 ≤ n) (hi : n < 0xF0) :
    lead (UInt8.ofNat n) =
      .inr ⟨n - 0xE0, 1, 2, if n = 0xE0 then 0xA0 else 0x80, if n = 0xED then 0x9F else 0xBF⟩ := by
  have e := toNat_ofNat_of_lt (n := n) (by omega)
  unfold lead
  simp only [UInt8.lt_iff_toNat_lt, ← UInt8.toNat_inj, e, UInt8.reduceToNat]
  rw [if_neg (by omega), if_neg (by omega), if_neg (by omega), if_pos (by omega)]

theorem lead_four {n : Nat} (lo : 0xF0 ≤ n) (hi : n < 0xF5) :
    lead (UInt8.ofNat n) =
      .inr ⟨n - 0xF0, 1, 3, if n = 0xF0 then 0x90 else 0x80, if n = 0xF4 then 0x8F else 0xBF⟩ := by
  have e := toNat_ofNat_of_lt (n := n) (by omega)
  unfold lead
  simp only [UInt8.lt_iff_toNat_lt, ← UInt8.toNat_inj, e, UInt8.reduceToNat]
  rw [if_neg (by omega), if_neg (by omega), if_neg (by omega), if_neg (by omega), if_pos (by omega)]

/-- A byte in range that is not the last of its character. -/
theorem step_more {value taken missing n : Nat} {low high : UInt8} (found : List Piece)
    (lo : low.toNat ≤ n) (hi : n ≤ high.toNat) (small : n < 256) (more : 1 < missing) :
    Reading.step ⟨found, some ⟨value, taken, missing, low, high⟩⟩ (UInt8.ofNat n) =
      ⟨found, some ⟨value * 64 + (n - 0x80), taken + 1, missing - 1, 0x80, 0xBF⟩⟩ := by
  have e := toNat_ofNat_of_lt small
  simp only [Reading.step, UInt8.le_iff_toNat_le, e, lo, hi, decide_true, Bool.and_self, if_true,
    Partial.extend, if_neg (Nat.not_le.mpr more), Reading.take]

/-- A byte in range that is the last of its character. -/
theorem step_last {value taken n : Nat} {low high : UInt8} (found : List Piece)
    (lo : low.toNat ≤ n) (hi : n ≤ high.toNat) (small : n < 256) :
    Reading.step ⟨found, some ⟨value, taken, 1, low, high⟩⟩ (UInt8.ofNat n) =
      ⟨.char (Char.ofNat (value * 64 + (n - 0x80))) :: found, none⟩ := by
  have e := toNat_ofNat_of_lt small
  simp only [Reading.step, UInt8.le_iff_toNat_le, e, lo, hi, decide_true, Bool.and_self, if_true,
    Partial.extend, Nat.le_refl, Reading.take]

theorem step_first (found : List Piece) (b : UInt8) :
    Reading.step ⟨found, none⟩ b = Reading.take ⟨found, none⟩ (lead b) := rfl

/-- Reading what a character is written as finds that character. -/
theorem foldl_encodeChar (c : Char) (found : List Piece) :
    (String.utf8EncodeChar c).foldl Reading.step ⟨found, none⟩ = ⟨.char c :: found, none⟩ := by
  have valid : c.val.toNat < 0xD800 ∨ (0xDFFF < c.val.toNat ∧ c.val.toNat < 0x110000) := c.valid
  have back : Char.ofNat c.val.toNat = c := Char.ofNat_toNat c
  unfold String.utf8EncodeChar
  generalize c.val.toNat = n at valid back
  rw [← back]
  have same {k : Nat} (h : k = n) :
      (⟨.char (Char.ofNat k) :: found, none⟩ : Reading) = ⟨.char (Char.ofNat n) :: found, none⟩ := by
    rw [h]
  dsimp only
  split
  · rw [List.foldl_cons, step_first, lead_ascii (by omega)]
    rfl
  · split
    · rw [List.foldl_cons, step_first, lead_two (by omega) (by omega), Reading.take, List.foldl_cons,
        step_last _ (by change 128 ≤ _; omega) (by change _ ≤ 191; omega) (by omega), List.foldl_nil]
      exact same (by omega)
    · split
      · rw [List.foldl_cons, step_first, lead_three (by omega) (by omega), Reading.take,
          List.foldl_cons, step_more _ ?lo ?hi (by omega) (by omega), List.foldl_cons,
          step_last _ (by change 128 ≤ _; omega) (by change _ ≤ 191; omega) (by omega),
          List.foldl_nil]
        · exact same (by omega)
        case lo =>
          split
          · change 160 ≤ _
            omega
          · change 128 ≤ _
            omega
        case hi =>
          split
          · change _ ≤ 159
            omega
          · change _ ≤ 191
            omega
      · rw [List.foldl_cons, step_first, lead_four (by omega) (by omega), Reading.take,
          List.foldl_cons, step_more _ ?lo ?hi (by omega) (by omega), List.foldl_cons,
          step_more _ (by change 128 ≤ _; omega) (by change _ ≤ 191; omega) (by omega) (by omega),
          List.foldl_cons,
          step_last _ (by change 128 ≤ _; omega) (by change _ ≤ 191; omega) (by omega),
          List.foldl_nil]
        · exact same (by omega)
        case lo =>
          split
          · change 144 ≤ _
            omega
          · change 128 ≤ _
            omega
        case hi =>
          split
          · change _ ≤ 143
            omega
          · change _ ≤ 191
            omega

theorem foldl_encode (chars : List Char) (found : List Piece) :
    (encode chars).foldl Reading.step ⟨found, none⟩ = ⟨(chars.map .char).reverse ++ found, none⟩ := by
  induction chars generalizing found with
  | nil => rfl
  | cons c rest ih =>
    have cons : encode (c :: rest) = String.utf8EncodeChar c ++ encode rest := rfl
    rw [cons, List.foldl_append, foldl_encodeChar, ih]
    simp

@[simp] theorem pieces_encode (chars : List Char) : pieces (encode chars) = chars.map .char := by
  rw [pieces, foldl_encode]
  simp [Reading.finish]

theorem faultFrom?_map_char (index : Nat) (chars : List Char) : faultFrom? index (chars.map .char) = none := by
  induction chars generalizing index with
  | nil => rfl
  | cons c rest ih => exact ih _

/-- Reading what was written gives the characters back. -/
@[simp] theorem decode_encode (chars : List Char) : decode (encode chars) = .ok chars := by
  rw [decode, pieces_encode, faultFrom?_map_char]
  simp [List.filterMap_map, Function.comp_def, Piece.char?]

end CompatChanges.Text.Utf8
