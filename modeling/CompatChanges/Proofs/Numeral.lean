import CompatChanges.Change
import Mathlib.Data.List.TakeWhile
import Mathlib.Data.Nat.Digits.Defs
import Mathlib.Tactic.Ring

/-!
# Numbers in attributes

Digits are read one by one, and each must keep the value within the bound. That comes to reading all
of them in exact arithmetic and looking at the bound once, however many zeros lead.
-/

namespace CompatChanges

namespace Text

/-! ### Digits -/

theorem ofDigits_reverse_cons (base value digit : Nat) (digits : List Nat) :
    value * base ^ (digit :: digits).length + Nat.ofDigits base (digit :: digits).reverse =
      (value * base + digit) * base ^ digits.length + Nat.ofDigits base digits.reverse := by
  rw [List.reverse_cons, Nat.ofDigits_append, List.length_reverse, Nat.ofDigits_singleton,
    List.length_cons]
  ring

/-- Looking at the bound after every digit is looking at it once in the end, since more digits never
make a value smaller. -/
theorem readDigits_eq_ok_iff {base bound value n : Nat} {chars : List Char} (hbase : 0 < base)
    (hvalue : value ≤ bound) :
    readDigits base bound value chars = .ok n ↔
      ∃ digits : List Nat, chars.map (digitValue base) = digits.map some ∧
        value * base ^ digits.length + Nat.ofDigits base digits.reverse = n ∧ n ≤ bound := by
  induction chars generalizing value with
  | nil =>
    rw [readDigits, Except.ok.injEq]
    constructor
    · rintro rfl
      exact ⟨[], rfl, by simp, hvalue⟩
    · rintro ⟨digits, hdigits, hsum, -⟩
      obtain rfl : digits = [] := by simpa using hdigits.symm
      simpa using hsum
  | cons c rest ih =>
    rw [readDigits]
    cases hdigit : digitValue base c with
    | none =>
      refine iff_of_false nofun ?_
      rintro ⟨digits, hdigits, -⟩
      cases digits with
      | nil => cases hdigits
      | cons digit digits => simp [hdigit] at hdigits
    | some digit =>
      have hsplit : (∃ digits : List Nat, (c :: rest).map (digitValue base) = digits.map some ∧
            value * base ^ digits.length + Nat.ofDigits base digits.reverse = n ∧ n ≤ bound) ↔
          ∃ digits : List Nat, rest.map (digitValue base) = digits.map some ∧
            (value * base + digit) * base ^ digits.length + Nat.ofDigits base digits.reverse = n ∧
              n ≤ bound := by
        constructor
        · rintro ⟨digits, hdigits, hsum⟩
          cases digits with
          | nil => cases hdigits
          | cons first digits =>
            obtain ⟨hfirst, hrest⟩ := List.cons.inj hdigits
            obtain rfl : digit = first := Option.some.inj (hdigit.symm.trans hfirst)
            exact ⟨digits, hrest, by rwa [ofDigits_reverse_cons] at hsum⟩
        · rintro ⟨digits, hrest, hsum⟩
          exact ⟨digit :: digits, by rw [List.map_cons, List.map_cons, hdigit, hrest],
            by rwa [ofDigits_reverse_cons]⟩
      rw [hsplit]
      dsimp only
      split
      · next hnext => exact ih hnext
      · next hover =>
        refine iff_of_false nofun ?_
        rintro ⟨digits, -, rfl, hbound⟩
        have hgrows := Nat.le_mul_of_pos_right (value * base + digit)
          (Nat.pow_pos (n := digits.length) hbase)
        omega

theorem digitValue_ten (c : Char) :
    digitValue 10 c = if c.isDigit = true then some (c.toNat - '0'.toNat) else none := by
  have hlow : '0' ≤ c ↔ 48 ≤ c.toNat := Iff.rfl
  have hhigh : c ≤ '9' ↔ c.toNat ≤ 57 := Iff.rfl
  have hdigit : c.isDigit = true ↔ 48 ≤ c.toNat ∧ c.toNat ≤ 57 := Char.isDigit_iff_toNat
  unfold digitValue
  by_cases hc : 48 ≤ c.toNat ∧ c.toNat ≤ 57
  · rw [if_pos (hdigit.mpr hc), if_pos (by simpa [hlow, hhigh] using hc)]
    have hzero : '0'.toNat = 48 := rfl
    exact Option.filter_eq_some_iff.mpr ⟨rfl, decide_eq_true (by omega)⟩
  · -- A letter has the value of a digit of a larger base.
    rw [if_neg (mt hdigit.mp hc), if_neg (by simpa [hlow, hhigh] using hc)]
    rw [Option.filter_eq_none_iff]
    intro digit hletter
    split at hletter
    · cases hletter
      simp
    · split at hletter
      · cases hletter
        simp
      · cases hletter

theorem map_digitValue_ten_eq_iff {chars : List Char} {digits : List Nat} :
    chars.map (digitValue 10) = digits.map some ↔
      (∀ c ∈ chars, c.isDigit = true) ∧ chars.map (fun c => c.toNat - '0'.toNat) = digits := by
  induction chars generalizing digits with
  | nil => cases digits <;> simp
  | cons c rest ih =>
    cases digits with
    | nil => simp
    | cons digit digits =>
      simp only [List.map_cons, List.cons.injEq, List.forall_mem_cons, ih, digitValue_ten]
      by_cases hc : c.isDigit = true <;> simp [hc, and_left_comm]

/-! ### Numerals -/

/-- Decimal digits, at least one and with at most one `+` before them, whose value is `n`. -/
def IsNumeral (chars : List Char) (n : Nat) : Prop :=
  ∃ digits : List Char, (chars = digits ∨ chars = '+' :: digits) ∧ digits ≠ [] ∧
    (∀ c ∈ digits, c.isDigit = true) ∧
    Nat.ofDigits 10 (digits.reverse.map fun c => c.toNat - '0'.toNat) = n

theorem readNumeral_eq_ok_iff {bound n : Nat} {digits : List Char} :
    readNumeral 10 bound digits = .ok n ↔
      digits ≠ [] ∧ (∀ c ∈ digits, c.isDigit = true) ∧
        Nat.ofDigits 10 (digits.reverse.map fun c => c.toNat - '0'.toNat) = n ∧ n ≤ bound := by
  rw [readNumeral]
  split
  · next hempty =>
    refine iff_of_false nofun fun h => h.1 (List.isEmpty_iff.mp hempty)
  · next hne =>
    rw [List.isEmpty_iff] at hne
    rw [readDigits_eq_ok_iff (by decide) (Nat.zero_le bound)]
    simp only [map_digitValue_ten_eq_iff, Nat.zero_mul, Nat.zero_add]
    constructor
    · rintro ⟨_, ⟨hdigits, rfl⟩, hsum, hbound⟩
      exact ⟨hne, hdigits, by rwa [List.map_reverse], hbound⟩
    · rintro ⟨-, hdigits, hsum, hbound⟩
      exact ⟨_, ⟨hdigits, rfl⟩, by rwa [← List.map_reverse], hbound⟩

theorem readUnsigned_eq_some_iff {bound n : Nat} {chars : List Char} :
    readUnsigned bound chars = some n ↔ IsNumeral chars n ∧ n ≤ bound := by
  have hread (digits : List Char) :
      (readNumeral 10 bound digits).toOption = some n ↔ readNumeral 10 bound digits = .ok n := by
    cases readNumeral 10 bound digits <;> simp [Except.toOption]
  unfold readUnsigned IsNumeral
  split
  · next digits =>
    rw [hread, readNumeral_eq_ok_iff]
    constructor
    · rintro ⟨hne, hdigits, hsum, hbound⟩
      exact ⟨⟨digits, .inr rfl, hne, hdigits, hsum⟩, hbound⟩
    · rintro ⟨⟨others, rfl | hothers, hne, hdigits, hsum⟩, hbound⟩
      · exact absurd (hdigits '+' List.mem_cons_self) (by decide)
      · cases hothers
        exact ⟨hne, hdigits, hsum, hbound⟩
  · next hplain =>
    rw [hread, readNumeral_eq_ok_iff]
    constructor
    · rintro ⟨hne, hdigits, hsum, hbound⟩
      exact ⟨⟨chars, .inl rfl, hne, hdigits, hsum⟩, hbound⟩
    · rintro ⟨⟨others, rfl | rfl, hne, hdigits, hsum⟩, hbound⟩
      · exact ⟨hne, hdigits, hsum, hbound⟩
      · exact absurd rfl (hplain others)

example : readUnsigned (maxOfBits 64) "+00018446744073709551615".toList = some (2 ^ 64 - 1) := by
  decide

example : readUnsigned (maxOfBits 64) "18446744073709551616".toList = none := by decide

/-! ### Blanks around a text -/

/-- `core` is `chars` without the blanks at both ends. -/
def IsTrimmed (chars core : List Char) : Prop :=
  ∃ lead trail : List Char, chars = lead ++ core ++ trail ∧
    (∀ c ∈ lead, isBlank c = true) ∧ (∀ c ∈ trail, isBlank c = true) ∧
    (∀ c ∈ core.head?, isBlank c = false) ∧ ∀ c ∈ core.getLast?, isBlank c = false

theorem not_of_mem_head?_dropWhile {p : Char → Bool} {chars : List Char} :
    ∀ c ∈ (chars.dropWhile p).head?, p c = false := by
  intro c hmem
  have hhead := List.head?_dropWhile_not p chars
  rw [Option.mem_def.mp hmem] at hhead
  exact hhead

theorem dropWhile_append_eq {p : Char → Bool} {lead rest : List Char}
    (hlead : ∀ c ∈ lead, p c = true) (hrest : ∀ c ∈ rest.head?, p c = false) :
    (lead ++ rest).dropWhile p = rest := by
  rw [List.dropWhile_append_of_pos hlead]
  cases rest with
  | nil => rfl
  | cons c rest =>
    have hc : p c = false := hrest c rfl
    exact List.dropWhile_cons_of_neg (by simp [hc])

theorem dropTrailing_append_eq {p : Char → Bool} {front trail : List Char}
    (htrail : ∀ c ∈ trail, p c = true) (hfront : ∀ c ∈ front.getLast?, p c = false) :
    dropTrailing p (front ++ trail) = front := by
  rw [dropTrailing, List.reverse_append,
    dropWhile_append_eq (by simpa using htrail) (by simpa using hfront), List.reverse_reverse]

theorem exists_dropTrailing_append (p : Char → Bool) (chars : List Char) :
    ∃ trail, chars = dropTrailing p chars ++ trail ∧ (∀ c ∈ trail, p c = true) ∧
      ∀ c ∈ (dropTrailing p chars).getLast?, p c = false := by
  refine ⟨(chars.reverse.takeWhile p).reverse, ?_, ?_, ?_⟩
  · rw [dropTrailing, ← List.reverse_append, List.takeWhile_append_dropWhile, List.reverse_reverse]
  · intro c hmem
    exact List.mem_takeWhile_imp (List.mem_reverse.mp hmem)
  · rw [dropTrailing, List.getLast?_reverse]
    exact not_of_mem_head?_dropWhile

theorem isTrimmed_trim (chars : List Char) : IsTrimmed chars (trim chars) := by
  obtain ⟨trail, hrest, htrail, hlast⟩ := exists_dropTrailing_append isBlank (chars.dropWhile isBlank)
  refine ⟨chars.takeWhile isBlank, trail, ?_, fun c hmem => List.mem_takeWhile_imp hmem, htrail, ?_,
    hlast⟩
  · rw [List.append_assoc, trim, ← hrest, List.takeWhile_append_dropWhile]
  · intro c hmem
    have hhead : (dropTrailing isBlank (chars.dropWhile isBlank)).head? = some c := hmem
    apply not_of_mem_head?_dropWhile c
    rw [hrest, List.head?_append, hhead]
    rfl

theorem trim_eq_iff {chars core : List Char} : trim chars = core ↔ IsTrimmed chars core := by
  constructor
  · rintro rfl
    exact isTrimmed_trim chars
  · rintro ⟨lead, trail, rfl, hlead, htrail, hfirst, hlast⟩
    cases core with
    | nil =>
      rw [List.append_nil]
      have hall : (lead ++ trail).dropWhile isBlank = [] := by
        rw [List.dropWhile_eq_nil_iff]
        simpa [or_imp, forall_and] using And.intro hlead htrail
      rw [trim, hall]
      rfl
    | cons c rest =>
      have hdrop : (lead ++ (c :: rest ++ trail)).dropWhile isBlank = c :: rest ++ trail :=
        dropWhile_append_eq hlead hfirst
      rw [trim, List.append_assoc, hdrop, dropTrailing_append_eq htrail hlast]

end Text

namespace Xml

/-- The first attribute with this name has this value. -/
def Element.Holds (element : Element) (name value : String) : Prop :=
  ∃ before own after, element.attributes = before ++ own :: after ∧
    (∀ other ∈ before, other.name ≠ name) ∧ own.name = name ∧ own.value = value

theorem Element.attribute?_eq_some_iff {element : Element} {name value : String} :
    element.attribute? name = some value ↔ element.Holds name value := by
  unfold attribute? Holds
  simp only [Option.map_eq_some_iff, List.find?_eq_some_iff_append, decide_eq_true_eq,
    Bool.not_eq_true', decide_eq_false_iff_not]
  constructor
  · rintro ⟨own, ⟨hname, before, after, hattributes, hbefore⟩, hvalue⟩
    exact ⟨before, own, after, hattributes, hbefore, hname, hvalue⟩
  · rintro ⟨before, own, after, hattributes, hbefore, hname, hvalue⟩
    exact ⟨own, ⟨hname, before, after, hattributes, hbefore⟩, hvalue⟩

end Xml

namespace Change

open Text

theorem number?_eq_some_iff (change : Change) (name : String) (bits n : Nat) :
    change.number? name bits = some n ↔
      ∃ value core, change.element.Holds name value ∧ IsTrimmed value.toList core ∧
        IsNumeral core n ∧ n ≤ 2 ^ bits - 1 := by
  have hmax : maxOfBits bits = 2 ^ bits - 1 := by rw [maxOfBits, Nat.one_shiftLeft]
  simp only [number?, Option.bind_eq_bind, Option.bind_eq_some_iff,
    Xml.Element.attribute?_eq_some_iff, readUnsigned_eq_some_iff, hmax, ← trim_eq_iff,
    exists_and_left, exists_eq_left']

/-- The id is the value of the attribute as it is. It is a number if, without the blanks around it,
it is a numeral of a value below the bound, and otherwise it is none; so is the target SDK. -/
theorem numbers_exact (change : Change) :
    (∀ value, change.id? = some value ↔ change.element.Holds "id" value) ∧
      (∀ n, change.numericId? = some n ↔
        ∃ value core, change.id? = some value ∧ IsTrimmed value.toList core ∧ IsNumeral core n ∧
          n ≤ 2 ^ 64 - 1) ∧
      ∀ n, change.enableAfterTargetSdk? = some n ↔
        ∃ value core, change.element.Holds "enableAfterTargetSdk" value ∧
          IsTrimmed value.toList core ∧ IsNumeral core n ∧ n ≤ 2 ^ 32 - 1 := by
  have hid (value : String) : change.id? = some value ↔ change.element.Holds "id" value :=
    Xml.Element.attribute?_eq_some_iff
  refine ⟨hid, fun n => ?_, change.number?_eq_some_iff _ 32⟩
  simp only [hid]
  exact change.number?_eq_some_iff _ 64 n

end Change

end CompatChanges
