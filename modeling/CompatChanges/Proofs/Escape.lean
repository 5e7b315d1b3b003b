import CompatChanges.Xml.Reference
import Mathlib.Data.List.Basic

/-!
# Escaping is undone by reading

A character stands in a text either as itself or as a reference to it. Whatever mixture of the two a
writer chooses, character by character, the reader finds the characters again. An attribute value is
written in two passes, which come to one substitution.
-/

namespace CompatChanges.Xml

open Text

/-- `written` is read as the single character `c`, whatever stands around it. -/
def Stands (written : List Char) (c : Char) : Prop :=
  written = [c] ∧ c ≠ '&' ∨
    ∃ name, written = '&' :: (name ++ [';']) ∧ (∀ d ∈ name, d ≠ '&' ∧ d ≠ ';') ∧
      ∀ start stop, referent start stop name = .ok c

theorem stands_escapeChar (c : Char) : Stands (escapeChar c) c := by
  unfold escapeChar
  split
  · exact .inr ⟨['l', 't'], rfl, by simp, fun _ _ => rfl⟩
  · exact .inr ⟨['g', 't'], rfl, by simp, fun _ _ => rfl⟩
  · exact .inr ⟨['a', 'm', 'p'], rfl, by simp, fun _ _ => rfl⟩
  · exact .inr ⟨['a', 'p', 'o', 's'], rfl, by simp, fun _ _ => rfl⟩
  · exact .inr ⟨['q', 'u', 'o', 't'], rfl, by simp, fun _ _ => rfl⟩
  · next hamp _ _ => exact .inl ⟨rfl, hamp⟩

/-- How `c` is written in an attribute value. -/
def escapeValueChar (c : Char) : List Char :=
  match c with
  | '\t' => "&#9;".toList
  | '\n' => "&#10;".toList
  | '\r' => "&#13;".toList
  | c => escapeChar c

theorem stands_escapeValueChar (c : Char) : Stands (escapeValueChar c) c := by
  unfold escapeValueChar
  split
  · exact .inr ⟨['#', '9'], rfl, by simp, fun _ _ => rfl⟩
  · exact .inr ⟨['#', '1', '0'], rfl, by simp, fun _ _ => rfl⟩
  · exact .inr ⟨['#', '1', '3'], rfl, by simp, fun _ _ => rfl⟩
  · exact stands_escapeChar c

theorem unescapeFrom_name {name : List Char} (hname : ∀ d ∈ name, d ≠ '&' ∧ d ≠ ';') {c : Char}
    (total : Nat) (done : List Char) (offset start : Nat) (seen rest : List Char)
    (hreferent : ∀ start stop, referent start stop (seen.reverse ++ name) = .ok c) :
    unescapeFrom total done offset (some ⟨start, seen⟩) (name ++ ';' :: rest) =
      unescapeFrom total (c :: done) (offset + Utf8.size name + 1) none rest := by
  -- The name is looked up only at the semicolon, with what was seen before.
  induction name generalizing offset seen with
  | nil =>
    rw [List.append_nil] at hreferent
    simp [unescapeFrom, hreferent]
  | cons d name ih =>
    obtain ⟨⟨hamp, hsemicolon⟩, hrest⟩ := List.forall_mem_cons.mp hname
    rw [List.cons_append, unescapeFrom, if_neg hamp, if_neg hsemicolon,
      ih hrest (offset + d.utf8Size) (d :: seen) (by simpa using hreferent), Utf8.size_cons]
    congr 1
    omega

theorem unescapeFrom_stands {written : List Char} {c : Char} (hstands : Stands written c)
    (total : Nat) (done : List Char) (offset : Nat) (rest : List Char) :
    unescapeFrom total done offset none (written ++ rest) =
      unescapeFrom total (c :: done) (offset + Utf8.size written) none rest := by
  rcases hstands with ⟨rfl, hplain⟩ | ⟨name, rfl, hname, hreferent⟩
  · simp [unescapeFrom, hplain]
  · have hread := unescapeFrom_name hname total done (offset + 1) offset [] rest hreferent
    rw [List.cons_append, List.append_assoc, List.singleton_append, unescapeFrom, if_pos rfl, hread]
    congr 1
    simp only [Utf8.size_cons, Utf8.size_append, Utf8.size_nil]
    change offset + 1 + Utf8.size name + 1 = offset + (1 + (Utf8.size name + (1 + 0)))
    omega

/-- Reading undoes every way of writing in which each character stands for itself. -/
theorem unescape_flatMap {write : Char → List Char} (hwrite : ∀ c, Stands (write c) c)
    (chars : List Char) : unescape (chars.flatMap write) = .ok chars := by
  have hfrom (total : Nat) (done : List Char) (offset : Nat) :
      unescapeFrom total done offset none (chars.flatMap write) = .ok (done.reverse ++ chars) := by
    induction chars generalizing done offset with
    | nil => simp [unescapeFrom]
    | cons c rest ih =>
      rw [List.flatMap_cons, unescapeFrom_stands (hwrite c), ih]
      simp
  exact hfrom _ [] 0

@[simp]
theorem unescape_escapeText (chars : List Char) : unescape (escapeText chars) = .ok chars :=
  unescape_flatMap stands_escapeChar chars

/-! ## The second pass -/

theorem flatMap_escapeBreak_escapeChar (c : Char) :
    (escapeChar c).flatMap escapeBreak = escapeValueChar c := by
  unfold escapeValueChar
  split
  · rfl
  · rfl
  · rfl
  -- No reference that the first pass writes has a break in it.
  · unfold escapeChar
    split
    · rfl
    · rfl
    · rfl
    · rfl
    · rfl
    · simp [escapeBreak]

/-- Two passes come to one. -/
theorem flatMap_escapeBreak_escapeText (chars : List Char) :
    (escapeText chars).flatMap escapeBreak = chars.flatMap escapeValueChar := by
  unfold escapeText
  rw [List.flatMap_assoc]
  simp only [flatMap_escapeBreak_escapeChar]

theorem escapeBreak_of_not_isBreak {c : Char} (hbreak : isBreak c = false) : escapeBreak c = [c] := by
  unfold escapeBreak
  split
  · cases hbreak
  · cases hbreak
  · cases hbreak
  · rfl

theorem flatMap_escapeBreak_eq_self {chars : List Char} (hbreak : chars.any isBreak = false) :
    chars.flatMap escapeBreak = chars := by
  rw [List.any_eq_false] at hbreak
  calc
    chars.flatMap escapeBreak = chars.flatMap fun c => [c] :=
      List.flatMap_congr fun c hmem => escapeBreak_of_not_isBreak (by simpa using hbreak c hmem)
    _ = chars := List.flatMap_singleton' chars

/-- Leaving out the second pass makes no difference where it is left out. -/
theorem escapeValue_eq_flatMap (chars : List Char) :
    escapeValue chars = chars.flatMap escapeValueChar := by
  rw [← flatMap_escapeBreak_escapeText]
  unfold escapeValue
  dsimp only
  split
  · rfl
  · next hbreak => rw [flatMap_escapeBreak_eq_self (by simpa using hbreak)]

example : escapeValue "&#10;\n".toList = "&amp;#10;&#10;".toList := by decide

@[simp]
theorem unescape_escapeValue (chars : List Char) : unescape (escapeValue chars) = .ok chars := by
  rw [escapeValue_eq_flatMap, unescape_flatMap stands_escapeValueChar]

/-! ## What is not written -/

/-- No markup character and no quote. -/
def isQuiet (c : Char) : Bool := c ≠ '<' && c ≠ '>' && c ≠ '"' && c ≠ '\x27'

theorem all_isQuiet_escapeChar (c : Char) : (escapeChar c).all isQuiet = true := by
  unfold escapeChar
  split
  · rfl
  · rfl
  · rfl
  · rfl
  · rfl
  · next hlt hgt _ hapos hquote =>
    simp only [isQuiet, List.all_cons, List.all_nil, Bool.and_true, Bool.and_eq_true,
      decide_eq_true_eq]
    exact ⟨⟨⟨hlt, hgt⟩, hquote⟩, hapos⟩

theorem isQuiet_of_mem_escapeText {chars : List Char} {d : Char} (hmem : d ∈ escapeText chars) :
    isQuiet d = true := by
  obtain ⟨c, -, hd⟩ := List.mem_flatMap.mp hmem
  exact List.all_eq_true.mp (all_isQuiet_escapeChar c) d hd

/-- The second pass puts in no character that the first one replaced. -/
theorem all_isQuiet_escapeBreak {c : Char} (hquiet : isQuiet c = true) :
    (escapeBreak c).all isQuiet = true := by
  unfold escapeBreak
  split
  · rfl
  · rfl
  · rfl
  · rw [List.all_cons, hquiet]
    rfl

theorem any_isBreak_escapeBreak (c : Char) : (escapeBreak c).any isBreak = false := by
  unfold escapeBreak
  split
  · rfl
  · rfl
  · rfl
  · next htab hfeed hreturn =>
    simp only [List.any_cons, List.any_nil, Bool.or_false, isBreak, Bool.or_eq_false_iff,
      decide_eq_false_iff_not]
    exact ⟨⟨htab, hfeed⟩, hreturn⟩

theorem of_mem_escapeValue {chars : List Char} {d : Char} (hmem : d ∈ escapeValue chars) :
    isQuiet d = true ∧ isBreak d = false := by
  rw [escapeValue_eq_flatMap, ← flatMap_escapeBreak_escapeText] at hmem
  obtain ⟨c, hc, hd⟩ := List.mem_flatMap.mp hmem
  have hquiet := all_isQuiet_escapeBreak (isQuiet_of_mem_escapeText hc)
  have hbreak := List.any_eq_false.mp (any_isBreak_escapeBreak c) d hd
  exact ⟨List.all_eq_true.mp hquiet d hd, Bool.eq_false_iff.mpr hbreak⟩

theorem ne_of_isQuiet {c : Char} (hquiet : isQuiet c = true) : c ≠ '<' ∧ c ≠ '>' ∧ c ≠ '"' := by
  simp only [isQuiet, Bool.and_eq_true, decide_eq_true_eq] at hquiet
  obtain ⟨⟨⟨hlt, hgt⟩, hquote⟩, -⟩ := hquiet
  exact ⟨hlt, hgt, hquote⟩

theorem ne_of_mem_escapeText {chars : List Char} {d : Char} (hmem : d ∈ escapeText chars) :
    d ≠ '<' ∧ d ≠ '>' ∧ d ≠ '"' :=
  ne_of_isQuiet (isQuiet_of_mem_escapeText hmem)

theorem ne_of_mem_escapeValue {chars : List Char} {d : Char} (hmem : d ∈ escapeValue chars) :
    d ≠ '<' ∧ d ≠ '>' ∧ d ≠ '"' :=
  ne_of_isQuiet (of_mem_escapeValue hmem).1

@[simp]
theorem escapeText_append (left right : List Char) :
    escapeText (left ++ right) = escapeText left ++ escapeText right := by
  simp [escapeText]

/-- No character vanishes in writing. -/
theorem escapeText_eq_nil_iff {chars : List Char} : escapeText chars = [] ↔ chars = [] := by
  constructor
  · intro hnil
    have hread := unescape_escapeText chars
    rw [hnil] at hread
    simpa [unescape, unescapeFrom] using hread.symm
  · rintro rfl
    rfl

theorem eq_nil_of_unescapeFrom {total : Nat} {done : List Char} {offset : Nat}
    {reference : Option OpenReference} {rest : List Char}
    (hread : unescapeFrom total done offset reference rest = .ok []) :
    done = [] ∧ reference = none ∧ rest = [] := by
  induction rest generalizing done offset reference with
  | nil =>
    cases reference with
    | none =>
      rw [unescapeFrom, Except.ok.injEq] at hread
      exact ⟨List.reverse_eq_nil_iff.mp hread, rfl, rfl⟩
    | some reference => cases hread
  | cons c rest ih =>
    cases reference with
    | none =>
      rw [unescapeFrom] at hread
      split at hread
      · cases (ih hread).2.1
      · cases (ih hread).1
    | some reference =>
      rw [unescapeFrom] at hread
      split at hread
      · cases hread
      split at hread
      · split at hread
        · cases hread
        · cases (ih hread).1
      · cases (ih hread).2.1

/-- No character vanishes in reading. -/
theorem unescape_eq_ok_nil_iff {chars : List Char} : unescape chars = .ok [] ↔ chars = [] := by
  constructor
  · intro hread
    exact (eq_nil_of_unescapeFrom hread).2.2
  · rintro rfl
    rfl

end CompatChanges.Xml
