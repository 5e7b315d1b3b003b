import CompatChanges.Proofs.Escape
import CompatChanges.Xml.Layout

/-!
# References in what is written

An ampersand is never written for itself: each begins a reference that the writer put there, and is read
as part of it, also when the value that is written looks like references.
-/

namespace CompatChanges.Xml

open Text

/-- Every `&` in `chars` begins a reference by one of `names`. -/
def RefersBy (names : List String) (chars : List Char) : Prop :=
  ∀ after, '&' :: after <:+ chars → ∃ name ∈ names, name.toList ++ [';'] <+: after

section

variable {names : List String}

theorem refersBy_nil : RefersBy names [] := by
  intro after hsuffix
  cases List.suffix_nil.mp hsuffix

theorem refersBy_cons {c : Char} {rest : List Char} :
    RefersBy names (c :: rest) ↔
      (c = '&' → ∃ name ∈ names, name.toList ++ [';'] <+: rest) ∧ RefersBy names rest := by
  constructor
  · intro hrefers
    constructor
    · rintro rfl
      exact hrefers rest List.suffix_rfl
    · intro after hsuffix
      exact hrefers after (hsuffix.trans (List.suffix_cons c rest))
  · rintro ⟨hfirst, hrest⟩ after hsuffix
    rcases List.suffix_cons_iff.mp hsuffix with heq | hlater
    · cases heq
      exact hfirst rfl
    · exact hrest after hlater

theorem refersBy_of_not_mem {chars : List Char} (hplain : '&' ∉ chars) : RefersBy names chars := by
  intro after hsuffix
  exact absurd (hsuffix.subset List.mem_cons_self) hplain

/-- A whole reference stays one, whatever follows it. -/
theorem RefersBy.append {left right : List Char} (hleft : RefersBy names left)
    (hright : RefersBy names right) : RefersBy names (left ++ right) := by
  induction left with
  | nil => exact hright
  | cons c rest ih =>
    obtain ⟨hfirst, hrest⟩ := refersBy_cons.mp hleft
    refine refersBy_cons.mpr ⟨?_, ih hrest⟩
    intro hamp
    obtain ⟨name, hname, hprefix⟩ := hfirst hamp
    exact ⟨name, hname, hprefix.trans (List.prefix_append rest right)⟩

theorem refersBy_flatMap {write : Char → List Char} (hwrite : ∀ c, RefersBy names (write c))
    (chars : List Char) : RefersBy names (chars.flatMap write) := by
  induction chars with
  | nil => exact refersBy_nil
  | cons c rest ih =>
    rw [List.flatMap_cons]
    exact (hwrite c).append ih

theorem refersBy_reference {name : String} (hname : name ∈ names) (hplain : '&' ∉ name.toList) :
    RefersBy names ('&' :: (name.toList ++ [';'])) := by
  refine refersBy_cons.mpr ⟨fun _ => ⟨name, hname, List.prefix_rfl⟩, refersBy_of_not_mem ?_⟩
  simpa using hplain

end

/-- The references that stand in attribute values. -/
def valueReferences : List String := ["lt", "gt", "amp", "apos", "quot", "#9", "#10", "#13"]

theorem refersBy_escapeValueChar (c : Char) : RefersBy valueReferences (escapeValueChar c) := by
  have hplain : ∀ name ∈ valueReferences, '&' ∉ name.toList := by decide
  have hreference (name : String) (hname : name ∈ valueReferences) :
      RefersBy valueReferences ('&' :: (name.toList ++ [';'])) :=
    refersBy_reference hname (hplain name hname)
  unfold escapeValueChar
  split
  · exact hreference "#9" (by decide)
  · exact hreference "#10" (by decide)
  · exact hreference "#13" (by decide)
  unfold escapeChar
  split
  · exact hreference "lt" (by decide)
  · exact hreference "gt" (by decide)
  · exact hreference "amp" (by decide)
  · exact hreference "apos" (by decide)
  · exact hreference "quot" (by decide)
  · next hamp _ _ =>
    apply refersBy_of_not_mem
    rw [List.mem_singleton]
    exact Ne.symm hamp

theorem any_isBreak_escapeText_eq_false_iff {chars : List Char} :
    (escapeText chars).any isBreak = false ↔ escapeText chars = chars.flatMap escapeValueChar := by
  constructor
  · intro hbreak
    rw [← flatMap_escapeBreak_escapeText, flatMap_escapeBreak_eq_self hbreak]
  · intro hsame
    rw [hsame, ← escapeValue_eq_flatMap, List.any_eq_false]
    intro c hmem
    rw [(of_mem_escapeValue hmem).2]
    exact Bool.false_ne_true

/-- An attribute value is written without any character that would end it, begin a tag or be changed by
a reader; what is written is the substitution of each character alone, whether the second pass is made
or not, and is read as the value. Text is written without the beginning of a tag, and read as it was. -/
theorem escaping_exact (value content : String) :
    (∀ c ∈ escapeValue value.toList, c ∉ ['<', '>', '"', '\x27', '\t', '\n', '\r']) ∧
      RefersBy valueReferences (escapeValue value.toList) ∧
      ((escapeText value.toList).any isBreak = false ↔
        escapeText value.toList = value.toList.flatMap escapeValueChar) ∧
      (escapeText value.toList).flatMap escapeBreak = value.toList.flatMap escapeValueChar ∧
      escapeValue value.toList = value.toList.flatMap escapeValueChar ∧
      unescape (escapeValue value.toList) = .ok value.toList ∧
      '<' ∉ (Token.text content).source ∧
      unescape (Token.text content).source = .ok content.toList := by
  refine ⟨?_, ?_, any_isBreak_escapeText_eq_false_iff, flatMap_escapeBreak_escapeText _,
    escapeValue_eq_flatMap _, unescape_escapeValue _, ?_, unescape_escapeText _⟩
  · intro c hmem
    obtain ⟨hquiet, hbreak⟩ := of_mem_escapeValue hmem
    simp_all [isQuiet, isBreak]
  · rw [escapeValue_eq_flatMap]
    exact refersBy_flatMap refersBy_escapeValueChar _
  · intro hmem
    exact (ne_of_mem_escapeText hmem).1 rfl

end CompatChanges.Xml
