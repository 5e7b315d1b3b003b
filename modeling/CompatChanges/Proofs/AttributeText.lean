import CompatChanges.Proofs.Spelling

/-!
# Attributes as they are written

In a tag an attribute is a key, an equals sign and a value in quotes, with separators before the key
and around the equals sign. Reading takes the text of a tag apart at just these places: the texts of
the attributes that are read, one after the other, are what was read.
-/

namespace CompatChanges.Xml

open Text

def IsGap (chars : List Char) : Prop := ∀ c ∈ chars, isSeparator c = true

theorem isGap_nil : IsGap [] := List.forall_mem_nil _

theorem IsGap.concat {chars : List Char} (hgap : IsGap chars) {c : Char}
    (hseparator : isSeparator c = true) : IsGap (chars ++ [c]) :=
  List.forall_mem_append.mpr ⟨hgap, List.forall_mem_singleton.mpr hseparator⟩

/-- An attribute as it stands in a tag, and the separators before it. -/
structure AttributeText where
  gap : List Char
  key : List Char
  beforeEquals : List Char
  afterEquals : List Char
  quote : Char
  value : List Char
  isGap : IsGap gap
  keyForm : KeyForm key
  isGap_beforeEquals : IsGap beforeEquals
  isGap_afterEquals : IsGap afterEquals
  isQuote : isQuote quote = true
  not_mem : quote ∉ value

namespace AttributeText

/-- What stands between the key and the value. -/
def setting (text : AttributeText) : List Char :=
  text.beforeEquals ++ '=' :: (text.afterEquals ++ [text.quote])

/-- The attribute from its key to its last quote. -/
def body (text : AttributeText) : List Char :=
  text.key ++ text.setting ++ text.value ++ [text.quote]

def source (text : AttributeText) : List Char := text.gap ++ text.body

def raw (text : AttributeText) : RawAttribute := ⟨text.key, text.value⟩

end AttributeText

namespace AttributeStage

/-- What was read since the last attribute when a reading is at a stage. -/
inductive After : AttributeStage → List Char → Prop
  | beforeKey {gap : List Char} (isGap : IsGap gap) : After .beforeKey gap
  | inKey {gap seen : List Char} {start : Nat} (isGap : IsGap gap) (keyForm : KeyForm seen.reverse) :
      After (.inKey start seen) (gap ++ seen.reverse)
  | afterKey {gap before : List Char} {key : PlacedKey} (isGap : IsGap gap)
      (keyForm : KeyForm key.key) (isGap_before : IsGap before) :
      After (.afterKey key) (gap ++ key.key ++ before)
  | beforeValue {gap before after : List Char} {key : PlacedKey} (isGap : IsGap gap)
      (keyForm : KeyForm key.key) (isGap_before : IsGap before) (isGap_after : IsGap after) :
      After (.beforeValue key) (gap ++ key.key ++ before ++ '=' :: after)
  | inValue {gap before after seen : List Char} {key : PlacedKey} {quote : Char} (isGap : IsGap gap)
      (keyForm : KeyForm key.key) (isGap_before : IsGap before) (isGap_after : IsGap after)
      (isQuote : isQuote quote = true) (not_mem : quote ∉ seen) :
      After (.inValue key quote seen)
        (gap ++ key.key ++ before ++ '=' :: (after ++ quote :: seen.reverse))

variable {stage next : AttributeStage} {offset : Nat} {c : Char} {seen : List Char}

/-- A character that completes nothing continues what was read. -/
theorem After.of_eq {rest : List Char} (hafter : next.After rest) (hrest : seen ++ [c] = rest) :
    ∃ (texts : List AttributeText) (rest : List Char),
      seen ++ [c] = texts.flatMap AttributeText.source ++ rest ∧
      [] = texts.map AttributeText.raw ∧ next.After rest :=
  ⟨[], rest, hrest, rfl, hafter⟩

theorem After.step (hafter : stage.After seen) (hstep : (stage.step offset c).stage? = some next) :
    ∃ (texts : List AttributeText) (rest : List Char),
      seen ++ [c] = texts.flatMap AttributeText.source ++ rest ∧
      (stage.step offset c).completed = texts.map AttributeText.raw ∧ next.After rest := by
  cases hafter with
  | beforeKey isGap =>
    cases hstep
    by_cases hseparator : isSeparator c = true
    · rw [if_pos hseparator]
      exact (After.beforeKey (isGap.concat hseparator)).of_eq rfl
    · rw [if_neg hseparator]
      have hnext : After (.inKey offset [c]) (seen ++ [c]) :=
        .inKey isGap (keyForm_singleton (by simpa using hseparator))
      exact hnext.of_eq rfl
  | @inKey gap seen start isGap keyForm =>
    by_cases hc : c = '='
    · subst hc
      cases hstep
      have hnext : After (.beforeValue ⟨seen.reverse, start⟩) (gap ++ seen.reverse ++ [] ++ ['=']) :=
        .beforeValue isGap keyForm isGap_nil isGap_nil
      exact hnext.of_eq (by simp)
    · simp only [AttributeStage.step, if_neg hc] at hstep ⊢
      cases hstep
      by_cases hseparator : isSeparator c = true
      · rw [if_pos hseparator]
        have hnext : After (.afterKey ⟨seen.reverse, start⟩) (gap ++ seen.reverse ++ [c]) :=
          .afterKey isGap keyForm (isGap_nil.concat hseparator)
        exact hnext.of_eq rfl
      · rw [if_neg hseparator]
        have hkey : KeyForm (c :: seen).reverse := by
          rw [List.reverse_cons]
          exact keyForm_concat keyForm hc (by simpa using hseparator)
        exact (After.inKey isGap hkey).of_eq (by simp)
  | @afterKey gap before key isGap keyForm isGap_before =>
    by_cases hseparator : isSeparator c = true
    · simp only [AttributeStage.step, if_pos hseparator] at hstep ⊢
      cases hstep
      exact (After.afterKey isGap keyForm (isGap_before.concat hseparator)).of_eq (by simp)
    · by_cases hc : c = '='
      · subst hc
        cases hstep
        exact (After.beforeValue isGap keyForm isGap_before isGap_nil).of_eq rfl
      · simp only [AttributeStage.step, if_neg hseparator, if_neg hc] at hstep
        cases hstep
  | @beforeValue gap before after key isGap keyForm isGap_before isGap_after =>
    by_cases hseparator : isSeparator c = true
    · simp only [AttributeStage.step, if_pos hseparator] at hstep ⊢
      cases hstep
      exact (After.beforeValue isGap keyForm isGap_before
        (isGap_after.concat hseparator)).of_eq (by simp)
    · by_cases hquote : CompatChanges.Xml.isQuote c = true
      · simp only [AttributeStage.step, if_neg hseparator, if_pos hquote] at hstep ⊢
        cases hstep
        exact (After.inValue isGap keyForm isGap_before isGap_after hquote List.not_mem_nil).of_eq
          (by simp)
      · simp only [AttributeStage.step, if_neg hseparator, if_neg hquote] at hstep
        cases hstep
  | @inValue gap before after seen key quote isGap keyForm isGap_before isGap_after isQuote not_mem =>
    by_cases hc : c = quote
    · subst hc
      simp only [AttributeStage.step, if_true] at hstep ⊢
      cases hstep
      let text : AttributeText :=
        ⟨gap, key.key, before, after, c, seen.reverse, isGap, keyForm, isGap_before, isGap_after,
          isQuote, by simpa using not_mem⟩
      refine ⟨[text], [], ?_, rfl, .beforeKey isGap_nil⟩
      simp [text, AttributeText.source, AttributeText.body, AttributeText.setting]
    · simp only [AttributeStage.step, if_neg hc] at hstep ⊢
      cases hstep
      have hnot : quote ∉ c :: seen := by
        rw [List.mem_cons, not_or]
        exact ⟨Ne.symm hc, not_mem⟩
      exact (After.inValue isGap keyForm isGap_before isGap_after isQuote hnot).of_eq (by simp)

end AttributeStage

section

variable {distinct : Bool} {earlier : List PlacedKey} {stage : AttributeStage} {offset : Nat}
  {seen chars : List Char} {raws : List RawAttribute}

theorem exists_texts_of_after (hafter : stage.After seen)
    (hread : attributesFrom distinct earlier stage offset chars = raws.map .ok) :
    ∃ (texts : List AttributeText) (blanks : List Char),
      seen ++ chars = texts.flatMap AttributeText.source ++ blanks ∧ IsGap blanks ∧
        raws = texts.map AttributeText.raw := by
  induction chars generalizing stage earlier offset seen raws with
  | nil =>
    obtain ⟨rfl, rfl⟩ := eq_beforeKey_of_attributesFrom hread
    cases hafter with
    | beforeKey isGap => exact ⟨[], seen, List.append_nil seen, isGap, rfl⟩
  | cons c rest ih =>
    obtain ⟨next, others, later, hstep, rfl, hlater⟩ := exists_step_of_attributesFrom hread
    obtain ⟨texts, begun, hseen, hcompleted, hnext⟩ := hafter.step hstep
    obtain ⟨more, blanks, hmore, hblanks, rfl⟩ := ih hnext hlater
    refine ⟨texts ++ more, blanks, ?_, hblanks, ?_⟩
    · calc seen ++ c :: rest
          = seen ++ [c] ++ rest := by simp
        _ = texts.flatMap AttributeText.source ++ (begun ++ rest) := by
          rw [hseen, List.append_assoc]
        _ = _ := by rw [hmore, List.flatMap_append, List.append_assoc]
    · rw [hcompleted, List.map_append]

/-- What follows the name of a tag is the texts of its attributes. -/
theorem exists_texts_of_rawAttributes {content : List Char}
    (hread : rawAttributes distinct content = raws.map .ok) :
    ∃ (texts : List AttributeText) (blanks : List Char),
      content.drop (tagName content).length = texts.flatMap AttributeText.source ++ blanks ∧
        IsGap blanks ∧ raws = texts.map AttributeText.raw :=
  exists_texts_of_after (.beforeKey isGap_nil) hread

end

end CompatChanges.Xml
