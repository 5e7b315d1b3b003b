import CompatChanges.Proofs.Accepted
import CompatChanges.Proofs.Tag

/-!
# Quotes in a tag

The end of a tag is looked for with an eye on quotes only, wherever they stand, and its attributes are
read afterwards. Where no quote stands in a key the two agree on what is quoted, so no `>` stands in a
key.
-/

namespace CompatChanges.Xml

open Text

/-! ### Quotes -/

def IsQuoteOrNone (quote : Option Char) : Prop := ∀ q, quote = some q → isQuote q = true

theorem isQuoteOrNone_none : IsQuoteOrNone none := by
  intro q hq
  cases hq

theorem quoteAfter_of_not_isQuote {quote : Option Char} (hquote : IsQuoteOrNone quote) {c : Char}
    (hc : isQuote c = false) : quoteAfter quote c = quote := by
  cases quote with
  | none => simp [quoteAfter, hc]
  | some q =>
    have hne : c ≠ q := by
      rintro rfl
      rw [hquote c rfl] at hc
      cases hc
    simp [quoteAfter, hne]

theorem isQuoteOrNone_quoteAfter {quote : Option Char} (hquote : IsQuoteOrNone quote) (c : Char) :
    IsQuoteOrNone (quoteAfter quote c) := by
  intro q hq
  cases quote with
  | none =>
    by_cases hc : isQuote c = true
    · simp only [quoteAfter, if_pos hc, Option.some.injEq] at hq
      rwa [← hq]
    · simp [quoteAfter, hc] at hq
  | some p =>
    by_cases hc : c = p
    · simp [quoteAfter, hc] at hq
    · simp only [quoteAfter, if_neg hc] at hq
      exact hquote q hq

theorem isQuoteOrNone_foldl {quote : Option Char} (hquote : IsQuoteOrNone quote) (chars : List Char) :
    IsQuoteOrNone (chars.foldl quoteAfter quote) := by
  induction chars generalizing quote with
  | nil => exact hquote
  | cons c rest ih => exact ih (isQuoteOrNone_quoteAfter hquote c)

theorem isQuote_eq_false_of_isSeparator {c : Char} (hc : isSeparator c = true) : isQuote c = false := by
  rw [← Bool.not_eq_true]
  intro hquote
  simp only [isQuote, Bool.or_eq_true, decide_eq_true_eq] at hquote
  rcases hquote with rfl | rfl <;> exact absurd hc (by decide)

/-! ### One character of the attributes -/

/-- The key of the attribute under way, as far as it was read. -/
def AttributeStage.keySoFar? : AttributeStage → Option (List Char)
  | .beforeKey => none
  | .inKey _ seen => some seen.reverse
  | .afterKey key | .beforeValue key | .inValue key _ _ => some key.key

/-- The quote around what is read. -/
def AttributeStage.quote? : AttributeStage → Option Char
  | .inValue _ quote _ => some quote
  | _ => none

def AttributeStep.stage? : AttributeStep → Option AttributeStage
  | .next stage => some stage
  | .keyed key => some (.beforeValue key)
  | .complete _ => some .beforeKey
  | .refuse _ => none

def AttributeStep.completed : AttributeStep → List RawAttribute
  | .complete raw => [raw]
  | _ => []

/-- What a character can be to the key and to the quotes of an attribute. -/
inductive AttributeStage.Advance (stage : AttributeStage) (c : Char) :
    AttributeStage → List RawAttribute → Prop
  | pass {next : AttributeStage} (plain : isQuote c = false) (outside : stage.quote? = none)
      (outsideNext : next.quote? = none) (key : next.keySoFar? = stage.keySoFar?) :
      Advance stage c next []
  | spell {next : AttributeStage} (outside : stage.quote? = none) (outsideNext : next.quote? = none)
      (key : next.keySoFar? = some (stage.keySoFar?.getD [] ++ [c]))
      (form : (∀ key, stage.keySoFar? = some key → KeyForm key) →
        KeyForm (stage.keySoFar?.getD [] ++ [c])) : Advance stage c next []
  | opened {next : AttributeStage} (isQuote : isQuote c = true) (outside : stage.quote? = none)
      (inside : next.quote? = some c) (key : next.keySoFar? = stage.keySoFar?) :
      Advance stage c next []
  | value {next : AttributeStage} {quote : Char} (ne : c ≠ quote) (inside : stage.quote? = some quote)
      (insideNext : next.quote? = some quote) (key : next.keySoFar? = stage.keySoFar?) :
      Advance stage c next []
  | closed {raw : RawAttribute} (inside : stage.quote? = some c)
      (key : stage.keySoFar? = some raw.key) : Advance stage c .beforeKey [raw]

theorem keyForm_singleton {c : Char} (hseparator : isSeparator c = false) : KeyForm [c] :=
  ⟨c, [], rfl, hseparator, by simp⟩

theorem keyForm_concat {key : List Char} {c : Char} (hform : KeyForm key) (hequals : c ≠ '=')
    (hseparator : isSeparator c = false) : KeyForm (key ++ [c]) := by
  obtain ⟨first, rest, rfl, hfirst, hrest⟩ := hform
  refine ⟨first, rest ++ [c], rfl, hfirst, fun d hmem => ?_⟩
  rcases List.mem_append.mp hmem with hold | hlast
  · exact hrest d hold
  · rw [List.mem_singleton.mp hlast]
    exact ⟨hequals, hseparator⟩

namespace AttributeStage

variable {stage next : AttributeStage} {offset : Nat} {c : Char} {completed : List RawAttribute}

theorem advance_step (hstep : (stage.step offset c).stage? = some next) :
    stage.Advance c next (stage.step offset c).completed := by
  have hequals : isQuote '=' = false := by decide
  cases stage with
  | beforeKey =>
    cases hstep
    by_cases hseparator : isSeparator c = true
    · rw [if_pos hseparator]
      exact .pass (isQuote_eq_false_of_isSeparator hseparator) rfl rfl rfl
    · rw [if_neg hseparator]
      exact .spell rfl rfl rfl fun _ => keyForm_singleton (by simpa using hseparator)
  | inKey start seen =>
    by_cases hc : c = '='
    · subst hc
      cases hstep
      exact .pass hequals rfl rfl rfl
    · simp only [step, if_neg hc] at hstep ⊢
      cases hstep
      by_cases hseparator : isSeparator c = true
      · rw [if_pos hseparator]
        exact .pass (isQuote_eq_false_of_isSeparator hseparator) rfl rfl rfl
      · rw [if_neg hseparator]
        have hkey : (inKey start (c :: seen)).keySoFar? = some (seen.reverse ++ [c]) := by
          simp [keySoFar?]
        exact .spell rfl rfl hkey fun hform =>
          keyForm_concat (hform _ rfl) hc (by simpa using hseparator)
  | afterKey key =>
    by_cases hseparator : isSeparator c = true
    · simp only [step, if_pos hseparator] at hstep ⊢
      cases hstep
      exact .pass (isQuote_eq_false_of_isSeparator hseparator) rfl rfl rfl
    · by_cases hc : c = '='
      · subst hc
        cases hstep
        exact .pass hequals rfl rfl rfl
      · simp only [step, if_neg hseparator, if_neg hc] at hstep
        cases hstep
  | beforeValue key =>
    by_cases hseparator : isSeparator c = true
    · simp only [step, if_pos hseparator] at hstep ⊢
      cases hstep
      exact .pass (isQuote_eq_false_of_isSeparator hseparator) rfl rfl rfl
    · by_cases hc : isQuote c = true
      · simp only [step, if_neg hseparator, if_pos hc] at hstep ⊢
        cases hstep
        exact .opened hc rfl rfl rfl
      · simp only [step, if_neg hseparator, if_neg hc] at hstep
        cases hstep
  | inValue key quote seen =>
    by_cases hc : c = quote
    · subst hc
      simp only [step, if_true] at hstep ⊢
      cases hstep
      exact .closed rfl rfl
    · simp only [step, if_neg hc] at hstep ⊢
      cases hstep
      exact .value hc rfl rfl rfl

/-- Quotes are where they are looked for if and only if they were so before. -/
theorem Advance.quoteAfter_eq_iff (hadvance : stage.Advance c next completed)
    (hstage : IsQuoteOrNone stage.quote?) (hkey : ∀ key, next.keySoFar? = some key → Unquoted key)
    {quote : Option Char} (hquote : IsQuoteOrNone quote) :
    quoteAfter quote c = next.quote? ↔ quote = stage.quote? := by
  cases hadvance with
  | pass plain outside outsideNext key =>
    rw [quoteAfter_of_not_isQuote hquote plain, outside, outsideNext]
  | spell outside outsideNext key form =>
    have hplain : isQuote c = false := hkey _ key c (by simp)
    rw [quoteAfter_of_not_isQuote hquote hplain, outside, outsideNext]
  | opened isQuote outside inside key =>
    rw [outside, inside]
    cases quote with
    | none => simp [quoteAfter, isQuote]
    | some q =>
      by_cases hq : c = q
      · simp [quoteAfter, hq]
      · simp [quoteAfter, hq, Ne.symm hq]
  | value ne inside insideNext key =>
    rw [inside, insideNext]
    cases quote with
    | none =>
      by_cases hc : isQuote c = true
      · simp [quoteAfter, hc, ne]
      · simp [quoteAfter, hc]
    | some q =>
      by_cases hq : c = q
      · subst hq
        simp [quoteAfter, ne]
      · simp [quoteAfter, hq]
  | closed inside key =>
    have hc : isQuote c = true := hstage c inside
    rw [inside]
    change quoteAfter quote c = none ↔ quote = some c
    cases quote with
    | none => simp [quoteAfter, hc]
    | some q =>
      by_cases hq : c = q
      · simp [quoteAfter, hq]
      · simp [quoteAfter, hq, Ne.symm hq]

theorem Advance.isQuoteOrNone (hadvance : stage.Advance c next completed)
    (hstage : IsQuoteOrNone stage.quote?) : IsQuoteOrNone next.quote? := by
  intro q hq
  cases hadvance with
  | pass plain outside outsideNext key =>
    rw [outsideNext] at hq
    cases hq
  | spell outside outsideNext key form =>
    rw [outsideNext] at hq
    cases hq
  | opened isQuote outside inside key =>
    rw [inside] at hq
    cases hq
    exact isQuote
  | value ne inside insideNext key => exact hstage q (inside.trans (insideNext.symm.trans hq))
  | closed inside key => cases hq

/-- What was read of a key is as it should be. -/
structure Sound (stage : AttributeStage) : Prop where
  isQuoteOrNone : IsQuoteOrNone stage.quote?
  key : ∀ key, stage.keySoFar? = some key → KeyForm key ∧ '>' ∉ key

theorem sound_beforeKey : beforeKey.Sound where
  isQuoteOrNone := isQuoteOrNone_none
  key := by
    intro key hkey
    cases hkey

/-- A key stays sound as long as no `>` comes outside quotes. -/
theorem Advance.sound (hadvance : stage.Advance c next completed) (hstage : stage.Sound)
    (hclose : c = '>' → stage.quote? ≠ none) : next.Sound := by
  refine ⟨hadvance.isQuoteOrNone hstage.isQuoteOrNone, ?_⟩
  intro key hkey
  cases hadvance with
  | pass plain outside outsideNext same => exact hstage.key key (same.symm.trans hkey)
  | spell outside outsideNext longer form =>
    rw [longer] at hkey
    cases hkey
    have hold : '>' ∉ stage.keySoFar?.getD [] := by
      cases hkey : stage.keySoFar? with
      | none => simp
      | some key => exact (hstage.key key hkey).2
    have hne : c ≠ '>' := fun hc => hclose hc outside
    exact ⟨form fun key hkey => (hstage.key key hkey).1, by simp [hold, Ne.symm hne]⟩
  | opened isQuote outside inside same => exact hstage.key key (same.symm.trans hkey)
  | value ne inside insideNext same => exact hstage.key key (same.symm.trans hkey)
  | closed inside whole => cases hkey

end AttributeStage

/-! ### All characters of the attributes -/

section

variable {distinct : Bool} {earlier : List PlacedKey} {stage : AttributeStage} {offset : Nat}
  {c : Char} {chars rest : List Char} {raws : List RawAttribute}

theorem exists_step_of_attributesFrom
    (hread : attributesFrom distinct earlier stage offset (c :: rest) = raws.map .ok) :
    ∃ next others later, (stage.step offset c).stage? = some next ∧
      raws = (stage.step offset c).completed ++ later ∧
      attributesFrom distinct others next (offset + c.utf8Size) rest = later.map .ok := by
  rw [attributesFrom] at hread
  cases hstep : stage.step offset c with
  | next next =>
    rw [hstep] at hread
    exact ⟨next, earlier, raws, rfl, rfl, hread⟩
  | keyed key =>
    rw [hstep] at hread
    dsimp only at hread
    split at hread
    · exact absurd hread (error_cons_ne_map_ok raws)
    · exact ⟨.beforeValue key, _, raws, rfl, rfl, hread⟩
  | complete raw =>
    rw [hstep] at hread
    cases raws with
    | nil => cases hread
    | cons first later =>
      obtain ⟨hfirst, hlater⟩ := List.cons.inj hread
      cases hfirst
      exact ⟨.beforeKey, earlier, later, rfl, rfl, hlater⟩
  | refuse fault =>
    rw [hstep] at hread
    exact absurd hread (error_cons_ne_map_ok raws)

theorem exists_advance_of_attributesFrom
    (hread : attributesFrom distinct earlier stage offset (c :: rest) = raws.map .ok) :
    ∃ next completed others later, stage.Advance c next completed ∧ raws = completed ++ later ∧
      attributesFrom distinct others next (offset + c.utf8Size) rest = later.map .ok := by
  obtain ⟨next, others, later, hstep, hraws, hlater⟩ := exists_step_of_attributesFrom hread
  exact ⟨next, _, others, later, AttributeStage.advance_step hstep, hraws, hlater⟩

theorem eq_beforeKey_of_attributesFrom
    (hread : attributesFrom distinct earlier stage offset [] = raws.map .ok) :
    stage = .beforeKey ∧ raws = [] := by
  cases stage with
  | beforeKey =>
    refine ⟨rfl, List.map_eq_nil_iff.mp hread.symm⟩
  | inKey start seen => exact absurd hread (error_cons_ne_map_ok raws)
  | afterKey key => exact absurd hread (error_cons_ne_map_ok raws)
  | beforeValue key => exact absurd hread (error_cons_ne_map_ok raws)
  | inValue key quote seen => exact absurd hread (error_cons_ne_map_ok raws)

/-- A key under way becomes the key of an attribute. -/
theorem unquoted_keySoFar
    (hread : attributesFrom distinct earlier stage offset chars = raws.map .ok)
    (hunquoted : ∀ raw ∈ raws, Unquoted raw.key) :
    ∀ key, stage.keySoFar? = some key → Unquoted key := by
  induction chars generalizing stage earlier offset raws with
  | nil =>
    obtain ⟨rfl, -⟩ := eq_beforeKey_of_attributesFrom hread
    intro key hkey
    cases hkey
  | cons c rest ih =>
    obtain ⟨next, completed, others, later, hadvance, rfl, hlater⟩ :=
      exists_advance_of_attributesFrom hread
    have hnext := ih hlater fun raw hmem => hunquoted raw (List.mem_append_right _ hmem)
    intro key hkey
    cases hadvance with
    | pass plain outside outsideNext same => exact hnext key (same.trans hkey)
    | spell outside outsideNext longer form =>
      rw [hkey] at longer
      exact fun d hmem => hnext _ longer d (List.mem_append_left _ hmem)
    | opened isQuote outside inside same => exact hnext key (same.trans hkey)
    | value ne inside insideNext same => exact hnext key (same.trans hkey)
    | @closed raw inside whole =>
      rw [whole] at hkey
      cases hkey
      exact hunquoted raw (by simp)

/-- When the attributes are read, all quotes are closed if and only if they were where they are
looked for. -/
theorem foldl_quoteAfter_eq_none_iff
    (hread : attributesFrom distinct earlier stage offset chars = raws.map .ok)
    (hunquoted : ∀ raw ∈ raws, Unquoted raw.key) (hstage : IsQuoteOrNone stage.quote?)
    {quote : Option Char} (hquote : IsQuoteOrNone quote) :
    chars.foldl quoteAfter quote = none ↔ quote = stage.quote? := by
  induction chars generalizing stage earlier offset raws quote with
  | nil =>
    obtain ⟨rfl, -⟩ := eq_beforeKey_of_attributesFrom hread
    rfl
  | cons c rest ih =>
    obtain ⟨next, completed, others, later, hadvance, rfl, hlater⟩ :=
      exists_advance_of_attributesFrom hread
    have hlaterUnquoted : ∀ raw ∈ later, Unquoted raw.key := fun raw hmem =>
      hunquoted raw (List.mem_append_right _ hmem)
    have hkey := unquoted_keySoFar hlater hlaterUnquoted
    rw [List.foldl_cons, ih hlater hlaterUnquoted (hadvance.isQuoteOrNone hstage)
      (isQuoteOrNone_quoteAfter hquote c)]
    exact hadvance.quoteAfter_eq_iff hstage hkey hquote

/-- Keys without quotes, in a tag that no `>` outside quotes has ended. -/
theorem isKey_of_attributesFrom
    (hread : attributesFrom distinct earlier stage offset chars = raws.map .ok)
    (hunquoted : ∀ raw ∈ raws, Unquoted raw.key) (hstage : stage.Sound)
    (hopen : ∀ front back, chars = front ++ '>' :: back →
      front.foldl quoteAfter stage.quote? ≠ none) :
    ∀ raw ∈ raws, IsKey raw.key := by
  induction chars generalizing stage earlier offset raws with
  | nil =>
    obtain ⟨-, rfl⟩ := eq_beforeKey_of_attributesFrom hread
    simp
  | cons c rest ih =>
    obtain ⟨next, completed, others, later, hadvance, rfl, hlater⟩ :=
      exists_advance_of_attributesFrom hread
    have hlaterUnquoted : ∀ raw ∈ later, Unquoted raw.key := fun raw hmem =>
      hunquoted raw (List.mem_append_right _ hmem)
    have hkey := unquoted_keySoFar hlater hlaterUnquoted
    have hquote : quoteAfter stage.quote? c = next.quote? :=
      (hadvance.quoteAfter_eq_iff hstage.isQuoteOrNone hkey hstage.isQuoteOrNone).mpr rfl
    have hnext : next.Sound := by
      apply hadvance.sound hstage
      rintro rfl
      exact hopen [] rest rfl
    have hrest : ∀ raw ∈ later, IsKey raw.key := by
      apply ih hlater hlaterUnquoted hnext
      intro front back hsplit
      have hfront := hopen (c :: front) back (by rw [hsplit]; rfl)
      rwa [List.foldl_cons, hquote] at hfront
    intro raw hmem
    rcases List.mem_append.mp hmem with hdone | hlast
    · cases hadvance with
      | pass | spell | opened | value => cases hdone
      | closed inside whole =>
        rw [List.mem_singleton] at hdone
        subst hdone
        obtain ⟨hform, hunclosed⟩ := hstage.key _ whole
        exact ⟨hform, hunquoted _ hmem, hunclosed⟩
    · exact hrest raw hlast

end

end CompatChanges.Xml
