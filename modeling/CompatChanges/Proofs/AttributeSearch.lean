import CompatChanges.Proofs.AttributeText
import CompatChanges.Proofs.Extent

/-!
# Where attributes are looked for

The span of an attribute is found by a search for its name in the tag. The search goes on from as many
bytes after the name of the attribute before as that has in its value, which is too soon: the equals
sign and the quotes do not count. So a name can be found in the value before it, and a search that
would start inside a character is given up, with all that come after it.
-/

namespace CompatChanges

namespace Text.Utf8

theorem eq_nil_of_size {chars : List Char} (hsize : size chars = 0) : chars = [] := by
  cases chars with
  | nil => rfl
  | cons c rest =>
    have hc := c.utf8Size_pos
    rw [size_cons] at hsize
    omega

/-- Of two beginnings of a text the one of fewer bytes is a beginning of the other. -/
theorem exists_append_of_size_le {left right front back : List Char}
    (hsame : left ++ front = right ++ back) (hle : size left ≤ size right) :
    ∃ middle, right = left ++ middle ∧ front = middle ++ back := by
  rcases List.append_eq_append_iff.mp hsame with ⟨middle, hright, hfront⟩ | ⟨middle, hleft, hback⟩
  · exact ⟨middle, hright, hfront⟩
  · have hmiddle : middle = [] := by
      rw [hleft, size_append] at hle
      exact eq_nil_of_size (by omega)
    subst hmiddle
    exact ⟨[], by simpa using hleft.symm, by simpa using hback.symm⟩

end Text.Utf8

namespace Xml

open Text

/-! ### Searching -/

/-- After `lead` the key does not occur sooner than in its place. -/
def ComesFirst (key lead : List Char) : Prop :=
  ∀ left right, lead ++ key = left ++ (key ++ right) → right = []

theorem comesFirst_of_isGap {key gap : List Char} (hform : KeyForm key) (hgap : IsGap gap) :
    ComesFirst key gap := by
  obtain ⟨first, rest, rfl, hfirst, -⟩ := hform
  intro left right hsame
  cases right with
  | nil => rfl
  | cons c more =>
    -- Sooner than in its place the key would begin with one of the separators.
    have hlength := congrArg List.length hsame
    simp only [List.length_append, List.length_cons] at hlength
    have hat := congrArg (·[left.length]?) hsame
    rw [List.getElem?_append_left (by omega), List.getElem?_append_right (Nat.le_refl _)] at hat
    simp only [Nat.sub_self, List.cons_append, List.getElem?_cons_zero] at hat
    rw [hgap first (List.mem_of_getElem? hat)] at hfirst
    cases hfirst

namespace Cursor

theorem exists_of_after? {size offset : Nat} {rest : List Char} {cursor : Cursor}
    (hafter : after? size offset rest = some cursor) :
    ∃ passed, rest = passed ++ cursor.rest ∧ Utf8.size passed = size ∧
      cursor.offset = offset + size := by
  induction rest generalizing size offset with
  | nil =>
    rw [after?] at hafter
    split at hafter
    · next hsize =>
      cases hafter
      exact ⟨[], rfl, hsize.symm, by rw [hsize]; rfl⟩
    · cases hafter
  | cons c later ih =>
    rw [after?] at hafter
    split at hafter
    · next hsize =>
      cases hafter
      exact ⟨[], rfl, hsize.symm, by rw [hsize]; rfl⟩
    · split at hafter
      · cases hafter
      · next hsize hle =>
        obtain ⟨passed, rfl, hpassed, hoffset⟩ := ih hafter
        refine ⟨c :: passed, rfl, ?_, ?_⟩
        · rw [Utf8.size_cons]
          omega
        · omega

theorem exists_of_find? {target rest : List Char} {offset : Nat} {cursor : Cursor}
    (hfind : find? target offset rest = some cursor) :
    ∃ passed, rest = passed ++ cursor.rest ∧ cursor.offset = offset + Utf8.size passed ∧
      target <+: cursor.rest := by
  induction rest generalizing offset with
  | nil =>
    unfold find? at hfind
    split at hfind
    · next hprefix =>
      cases hfind
      exact ⟨[], rfl, rfl, List.isPrefixOf_iff_prefix.mp hprefix⟩
    · cases hfind
  | cons c later ih =>
    unfold find? at hfind
    split at hfind
    · next hprefix =>
      cases hfind
      exact ⟨[], rfl, rfl, List.isPrefixOf_iff_prefix.mp hprefix⟩
    · obtain ⟨passed, rfl, hoffset, hprefix⟩ := ih hfind
      refine ⟨c :: passed, rfl, ?_, hprefix⟩
      rw [hoffset, Utf8.size_cons, Nat.add_assoc]

theorem after?_append (offset : Nat) (passed rest : List Char) :
    after? (Utf8.size passed) offset (passed ++ rest) =
      some ⟨offset + Utf8.size passed, rest⟩ := by
  induction passed generalizing offset with
  | nil => cases rest <;> rfl
  | cons c more ih =>
    have hc := c.utf8Size_pos
    rw [List.cons_append, after?, Utf8.size_cons, if_neg (by omega), if_neg (by omega),
      Nat.add_sub_cancel_left, ih, Nat.add_assoc]

/-- What occurs is found, where it occurs first. -/
theorem exists_find?_eq_some (key lead tail : List Char) (offset : Nat) :
    ∃ passed rest, lead ++ (key ++ tail) = passed ++ (key ++ rest) ∧
      find? key offset (lead ++ (key ++ tail)) = some ⟨offset + Utf8.size passed, key ++ rest⟩ ∧
      ∀ left right, lead ++ (key ++ tail) = left ++ (key ++ right) →
        Utf8.size passed ≤ Utf8.size left := by
  induction lead generalizing offset with
  | nil =>
    refine ⟨[], tail, rfl, ?_, fun _ _ _ => Nat.zero_le _⟩
    have hprefix : key.isPrefixOf (key ++ tail) = true := by simp
    unfold find?
    rw [List.nil_append, if_pos hprefix]
    rfl
  | cons c more ih =>
    by_cases hprefix : key.isPrefixOf (c :: more ++ (key ++ tail)) = true
    · obtain ⟨rest, hrest⟩ := List.isPrefixOf_iff_prefix.mp hprefix
      refine ⟨[], rest, hrest.symm, ?_, fun _ _ _ => Nat.zero_le _⟩
      unfold find?
      rw [if_pos hprefix, hrest]
      rfl
    · obtain ⟨passed, rest, hsame, hfind, hleast⟩ := ih (offset + c.utf8Size)
      refine ⟨c :: passed, rest, ?_, ?_, ?_⟩
      · rw [List.cons_append, hsame, List.cons_append]
      · unfold find?
        rw [if_neg hprefix, List.cons_append]
        dsimp only
        rw [hfind, Utf8.size_cons, Nat.add_assoc]
      · intro left right hother
        cases left with
        | nil =>
          rw [hother] at hprefix
          exact absurd (by simp) hprefix
        | cons d others =>
          obtain ⟨rfl, htail⟩ := List.cons.inj hother
          exact Nat.add_le_add_left (hleast others right htail) _

end Cursor

/-! ### Where the names are -/

namespace AttributeText

/-- The spans of the names when the texts stand one after the other from byte `start` on. -/
def nameSpans (start : Nat) : List AttributeText → List Span
  | [] => []
  | text :: rest =>
    let name := start + Utf8.size text.gap
    ⟨name, name + Utf8.size text.key⟩ :: nameSpans (start + Utf8.size text.source) rest

theorem size_source (text : AttributeText) :
    Utf8.size text.source = Utf8.size text.gap + (Utf8.size text.key + Utf8.size text.setting +
      Utf8.size text.value + text.quote.utf8Size) := by
  simp [source, body, Nat.add_assoc]

theorem start_le_of_mem_nameSpans {start : Nat} {texts : List AttributeText} {span : Span}
    (hmem : span ∈ nameSpans start texts) : start ≤ span.start := by
  induction texts generalizing start with
  | nil => cases hmem
  | cons text rest ih =>
    rcases List.mem_cons.mp hmem with rfl | hrest
    · exact Nat.le_add_right _ _
    · have := ih hrest
      omega

theorem pairwise_nameSpans (start : Nat) (texts : List AttributeText) :
    (nameSpans start texts).Pairwise fun left right => left.stop < right.start := by
  induction texts generalizing start with
  | nil => exact .nil
  | cons text rest ih =>
    refine List.pairwise_cons.mpr ⟨fun span hmem => ?_, ih _⟩
    have hafter := start_le_of_mem_nameSpans hmem
    have hquote := text.quote.utf8Size_pos
    rw [size_source] at hafter
    dsimp only
    omega

/-- Where the next search starts when the name of the attribute was found in its place, as what is
still ahead of its last quote. -/
def Leaves (text : AttributeText) (ahead : List Char) : Prop :=
  ∃ passed, text.setting ++ text.value = passed ++ ahead ∧ Utf8.size passed = Utf8.size text.value

/-- After an attribute that was found in its place the next one is, too. -/
def Clears (text next : AttributeText) : Prop :=
  ∃ ahead, text.Leaves ahead ∧ ComesFirst next.key (ahead ++ text.quote :: next.gap)

end AttributeText

/-! ### One search -/

section

variable {text : AttributeText} {lead tail : List Char}

/-- The name of an attribute that comes after `lead` is found there or sooner. -/
theorem exists_hit (text : AttributeText) (lead tail : List Char) (offset : Nat) :
    ∃ passed rest,
      lead ++ text.gap ++ (text.key ++ (text.setting ++ text.value ++ text.quote :: tail)) =
        passed ++ (text.key ++ rest) ∧
      Cursor.find? text.key offset (lead ++ (text.source ++ tail)) =
        some ⟨offset + Utf8.size passed, text.key ++ rest⟩ ∧
      Utf8.size passed ≤ Utf8.size (lead ++ text.gap) ∧
      (passed = lead ++ text.gap ↔ ComesFirst text.key (lead ++ text.gap)) := by
  have hwhole : lead ++ (text.source ++ tail) =
      lead ++ text.gap ++ (text.key ++ (text.setting ++ text.value ++ text.quote :: tail)) := by
    simp [AttributeText.source, AttributeText.body]
  obtain ⟨passed, rest, hsame, hfind, hleast⟩ := Cursor.exists_find?_eq_some text.key
    (lead ++ text.gap) (text.setting ++ text.value ++ text.quote :: tail) offset
  have hle := hleast (lead ++ text.gap) _ rfl
  obtain ⟨between, hlead, hbetween⟩ := Utf8.exists_append_of_size_le hsame.symm hle
  refine ⟨passed, rest, hsame, hwhole ▸ hfind, hle, ?_, ?_⟩
  · -- An occurrence with something after it would be one sooner than the first.
    intro hpassed left right hother
    have hleft := hleast left (right ++ (text.setting ++ text.value ++ text.quote :: tail)) (by
      rw [← List.append_assoc, hother]
      simp)
    have hsizes := congrArg Utf8.size hother
    rw [← hpassed] at hsizes
    simp only [Utf8.size_append] at hsizes
    exact Utf8.eq_nil_of_size (by omega)
  · intro hfirst
    have hbegins : text.key <+: between ++ text.key := by
      apply List.prefix_of_prefix_length_le (List.prefix_append text.key rest)
      · rw [hbetween, ← List.append_assoc]
        exact List.prefix_append _ _
      · simp
    obtain ⟨right, hright⟩ := hbegins
    have hnil : right = [] := hfirst passed right (by rw [hlead, List.append_assoc, hright])
    rw [hnil, List.append_nil, List.self_eq_append_left] at hright
    rw [hlead, hright, List.append_nil]

/-- The next search starts before the last quote of the attribute, or nowhere. -/
theorem exists_ahead {passed rest : List Char} {offset : Nat} {next : Cursor}
    (hsame : lead ++ text.gap ++ (text.key ++ (text.setting ++ text.value ++ text.quote :: tail)) =
      passed ++ (text.key ++ rest))
    (hle : Utf8.size passed ≤ Utf8.size (lead ++ text.gap))
    (hpass : Cursor.pass? ⟨offset, text.key ++ rest⟩ text.raw = some next) :
    ∃ ahead, next.rest = ahead ++ text.quote :: tail ∧
      next.offset = offset + (Utf8.size text.key + Utf8.size text.value) ∧
      (passed = lead ++ text.gap → text.Leaves ahead) := by
  obtain ⟨skipped, hskipped, hbytes, hoffset⟩ := Cursor.exists_of_after? hpass
  have hsize : Utf8.size skipped = Utf8.size text.key + Utf8.size text.value := hbytes
  have hparts : passed ++ skipped ++ next.rest =
      lead ++ text.gap ++ (text.key ++ (text.setting ++ text.value)) ++ text.quote :: tail := by
    rw [List.append_assoc, ← hskipped, ← hsame]
    simp
  have hshort : Utf8.size (passed ++ skipped) ≤
      Utf8.size (lead ++ text.gap ++ (text.key ++ (text.setting ++ text.value))) := by
    simp only [Utf8.size_append] at hle hsize ⊢
    omega
  obtain ⟨ahead, hahead, hrest⟩ := Utf8.exists_append_of_size_le hparts hshort
  refine ⟨ahead, hrest, hoffset, ?_⟩
  rintro rfl
  rw [List.append_assoc _ skipped, List.append_cancel_left_eq] at hahead
  obtain ⟨value, rfl, hvalue⟩ := Utf8.exists_append_of_size_le hahead (by omega)
  refine ⟨value, hvalue, ?_⟩
  rw [Utf8.size_append] at hsize
  omega

/-- The search starts too soon by what stands between the key and the value. -/
theorem AttributeText.Leaves.size_eq {ahead : List Char} (hleaves : text.Leaves ahead) :
    Utf8.size ahead = Utf8.size text.setting := by
  obtain ⟨passed, hpassed, hsize⟩ := hleaves
  have hsizes := congrArg Utf8.size hpassed
  rw [Utf8.size_append, Utf8.size_append] at hsizes
  omega

/-- The text after an attribute starts where the search that it leaves comes past its last quote. -/
theorem AttributeText.Leaves.start_eq {ahead : List Char} (hleaves : text.Leaves ahead)
    (offset : Nat) (lead : List Char) :
    offset + Utf8.size lead + Utf8.size text.source =
      offset + Utf8.size (lead ++ text.gap) + (Utf8.size text.key + Utf8.size text.value) +
        Utf8.size (ahead ++ [text.quote]) := by
  have hsize := hleaves.size_eq
  rw [AttributeText.size_source]
  simp only [Utf8.size_append, Utf8.size_cons, Utf8.size_nil]
  omega

theorem pass?_of_leaves {ahead : List Char} (hleaves : text.Leaves ahead) (offset : Nat)
    (tail : List Char) :
    Cursor.pass? ⟨offset, text.key ++ (text.setting ++ text.value ++ text.quote :: tail)⟩ text.raw =
      some ⟨offset + (Utf8.size text.key + Utf8.size text.value), ahead ++ text.quote :: tail⟩ := by
  obtain ⟨passed, hpassed, hsize⟩ := hleaves
  have hrest : text.key ++ (text.setting ++ text.value ++ text.quote :: tail) =
      text.key ++ passed ++ (ahead ++ text.quote :: tail) := by
    rw [hpassed]
    simp
  have hskip : Utf8.size text.raw.key + Utf8.size text.raw.value =
      Utf8.size (text.key ++ passed) := by
    rw [Utf8.size_append, hsize]
    rfl
  rw [Cursor.pass?, hskip, hrest, Cursor.after?_append, Utf8.size_append, hsize]

end

/-! ### All searches in a tag -/

/-- The spans that searches for the names of `raws` give, one after the other. -/
def spansFrom (base : Nat) : Option Cursor → List RawAttribute → List Span
  | _, [] => []
  | cursor, raw :: rest =>
    match cursor.bind fun c => Cursor.find? raw.key c.offset c.rest with
    | some found =>
      ⟨base + found.offset, base + found.offset + Utf8.size raw.key⟩ ::
        spansFrom base (found.pass? raw) rest
    | none => ⟨base, base + 1⟩ :: spansFrom base cursor rest

theorem spansFrom_none (base : Nat) (raws : List RawAttribute) :
    spansFrom base none raws = raws.map fun _ => ⟨base, base + 1⟩ := by
  induction raws with
  | nil => rfl
  | cons raw rest ih => exact congrArg (_ :: ·) ih

theorem spansFrom_cons {base : Nat} {cursor found : Cursor} {raw : RawAttribute}
    (hfind : Cursor.find? raw.key cursor.offset cursor.rest = some found) (rest : List RawAttribute) :
    spansFrom base (some cursor) (raw :: rest) =
      ⟨base + found.offset, base + found.offset + Utf8.size raw.key⟩ ::
        spansFrom base (found.pass? raw) rest := by
  rw [spansFrom, Option.bind_some, hfind]

theorem exists_read_of_placeAttributes {base : Nat} {cursor : Option Cursor}
    {raws : List (Except AttributeFault RawAttribute)} {attributes : List Attribute}
    (hplace : placeAttributes base cursor raws = .ok attributes) :
    ∃ read, raws = read.map .ok ∧ attributes.map Attribute.span = spansFrom base cursor read ∧
      List.Forall₂ (fun (raw : RawAttribute) a =>
        raw.key = a.name.toList ∧ unescape raw.value = .ok a.value.toList) read attributes := by
  induction raws generalizing cursor attributes with
  | nil =>
    cases hplace
    exact ⟨[], rfl, rfl, .nil⟩
  | cons raw rest ih =>
    cases raw with
    | error fault => cases hplace
    | ok raw =>
      rw [placeAttributes] at hplace
      cases hvalue : unescape raw.value with
      | error fault =>
        rw [hvalue] at hplace
        cases hplace
      | ok value =>
        rw [hvalue] at hplace
        dsimp only at hplace
        obtain ⟨later, hlater, rfl⟩ := exists_of_map_eq_ok hplace
        obtain ⟨read, rfl, hspans, hsame⟩ := ih hlater
        refine ⟨raw :: read, rfl, ?_, .cons ⟨by simp, by simpa using hvalue⟩ hsame⟩
        rw [spansFrom]
        clear hplace hlater
        generalize (cursor.bind fun c => Cursor.find? raw.key c.offset c.rest) = found at hspans ⊢
        cases found with
        | none => exact congrArg (_ :: ·) hspans
        | some found => exact congrArg (_ :: ·) hspans

/-- What is found is in the text that is searched, and so is the first byte, which stands for what is
not found. -/
theorem bounds_of_mem_spansFrom {base limit : Nat} {cursor : Option Cursor} {raws : List RawAttribute}
    (hpos : 0 < limit) (hcursor : ∀ c ∈ cursor, c.offset + Utf8.size c.rest = limit) {span : Span}
    (hmem : span ∈ spansFrom base cursor raws) :
    base ≤ span.start ∧ span.start ≤ span.stop ∧ span.stop ≤ base + limit := by
  induction raws generalizing cursor with
  | nil => cases hmem
  | cons raw rest ih =>
    rw [spansFrom] at hmem
    split at hmem
    · next found hfound =>
      obtain ⟨c, hc, hfind⟩ := Option.bind_eq_some_iff.mp hfound
      obtain ⟨passed, hrest, hoffset, tail, htail⟩ := Cursor.exists_of_find? hfind
      have hlimit := hcursor c hc
      rw [hrest, Utf8.size_append] at hlimit
      rcases List.mem_cons.mp hmem with rfl | hlater
      · rw [← htail, Utf8.size_append] at hlimit
        dsimp only
        omega
      · refine ih ?_ hlater
        intro next hnext
        obtain ⟨skipped, hskipped, hsize, hplace⟩ := Cursor.exists_of_after? hnext
        rw [hskipped, Utf8.size_append] at hlimit
        omega
    · rcases List.mem_cons.mp hmem with rfl | hlater
      · dsimp only
        omega
      · exact ih hcursor hlater

/-- The spans of the attributes of a tag are in its content. -/
theorem bounds_of_readAttributes {content : List Char} {base : Nat} {attributes : List Attribute}
    (hread : readAttributes content base = .ok attributes) {a : Attribute} (hmem : a ∈ attributes) :
    base ≤ a.span.start ∧ a.span.start ≤ a.span.stop ∧
      a.span.stop ≤ base + Utf8.size content := by
  cases content with
  | nil =>
    cases hread
    cases hmem
  | cons c more =>
    have hc := c.utf8Size_pos
    have hspan : a.span ∈ attributes.map Attribute.span := List.mem_map_of_mem hmem
    obtain ⟨read, -, hspans, -⟩ := exists_read_of_placeAttributes hread
    rw [hspans] at hspan
    refine bounds_of_mem_spansFrom ?_ ?_ hspan
    · rw [Utf8.size_cons]
      omega
    · rintro _ ⟨⟩
      obtain ⟨rest, hname, hrest⟩ := exists_tagName_append (c :: more)
      have hsize := congrArg Utf8.size hname
      rw [Utf8.size_append] at hsize
      dsimp only
      rw [hrest, hsize]

section

variable {base offset : Nat} {lead blanks : List Char} {texts : List AttributeText}

theorem spansFrom_of_isChain
    (hfirst : ∀ text ∈ texts.head?, ComesFirst text.key (lead ++ text.gap))
    (hchain : texts.IsChain AttributeText.Clears) :
    spansFrom base (some ⟨offset, lead ++ (texts.flatMap AttributeText.source ++ blanks)⟩)
        (texts.map AttributeText.raw) =
      AttributeText.nameSpans (base + (offset + Utf8.size lead)) texts := by
  induction texts generalizing lead offset with
  | nil => rfl
  | cons text rest ih =>
    obtain ⟨passed, after, hsame, hfind, -, hplace⟩ :=
      exists_hit text lead (rest.flatMap AttributeText.source ++ blanks) offset
    have hpassed := hplace.mpr (hfirst text rfl)
    subst hpassed
    rw [List.append_cancel_left_eq, List.append_cancel_left_eq] at hsame
    rw [← hsame] at hfind
    rw [List.flatMap_cons, List.append_assoc, List.map_cons, spansFrom_cons hfind,
      AttributeText.nameSpans]
    have hname : base + (offset + Utf8.size (lead ++ text.gap)) =
        base + (offset + Utf8.size lead) + Utf8.size text.gap := by
      rw [Utf8.size_append]
      omega
    rw [hname]
    congr 1
    cases rest with
    | nil => rfl
    | cons next more =>
      obtain ⟨⟨ahead, hleaves, hnext⟩, hrest⟩ := List.isChain_cons_cons.mp hchain
      rw [pass?_of_leaves hleaves, Nat.add_assoc base, hleaves.start_eq, ← ih ?_ hrest]
      · simp
      · intro other hother
        cases hother
        simpa using hnext

theorem isChain_of_spansFrom
    (hspans : spansFrom base (some ⟨offset, lead ++ (texts.flatMap AttributeText.source ++ blanks)⟩)
        (texts.map AttributeText.raw) =
      AttributeText.nameSpans (base + (offset + Utf8.size lead)) texts) :
    (∀ text ∈ texts.head?, ComesFirst text.key (lead ++ text.gap)) ∧
      texts.IsChain AttributeText.Clears := by
  induction texts generalizing lead offset with
  | nil => exact ⟨nofun, .nil⟩
  | cons text rest ih =>
    obtain ⟨passed, after, hsame, hfind, hle, hplace⟩ :=
      exists_hit text lead (rest.flatMap AttributeText.source ++ blanks) offset
    rw [List.flatMap_cons, List.append_assoc, List.map_cons, spansFrom_cons hfind,
      AttributeText.nameSpans] at hspans
    obtain ⟨hhead, htail⟩ := List.cons.inj hspans
    have hsize : Utf8.size passed = Utf8.size (lead ++ text.gap) := by
      have hstart := congrArg Span.start hhead
      rw [Utf8.size_append]
      dsimp only at hstart
      omega
    have hpassed : passed = lead ++ text.gap := by
      obtain ⟨middle, hmiddle, -⟩ := Utf8.exists_append_of_size_le hsame.symm hle
      have hnil : middle = [] := by
        rw [hmiddle, Utf8.size_append] at hsize
        exact Utf8.eq_nil_of_size (by omega)
      rw [hmiddle, hnil, List.append_nil]
    refine ⟨?_, ?_⟩
    · intro other hother
      cases hother
      exact hplace.mp hpassed
    cases rest with
    | nil => exact .singleton text
    | cons next more =>
      cases hpass : Cursor.pass? ⟨offset + Utf8.size passed, text.key ++ after⟩ text.raw with
      | none =>
        -- A span that stands for no place comes before all names.
        rw [hpass, spansFrom_none] at htail
        have hstart := congrArg Span.start (List.cons.inj htail).1
        have hquote := text.quote.utf8Size_pos
        rw [AttributeText.size_source] at hstart
        dsimp only at hstart
        omega
      | some cursor =>
        obtain ⟨ahead, hrest, hoffset, hplaced⟩ := exists_ahead hsame hle hpass
        have hleaves := hplaced hpassed
        obtain ⟨place, rest⟩ := cursor
        dsimp only at hrest hoffset
        subst hrest hoffset
        have hmiddle : ahead ++ text.quote :: ((next :: more).flatMap AttributeText.source ++ blanks) =
            ahead ++ [text.quote] ++ ((next :: more).flatMap AttributeText.source ++ blanks) := by
          simp
        rw [hpass, Nat.add_assoc base, hleaves.start_eq, ← hpassed, hmiddle] at htail
        obtain ⟨hnext, hchain⟩ := ih htail
        refine List.isChain_cons_cons.mpr ⟨⟨ahead, hleaves, ?_⟩, hchain⟩
        simpa using hnext next rfl

/-- The spans are those of the names if and only if each attribute clears the next one. -/
theorem spansFrom_eq_nameSpans_iff :
    spansFrom base (some ⟨offset, texts.flatMap AttributeText.source ++ blanks⟩)
        (texts.map AttributeText.raw) = AttributeText.nameSpans (base + offset) texts ↔
      texts.IsChain AttributeText.Clears :=
  ⟨fun hspans => (@isChain_of_spansFrom base offset [] blanks texts hspans).2,
    fun hchain => @spansFrom_of_isChain base offset [] blanks texts
      (fun text _ => comesFirst_of_isGap text.keyForm text.isGap) hchain⟩

end

/-- The search for the first attribute ends in its place. -/
theorem head?_spansFrom (base offset : Nat) (texts : List AttributeText) (blanks : List Char) :
    (spansFrom base (some ⟨offset, texts.flatMap AttributeText.source ++ blanks⟩)
        (texts.map AttributeText.raw)).head? =
      (AttributeText.nameSpans (base + offset) texts).head? := by
  cases texts with
  | nil => rfl
  | cons text rest =>
    obtain ⟨passed, after, -, hfind, -, hplace⟩ :=
      exists_hit text [] (rest.flatMap AttributeText.source ++ blanks) offset
    obtain rfl : passed = text.gap := hplace.mpr (comesFirst_of_isGap text.keyForm text.isGap)
    rw [List.flatMap_cons, List.append_assoc, List.map_cons]
    rw [List.nil_append] at hfind
    rw [spansFrom_cons hfind, AttributeText.nameSpans, Nat.add_assoc base offset]
    rfl

/-- From byte `start` on every span holds its name and begins after the one before it, up to a name
from which on no place was found, and all spans are `nowhere`. -/
inductive Spread (source : List Char) (nowhere : Span) : Nat → List (List Char) → List Span → Prop
  | lost {start : Nat} (names : List (List Char)) :
      Spread source nowhere start names (names.map fun _ => nowhere)
  | found {start : Nat} {name : List Char} {names : List (List Char)} {span : Span}
      {spans : List Span} (start_le : start ≤ span.start) (delimits : span.Delimits source name)
      (later : Spread source nowhere span.stop names spans) :
      Spread source nowhere start (name :: names) (span :: spans)

theorem Spread.of_le {source : List Char} {nowhere : Span} {start sooner : Nat}
    {names : List (List Char)} {spans : List Span} (hspread : Spread source nowhere start names spans)
    (hle : sooner ≤ start) : Spread source nowhere sooner names spans := by
  cases hspread with
  | lost => exact .lost names
  | found start_le delimits later => exact .found (Nat.le_trans hle start_le) delimits later

/-- `front` and `back` are what stands around the text that is searched. -/
theorem spread_spansFrom {base offset : Nat} {front lead blanks back : List Char}
    (hfront : Utf8.size front = base + offset) (texts : List AttributeText) :
    Spread (front ++ (lead ++ (texts.flatMap AttributeText.source ++ blanks)) ++ back) ⟨base, base + 1⟩
      (base + offset) (texts.map AttributeText.key)
      (spansFrom base (some ⟨offset, lead ++ (texts.flatMap AttributeText.source ++ blanks)⟩)
        (texts.map AttributeText.raw)) := by
  induction texts generalizing front lead offset with
  | nil => exact .lost []
  | cons text rest ih =>
    obtain ⟨passed, after, hsame, hfind, hle, -⟩ :=
      exists_hit text lead (rest.flatMap AttributeText.source ++ blanks) offset
    have hrest : lead ++ (text.source ++ (rest.flatMap AttributeText.source ++ blanks)) =
        passed ++ (text.key ++ after) := by
      rw [← hsame]
      simp [AttributeText.source, AttributeText.body]
    have hflat : (text :: rest).flatMap AttributeText.source ++ blanks =
        text.source ++ (rest.flatMap AttributeText.source ++ blanks) := by
      rw [List.flatMap_cons, List.append_assoc]
    have hplace : base + (offset + Utf8.size passed) = Utf8.size (front ++ passed) := by
      rw [Utf8.size_append, hfront, Nat.add_assoc]
    rw [hflat, List.map_cons, List.map_cons, spansFrom_cons hfind]
    refine .found ?_ ⟨front ++ passed, after ++ back, ?_, ?_, ?_⟩ ?_
    · dsimp only
      omega
    · rw [hrest]
      simp
    · exact hplace
    · rw [Utf8.size_append _ text.key, ← hplace]
      rfl
    · cases hpass : Cursor.pass? ⟨offset + Utf8.size passed, text.key ++ after⟩ text.raw with
      | none =>
        rw [spansFrom_none, List.map_map]
        have hlost := @Spread.lost (front ++ (lead ++ (text.source ++
          (rest.flatMap AttributeText.source ++ blanks))) ++ back) ⟨base, base + 1⟩
          (base + (offset + Utf8.size passed) + Utf8.size text.key) (rest.map AttributeText.key)
        rwa [List.map_map] at hlost
      | some next =>
        obtain ⟨skipped, hskipped, hbytes, -⟩ := Cursor.exists_of_after? hpass
        have hsize : Utf8.size skipped = Utf8.size text.key + Utf8.size text.value := hbytes
        obtain ⟨ahead, hahead, hoffset, -⟩ := exists_ahead hsame hle hpass
        obtain ⟨place, chars⟩ := next
        dsimp only at hskipped hahead hoffset
        have hchars : chars =
            ahead ++ [text.quote] ++ (rest.flatMap AttributeText.source ++ blanks) := by
          rw [hahead]
          simp
        subst hoffset
        have hlater := @ih
          (offset + Utf8.size passed + (Utf8.size text.key + Utf8.size text.value))
          (front ++ passed ++ skipped) (ahead ++ [text.quote]) (by
            rw [Utf8.size_append, Utf8.size_append]
            omega)
        have hwhole : front ++ passed ++ skipped ++
            (ahead ++ [text.quote] ++ (rest.flatMap AttributeText.source ++ blanks)) ++ back =
            front ++ (lead ++ (text.source ++ (rest.flatMap AttributeText.source ++ blanks))) ++
              back := by
          rw [hrest, hskipped, hchars]
          simp
        rw [hwhole, ← hchars] at hlater
        apply hlater.of_le
        dsimp only
        omega

end Xml

end CompatChanges
