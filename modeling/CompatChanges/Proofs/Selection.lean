import CompatChanges.Archive.Fragment
import Mathlib.Data.List.Forall2

/-!
# Which entries are read

Reading an archive opens its entries in order, and reads those that are fragments. The first entry
with which this fails decides the error; what stands in entries that are no fragments never matters.
-/

namespace CompatChanges.Archive

theorem isFragmentName_iff {name : String} :
    isFragmentName name = true ↔ ∃ stem, name = stem ++ "_compat_config.xml" := by
  unfold isFragmentName
  rw [List.isSuffixOf_iff_suffix]
  constructor
  · rintro ⟨stem, hstem⟩
    refine ⟨String.ofList stem, String.toList_injective ?_⟩
    rw [String.toList_append, String.toList_ofList]
    exact hstem.symm
  · rintro ⟨stem, rfl⟩
    rw [String.toList_append]
    exact List.suffix_append _ _

namespace Entry

/-- The entry is a file with the name of a fragment. -/
def IsFragment (entry : Entry) : Prop :=
  entry.isDirectory = false ∧ ∃ stem, entry.name = stem ++ "_compat_config.xml"

theorem isFragment_iff {entry : Entry} :
    entry.IsFragment ↔ ¬(entry.isDirectory || !isFragmentName entry.name) = true := by
  rw [IsFragment, ← isFragmentName_iff]
  cases entry.isDirectory <;> simp

instance (entry : Entry) : Decidable entry.IsFragment := decidable_of_iff' _ isFragment_iff

/-- The entry opens, and can be read if it is a fragment. -/
def Passes (entry : Entry) : Prop :=
  entry.opening = .ok () ∧ (entry.IsFragment → ∃ contents, entry.reading () = .ok contents)

/-- The entry does not open, or it is a fragment that opens and cannot be read. -/
def FailsWith (entry : Entry) (error : Error) : Prop :=
  entry.opening = .error error ∨
    entry.opening = .ok () ∧ entry.IsFragment ∧ entry.reading () = .error error

/-- The fragment has the name and the whole contents of the entry. -/
def Holds (entry : Entry) (fragment : Fragment) : Prop :=
  fragment.entryName = entry.name ∧ entry.reading () = .ok fragment.contents

/-- The entries differ at most in what stands in them, and only if they are no fragments. -/
def Agrees (entry other : Entry) : Prop :=
  entry.name = other.name ∧ entry.isDirectory = other.isDirectory ∧ entry.opening = other.opening ∧
    (entry.IsFragment → entry.reading () = other.reading ())

theorem passes_or_fails (entry : Entry) : entry.Passes ∨ ∃ error, entry.FailsWith error := by
  unfold Passes FailsWith
  cases entry.opening with
  | error error => exact .inr ⟨error, .inl rfl⟩
  | ok _ =>
    by_cases hfragment : entry.IsFragment
    · cases entry.reading () with
      | error error => exact .inr ⟨error, .inr ⟨rfl, hfragment, rfl⟩⟩
      | ok contents => exact .inl ⟨rfl, fun _ => ⟨contents, rfl⟩⟩
    · exact .inl ⟨rfl, fun h => absurd h hfragment⟩

end Entry

/-! ### One entry -/

section

variable {entry : Entry} {rest : List Entry}

theorem fragmentsOf_of_failsWith {error : Error} (hfails : entry.FailsWith error) :
    fragmentsOf (entry :: rest) = .error error := by
  rw [fragmentsOf]
  rcases hfails with hopening | ⟨hopening, hfragment, hreading⟩
  · rw [hopening]
    rfl
  · rw [hopening, if_neg (Entry.isFragment_iff.mp hfragment), hreading]
    rfl

theorem fragmentsOf_of_not_isFragment (hopening : entry.opening = .ok ())
    (hfragment : ¬entry.IsFragment) : fragmentsOf (entry :: rest) = fragmentsOf rest := by
  rw [Entry.isFragment_iff, not_not] at hfragment
  rw [fragmentsOf, hopening, if_pos hfragment]
  rfl

theorem fragmentsOf_of_isFragment (hopening : entry.opening = .ok ()) (hfragment : entry.IsFragment)
    {contents : List UInt8} (hreading : entry.reading () = .ok contents) :
    fragmentsOf (entry :: rest) = (fragmentsOf rest).map (⟨entry.name, contents⟩ :: ·) := by
  rw [fragmentsOf, hopening, if_neg (Entry.isFragment_iff.mp hfragment), hreading]
  cases fragmentsOf rest <;> rfl

end

/-! ### All entries -/

variable {entries : List Entry}

/-- Entries that pass give their fragments, and what comes after them is read as if by itself. -/
theorem exists_fragmentsOf_append (hpasses : ∀ entry ∈ entries, entry.Passes) :
    ∃ fragments, List.Forall₂ Entry.Holds (entries.filter (·.IsFragment)) fragments ∧
      ∀ after, fragmentsOf (entries ++ after) = (fragmentsOf after).map (fragments ++ ·) := by
  induction entries with
  | nil =>
    refine ⟨[], .nil, fun after => ?_⟩
    rw [List.nil_append]
    cases fragmentsOf after <;> rfl
  | cons entry rest ih =>
    obtain ⟨⟨hopening, hreads⟩, hrest⟩ := List.forall_mem_cons.mp hpasses
    obtain ⟨later, hholds, hlater⟩ := ih hrest
    by_cases hfragment : entry.IsFragment
    · obtain ⟨contents, hreading⟩ := hreads hfragment
      refine ⟨⟨entry.name, contents⟩ :: later, ?_, fun after => ?_⟩
      · rw [List.filter_cons_of_pos (by simpa using hfragment)]
        exact .cons ⟨rfl, hreading⟩ hholds
      · rw [List.cons_append, fragmentsOf_of_isFragment hopening hfragment hreading, hlater]
        cases fragmentsOf after <;> rfl
    · refine ⟨later, ?_, fun after => ?_⟩
      · rwa [List.filter_cons_of_neg (by simpa using hfragment)]
      · rw [List.cons_append, fragmentsOf_of_not_isFragment hopening hfragment, hlater]

theorem exists_fragmentsOf_of_passes (hpasses : ∀ entry ∈ entries, entry.Passes) :
    ∃ fragments, fragmentsOf entries = .ok fragments ∧
      List.Forall₂ Entry.Holds (entries.filter (·.IsFragment)) fragments := by
  obtain ⟨fragments, hholds, happend⟩ := exists_fragmentsOf_append hpasses
  have hall := happend []
  rw [List.append_nil] at hall
  exact ⟨fragments, by simp [hall, fragmentsOf, Except.map], hholds⟩

/-- Entries after the first that fails are not looked at. -/
theorem fragmentsOf_append_of_failsWith {before : List Entry} {entry : Entry} {error : Error}
    (hpasses : ∀ earlier ∈ before, earlier.Passes) (hfails : entry.FailsWith error)
    (after : List Entry) : fragmentsOf (before ++ entry :: after) = .error error := by
  obtain ⟨fragments, -, happend⟩ := exists_fragmentsOf_append hpasses
  rw [happend, fragmentsOf_of_failsWith hfails]
  rfl

theorem all_pass_or_exists_first (entries : List Entry) :
    (∀ entry ∈ entries, entry.Passes) ∨
      ∃ before entry after error, entries = before ++ entry :: after ∧
        (∀ earlier ∈ before, earlier.Passes) ∧ entry.FailsWith error := by
  induction entries with
  | nil => exact .inl (List.forall_mem_nil _)
  | cons entry rest ih =>
    rcases entry.passes_or_fails with hpasses | ⟨error, hfails⟩
    · rcases ih with hall | ⟨before, failing, after, error, rfl, hbefore, hfails⟩
      · exact .inl (List.forall_mem_cons.mpr ⟨hpasses, hall⟩)
      · exact .inr ⟨entry :: before, failing, after, error, rfl,
          List.forall_mem_cons.mpr ⟨hpasses, hbefore⟩, hfails⟩
    · exact .inr ⟨[], entry, rest, error, rfl, List.forall_mem_nil _, hfails⟩

/-- What stands in an entry that is no fragment does not matter. -/
theorem fragmentsOf_eq_of_agrees {others : List Entry}
    (hagree : List.Forall₂ Entry.Agrees entries others) : fragmentsOf entries = fragmentsOf others := by
  induction hagree with
  | nil => rfl
  | @cons entry other rest more hsame _ ih =>
    obtain ⟨hname, hdirectory, hopening, hreading⟩ := hsame
    rw [fragmentsOf, fragmentsOf, ← hname, ← hdirectory, ← hopening, ih]
    by_cases hfragment : entry.IsFragment
    · rw [hreading hfragment]
    · rw [Entry.isFragment_iff, not_not] at hfragment
      rw [if_pos hfragment, if_pos hfragment]

theorem Entry.rightUnique_holds : Relator.RightUnique Entry.Holds := by
  rintro entry ⟨name, contents⟩ ⟨otherName, otherContents⟩ ⟨hname, hreading⟩ ⟨hother, hagain⟩
  dsimp only at hname hother hreading hagain
  rw [hreading, Except.ok.injEq] at hagain
  rw [hname, hother, hagain]

theorem fragmentsOf_eq_ok_iff {fragments : List Fragment} :
    fragmentsOf entries = .ok fragments ↔
      (∀ entry ∈ entries, entry.Passes) ∧
        List.Forall₂ Entry.Holds (entries.filter (·.IsFragment)) fragments := by
  constructor
  · intro hok
    rcases all_pass_or_exists_first entries with hall | ⟨before, entry, after, error, rfl, hbefore, hfails⟩
    · obtain ⟨found, hfound, hholds⟩ := exists_fragmentsOf_of_passes hall
      rw [hok, Except.ok.injEq] at hfound
      exact ⟨hall, hfound ▸ hholds⟩
    · rw [fragmentsOf_append_of_failsWith hbefore hfails] at hok
      cases hok
  · rintro ⟨hall, hholds⟩
    obtain ⟨found, hfound, hagain⟩ := exists_fragmentsOf_of_passes hall
    rw [hfound, Entry.rightUnique_holds.forall₂ hholds hagain]

theorem fragmentsOf_eq_error_iff {error : Error} :
    fragmentsOf entries = .error error ↔
      ∃ before entry after, entries = before ++ entry :: after ∧
        (∀ earlier ∈ before, earlier.Passes) ∧ entry.FailsWith error := by
  constructor
  · intro herror
    rcases all_pass_or_exists_first entries with hall | ⟨before, entry, after, other, rfl, hbefore, hfails⟩
    · obtain ⟨found, hfound, -⟩ := exists_fragmentsOf_of_passes hall
      rw [herror] at hfound
      cases hfound
    · rw [fragmentsOf_append_of_failsWith hbefore hfails, Except.error.injEq] at herror
      exact ⟨before, entry, after, rfl, hbefore, herror ▸ hfails⟩
  · rintro ⟨before, entry, after, rfl, hbefore, hfails⟩
    exact fragmentsOf_append_of_failsWith hbefore hfails after

/-- Of the entries of an archive the fragments are read, each once and in order, if every entry opens
and every fragment can be read. Otherwise the first entry with which that fails gives its error. -/
theorem fragmentsOf_selects (entries : List Entry) :
    ((∃ fragments, fragmentsOf entries = .ok fragments) ↔
      (∀ entry ∈ entries, entry.opening = .ok ()) ∧
        ∀ entry ∈ entries, entry.IsFragment → ∃ contents, entry.reading () = .ok contents) ∧
    (∀ fragments, fragmentsOf entries = .ok fragments →
      List.Forall₂ Entry.Holds (entries.filter (·.IsFragment)) fragments) ∧
    (∀ error, fragmentsOf entries = .error error ↔
      ∃ before entry after, entries = before ++ entry :: after ∧
        (∀ earlier ∈ before, earlier.Passes) ∧ entry.FailsWith error) ∧
    (∀ others, List.Forall₂ Entry.Agrees entries others →
      fragmentsOf others = fragmentsOf entries) ∧
    ∀ bytes, Archive.entries bytes = .ok entries → readFragments bytes = fragmentsOf entries := by
  refine ⟨?_, fun fragments hok => (fragmentsOf_eq_ok_iff.mp hok).2, fun error =>
    fragmentsOf_eq_error_iff, fun others hagree => (fragmentsOf_eq_of_agrees hagree).symm, ?_⟩
  · rw [← forall₂_and]
    constructor
    · rintro ⟨fragments, hok⟩
      exact (fragmentsOf_eq_ok_iff.mp hok).1
    · intro hall
      obtain ⟨fragments, hok, -⟩ := exists_fragmentsOf_of_passes hall
      exact ⟨fragments, hok⟩
  · intro bytes hentries
    rw [readFragments, hentries]
    rfl

end CompatChanges.Archive
