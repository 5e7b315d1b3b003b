import CompatChanges.Proofs.Run

/-!
# All of a fragment or nothing

A fragment is refused before anything is changed, or all of its changes are taken. Only the sink for
reports can still fail then, and it fails too late to hold a change back.
-/

namespace CompatChanges

open Merger Xml

/-- The first change that lacks a key, with the key it lacks; the id counts before the name. -/
def FirstLacking (changes : List Change) (key : Key) (origin : Origin) : Prop :=
  ∃ earlier change later, changes = earlier ++ change :: later ∧
    (∀ other ∈ earlier, other.id?.isSome ∧ other.name?.isSome) ∧ change.origin = origin ∧
    (key = .id ∧ change.id? = none ∨ key = .name ∧ change.id?.isSome ∧ change.name? = none)

/-- The errors with which a fragment is refused, each with its cause. -/
def Refusal (options : Options) (stream : Stream) (label : String) : MergeError → Prop
  | .input => stream.fails = true
  | .parse shown cause =>
    stream.fails = false ∧ shown = label ∧ parseBytes stream.bytes = .error cause
  | .missingKey key origin =>
    stream.fails = false ∧ options.detectConflicts = true ∧
      ∃ document, parseBytes stream.bytes = .ok document ∧
        FirstLacking (changesOf document label) key origin
  | _ => False

theorem readChanges_eq_ok {bytes : List UInt8} {label : String} {changes : List Change}
    (hread : readChanges bytes label = .ok changes) :
    ∃ document, parseBytes bytes = .ok document ∧ changes = changesOf document label := by
  unfold readChanges at hread
  cases hparse : parseBytes bytes with
  | error error => simp [hparse, Except.map] at hread
  | ok document =>
    rw [hparse, Except.map, Except.ok.injEq] at hread
    exact ⟨document, rfl, hread.symm⟩

theorem missingKey?_eq_some_iff {change : Change} {key : Key} :
    change.missingKey? = some key ↔
      key = .id ∧ change.id? = none ∨ key = .name ∧ change.id?.isSome ∧ change.name? = none := by
  unfold Change.missingKey?
  cases change.id? <;> cases change.name? <;> cases key <;> simp

theorem firstLacking_of_findSome? {changes : List Change} {error : MergeError}
    (hfind : (changes.findSome? fun change =>
      change.missingKey?.map fun key => MergeError.missingKey key change.origin) = some error) :
    ∃ key origin, error = .missingKey key origin ∧ FirstLacking changes key origin := by
  obtain ⟨earlier, change, later, hsplit, hlacks, hkeyed⟩ := List.findSome?_eq_some_iff.mp hfind
  obtain ⟨key, hkey, rfl⟩ := Option.map_eq_some_iff.mp hlacks
  refine ⟨key, change.origin, rfl, earlier, change, later, hsplit, fun other hmem => ?_, rfl,
    missingKey?_eq_some_iff.mp hkey⟩
  exact missingKey?_eq_none_iff.mp (Option.map_eq_none_iff.mp (hkeyed other hmem))

theorem refusal_of_accept {options : Options} {stream : Stream} {label : String} {error : MergeError}
    (hreads : stream.fails = false) (haccept : accept options stream.bytes label = .error error) :
    Refusal options stream label error := by
  unfold accept at haccept
  cases hread : readChanges stream.bytes label with
  | error cause =>
    rw [hread, Except.error.injEq] at haccept
    subst haccept
    have hparse : parseBytes stream.bytes = .error cause := by
      unfold readChanges at hread
      cases hparse : parseBytes stream.bytes with
      | error _ => simpa [hparse, Except.map] using hread
      | ok document => simp [hparse, Except.map] at hread
    exact ⟨hreads, rfl, hparse⟩
  | ok changes =>
    obtain ⟨document, hparse, rfl⟩ := readChanges_eq_ok hread
    cases hdetect : options.detectConflicts with
    | false => simp [hread, hdetect] at haccept
    | true =>
      cases hfind : (changesOf document label).findSome? fun change =>
          change.missingKey?.map fun key => MergeError.missingKey key change.origin with
      | none => simp [hread, hdetect, hfind] at haccept
      | some found =>
        simp only [hread, hdetect, if_true, hfind, Except.error.injEq] at haccept
        subst haccept
        obtain ⟨key, origin, rfl, hfirst⟩ := firstLacking_of_findSome? hfind
        exact ⟨hreads, hdetect, document, hparse, hfirst⟩

namespace Merger

variable {σ : Type} [ByteSink σ]

/-- The merger is as before, its sink included, and the error tells why. -/
def Rejects (before : Merger σ) (stream : Stream) (label : String)
    (result : Merger σ × Except MergeError Unit) : Prop :=
  ∃ error, result = (before, .error error) ∧ Refusal before.options stream label error

/-- Every child element of the root is taken, in order, and checked if conflicts are detected; the
outcome is that of writing the reports to the sink. -/
structure Commits (before : Merger σ) (stream : Stream) (label : String) (document : Document)
    (result : Merger σ × Except MergeError Unit) : Prop where
  reads : stream.fails = false
  parses : parseBytes stream.bytes = .ok document
  changes : result.1.changes = before.changes ++
    document.root.children.map fun child => ⟨child, label, document.lineOf child.span⟩
  checked : before.options.detectConflicts = true →
    result.1.tracker = (before.tracker.checkChanges (changesOf document label)).1 ∧
      result.1.tracker.Knows (definitionsOf result.1.changes)
  unchecked : before.options.detectConflicts = false → result.1.tracker = before.tracker
  outcome : (result.1.reports, result.2) =
    let written := ByteSink.writeAndFlush before.reports
      (before.reportChunks (changesOf document label))
    (written.1, written.2.mapError .report)

theorem not_rejects_of_commits {before : Merger σ} {stream : Stream} {label : String}
    {document : Document} {result : Merger σ × Except MergeError Unit}
    (hcommits : before.Commits stream label document result) :
    ¬ before.Rejects stream label result := by
  rintro ⟨error, rfl, hrefusal⟩
  -- A commit fails only with the fault of the sink, which is no refusal.
  have houtcome := congrArg Prod.snd hcommits.outcome
  cases hwritten : (ByteSink.writeAndFlush before.reports
      (before.reportChunks (changesOf document label))).2 with
  | ok _ => simp [hwritten, Except.mapError] at houtcome
  | error fault =>
    simp only [hwritten, Except.mapError, Except.error.injEq] at houtcome
    subst houtcome
    exact hrefusal

theorem Sound.commits_take {before : Merger σ} (hsound : before.Sound) {stream : Stream}
    {label : String} {document : Document} (hreads : stream.fails = false)
    (hparse : parseBytes stream.bytes = .ok document) :
    before.Commits stream label document (before.take (changesOf document label)) where
  reads := hreads
  parses := hparse
  changes := by
    rw [take_changes, changesOf_eq_map]
  checked hdetect := by
    have hknows := hsound.knows
    rw [tracked_of_detects hdetect] at hknows
    rw [take_tracker, if_pos hdetect, take_changes, definitionsOf_append]
    exact ⟨rfl, (hknows.checkChanges _).2⟩
  unchecked hdetect := by
    rw [take_tracker, hdetect]
    rfl
  outcome := by
    rw [take_reports, take_outcome]

theorem Sound.merge_cases {before : Merger σ} (hsound : before.Sound) (stream : Stream)
    (label : String) :
    before.Rejects stream label (before.merge stream label) ∨
      ∃ document, before.Commits stream label document (before.merge stream label) := by
  unfold Merger.merge
  cases hreads : stream.fails with
  | true =>
    left
    exact ⟨.input, rfl, hreads⟩
  | false =>
    simp only [Bool.false_eq_true, if_false]
    cases haccept : accept before.options stream.bytes label with
    | error error =>
      left
      rw [mergeBytes_of_error haccept]
      exact ⟨error, rfl, refusal_of_accept hreads haccept⟩
    | ok changes =>
      right
      obtain ⟨document, hparse, rfl⟩ := readChanges_eq_ok (accept_eq_ok_iff.mp haccept).1
      rw [mergeBytes_of_ok haccept]
      exact ⟨document, hsound.commits_take hreads hparse⟩

/-- In every state that a run leads to, merging a fragment does exactly one of two things: it rejects
the fragment and changes nothing, or it commits all of it. -/
theorem merge_run_rejects_xor_commits (options : Options) (reports : σ) (calls : List Call) :
    let before := (new options reports).run calls
    (∀ stream label, Xor (before.Rejects stream label (before.merge stream label))
      (∃ document, before.Commits stream label document (before.merge stream label))) ∧
    ∀ bytes label, Xor (before.Rejects ⟨bytes, false⟩ label (before.mergeBytes bytes label))
      (∃ document, before.Commits ⟨bytes, false⟩ label document (before.mergeBytes bytes label)) := by
  intro before
  have hmerge (stream : Stream) (label : String) :
      Xor (before.Rejects stream label (before.merge stream label))
        (∃ document, before.Commits stream label document (before.merge stream label)) := by
    rcases (sound_run options reports calls).merge_cases stream label with hrejects | hcommits
    · exact .inl ⟨hrejects, fun ⟨_, hcommits⟩ => not_rejects_of_commits hcommits hrejects⟩
    · exact .inr ⟨hcommits, not_rejects_of_commits hcommits.choose_spec⟩
  exact ⟨hmerge, fun bytes label => hmerge ⟨bytes, false⟩ label⟩

end Merger

end CompatChanges
