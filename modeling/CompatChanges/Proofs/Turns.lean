import CompatChanges.Proofs.Commit
import CompatChanges.Proofs.Inputs

/-!
# Archives fragment by fragment

An archive is read as a whole, and then its fragments are merged in turn as if each had been given by
itself, up to the first that fails. Those before it stay merged. The one that fails has been taken if
only its reports failed, and what comes after it does not matter. The command does the same with a jar.
-/

namespace CompatChanges

open Merger

/-- The call that merges a fragment of the archive that is called `archive`. -/
def Archive.Fragment.call (archive : String) (fragment : Archive.Fragment) : Call :=
  .mergeBytes fragment.contents (archive ++ ":" ++ fragment.entryName)

namespace Merger

section

variable {σ : Type} [ByteSink σ]

/-- The merger after the fragments were merged in turn, whatever came of each. -/
def afterTurns (merger : Merger σ) (archive : String) (fragments : List Archive.Fragment) : Merger σ :=
  merger.run (fragments.map (Archive.Fragment.call archive))

/-- What comes of a fragment after `earlier` ones. -/
def turn (merger : Merger σ) (archive : String) (earlier : List Archive.Fragment)
    (fragment : Archive.Fragment) : Merger σ × Except MergeError Unit :=
  (merger.afterTurns archive earlier).mergeBytes fragment.contents
    (archive ++ ":" ++ fragment.entryName)

/-- Each of the fragments is merged without an error when its turn comes. -/
def TurnsSucceed (merger : Merger σ) (archive : String) (fragments : List Archive.Fragment) : Prop :=
  ∀ earlier fragment later, fragments = earlier ++ fragment :: later →
    (merger.turn archive earlier fragment).2 = .ok ()

/-- The first fragment that fails comes after `earlier` and leaves the merger as `after`. -/
structure StopsAt (merger : Merger σ) (archive : String) (earlier : List Archive.Fragment)
    (fragment : Archive.Fragment) (error : MergeError) (after : Merger σ) : Prop where
  succeed : merger.TurnsSucceed archive earlier
  fails : merger.turn archive earlier fragment = (after, .error error)
  /-- The fragment is taken if the sink is at fault, and nothing of it if it is itself. -/
  taken : (∃ fault changes, error = .report fault ∧
      readChanges fragment.contents (archive ++ ":" ++ fragment.entryName) = .ok changes ∧
        after.changes = (merger.afterTurns archive earlier).changes ++ changes) ∨
    (∀ fault, error ≠ .report fault) ∧ after = merger.afterTurns archive earlier

variable {merger : Merger σ} {archive : String} {fragment : Archive.Fragment}
  {earlier rest : List Archive.Fragment}

@[simp]
theorem turnsSucceed_nil : merger.TurnsSucceed archive [] := by
  intro earlier fragment later hsplit
  simp at hsplit

theorem turn_cons (first : Archive.Fragment) :
    merger.turn archive (first :: earlier) fragment =
      (merger.turn archive [] first).1.turn archive earlier fragment := rfl

theorem turnsSucceed_cons_iff :
    merger.TurnsSucceed archive (fragment :: rest) ↔
      (merger.turn archive [] fragment).2 = .ok () ∧
        (merger.turn archive [] fragment).1.TurnsSucceed archive rest := by
  constructor
  · intro hall
    refine ⟨hall [] fragment rest rfl, fun earlier next later hrest => ?_⟩
    rw [← turn_cons]
    exact hall (fragment :: earlier) next later (by rw [hrest, List.cons_append])
  · rintro ⟨hfirst, hall⟩ earlier next later hsplit
    cases earlier with
    | nil =>
      obtain ⟨rfl, -⟩ := List.cons.inj hsplit
      exact hfirst
    | cons first earlier =>
      obtain ⟨rfl, hrest⟩ := List.cons.inj hsplit
      rw [turn_cons]
      exact hall earlier next later hrest

theorem mergeFragments_cons (first : Archive.Fragment) (rest : List Archive.Fragment) :
    merger.mergeFragments (first :: rest) archive =
      match merger.turn archive [] first with
      | (next, .ok ()) => next.mergeFragments rest archive
      | (next, .error error) => (next, .error error) := rfl

/-! ### Merging them all -/

theorem mergeFragments_append_of_succeed (hall : merger.TurnsSucceed archive earlier) :
    merger.mergeFragments (earlier ++ rest) archive =
      (merger.afterTurns archive earlier).mergeFragments rest archive := by
  induction earlier generalizing merger with
  | nil => rfl
  | cons first earlier ih =>
    obtain ⟨hfirst, hearlier⟩ := turnsSucceed_cons_iff.mp hall
    have hturn : merger.turn archive [] first = ((merger.turn archive [] first).1, .ok ()) := by
      rw [← hfirst]
    rw [List.cons_append, mergeFragments_cons, hturn]
    exact ih hearlier

theorem mergeFragments_of_succeed (hall : merger.TurnsSucceed archive earlier) :
    merger.mergeFragments earlier archive = (merger.afterTurns archive earlier, .ok ()) := by
  rw [← List.append_nil earlier, mergeFragments_append_of_succeed hall, List.append_nil]
  rfl

theorem mergeFragments_of_stops {error : MergeError} {after : Merger σ}
    (hall : merger.TurnsSucceed archive earlier)
    (hfails : merger.turn archive earlier fragment = (after, .error error)) :
    merger.mergeFragments (earlier ++ fragment :: rest) archive = (after, .error error) := by
  have hturn : (merger.afterTurns archive earlier).turn archive [] fragment = (after, .error error) :=
    hfails
  rw [mergeFragments_append_of_succeed hall, mergeFragments_cons, hturn]

theorem turnsSucceed_or_exists_first (merger : Merger σ) (archive : String)
    (fragments : List Archive.Fragment) :
    merger.TurnsSucceed archive fragments ∨
      ∃ earlier fragment later error after, fragments = earlier ++ fragment :: later ∧
        merger.TurnsSucceed archive earlier ∧
        merger.turn archive earlier fragment = (after, .error error) := by
  induction fragments generalizing merger with
  | nil => exact .inl turnsSucceed_nil
  | cons first rest ih =>
    cases hfirst : merger.turn archive [] first with
    | mk next outcome =>
      cases outcome with
      | error error => exact .inr ⟨[], first, rest, error, next, rfl, turnsSucceed_nil, hfirst⟩
      | ok _ =>
        rcases ih next with hall | ⟨earlier, fragment, later, error, after, rfl, hearlier, hfails⟩
        · left
          rw [turnsSucceed_cons_iff, hfirst]
          exact ⟨rfl, hall⟩
        · right
          refine ⟨first :: earlier, fragment, later, error, after, rfl, ?_, ?_⟩
          · rw [turnsSucceed_cons_iff, hfirst]
            exact ⟨rfl, hearlier⟩
          · rw [turn_cons, hfirst]
            exact hfails

/-! ### The one that fails -/

/-- A fragment that fails is taken if its reports failed, and else the merger is as it was. -/
theorem mergeBytes_of_fails {bytes : List UInt8} {label : String} {error : MergeError}
    {after : Merger σ} (hfails : merger.mergeBytes bytes label = (after, .error error)) :
    (∃ fault changes, error = .report fault ∧ readChanges bytes label = .ok changes ∧
        after.changes = merger.changes ++ changes) ∨
      Refusal merger.options ⟨bytes, false⟩ label error ∧ after = merger := by
  cases haccept : accept merger.options bytes label with
  | error cause =>
    rw [mergeBytes_of_error haccept, Prod.mk.injEq, Except.error.injEq] at hfails
    obtain ⟨rfl, rfl⟩ := hfails
    exact .inr ⟨refusal_of_accept rfl haccept, rfl⟩
  | ok changes =>
    rw [mergeBytes_of_ok haccept] at hfails
    have houtcome := congrArg Prod.snd hfails
    have hchanges := merger.take_changes changes
    rw [hfails] at hchanges
    rw [take_outcome] at houtcome
    cases hwritten : (ByteSink.writeAndFlush merger.reports (merger.reportChunks changes)).2 with
    | ok _ =>
      rw [hwritten] at houtcome
      cases houtcome
    | error fault =>
      rw [hwritten] at houtcome
      cases houtcome
      exact .inl ⟨fault, changes, rfl, (accept_eq_ok_iff.mp haccept).1, hchanges⟩

theorem stopsAt_of_fails {error : MergeError} {after : Merger σ}
    (hall : merger.TurnsSucceed archive earlier)
    (hfails : merger.turn archive earlier fragment = (after, .error error)) :
    merger.StopsAt archive earlier fragment error after where
  succeed := hall
  fails := hfails
  taken := by
    rcases mergeBytes_of_fails hfails with htaken | ⟨hrefusal, hafter⟩
    · exact .inl htaken
    · refine .inr ⟨?_, hafter⟩
      rintro fault rfl
      exact hrefusal

theorem StopsAt.ne_archive {error : MergeError} {after : Merger σ}
    (hstops : merger.StopsAt archive earlier fragment error after) (cause : Archive.Error) :
    error ≠ .archive cause := by
  rintro rfl
  rcases mergeBytes_of_fails hstops.fails with ⟨fault, changes, herror, -⟩ | ⟨hrefusal, -⟩
  · cases herror
  · exact hrefusal

/-! ### The archive -/

theorem mergeArchive_of_error {bytes : List UInt8} {error : Archive.Error}
    (hread : Archive.readFragments bytes = .error error) :
    merger.mergeArchive bytes archive = (merger, .error (.archive error)) := by
  rw [mergeArchive, hread]

theorem mergeArchive_of_succeed {bytes : List UInt8} {fragments : List Archive.Fragment}
    (hread : Archive.readFragments bytes = .ok fragments)
    (hall : merger.TurnsSucceed archive fragments) :
    merger.mergeArchive bytes archive = (merger.afterTurns archive fragments, .ok fragments.length) := by
  rw [mergeArchive, hread]
  dsimp only
  rw [mergeFragments_of_succeed hall]
  rfl

theorem StopsAt.mergeArchive_eq {error : MergeError} {after : Merger σ}
    (hstops : merger.StopsAt archive earlier fragment error after) {bytes : List UInt8}
    (hread : Archive.readFragments bytes = .ok (earlier ++ fragment :: rest)) :
    merger.mergeArchive bytes archive = (after, .error error) := by
  rw [mergeArchive, hread]
  dsimp only
  rw [mergeFragments_of_stops hstops.succeed hstops.fails]
  rfl

theorem succeed_or_stopsAt (merger : Merger σ) (archive : String)
    (fragments : List Archive.Fragment) :
    merger.TurnsSucceed archive fragments ∨
      ∃ earlier fragment later error after, fragments = earlier ++ fragment :: later ∧
        merger.StopsAt archive earlier fragment error after := by
  rcases merger.turnsSucceed_or_exists_first archive fragments with
    hall | ⟨earlier, fragment, later, error, after, hsplit, hearlier, hfails⟩
  · exact .inl hall
  · exact .inr ⟨earlier, fragment, later, error, after, hsplit, stopsAt_of_fails hearlier hfails⟩

end

end Merger

/-! ### The command -/

namespace Command

/-- How the command fails when the archive that a jar at `path` is fails to be merged. -/
def jarFailure (path : String) : MergeError → Failure
  | .archive error => .openJar path (.archive error)
  | error => .merge error

theorem jarFailure_eq_merge {error : MergeError} (herror : ∀ cause, error ≠ .archive cause)
    (path : String) : jarFailure path error = .merge error := by
  cases error with
  | archive cause => exact absurd rfl (herror cause)
  | parse | missingKey | conflicts | output | report | input => rfl

theorem run_mergeJars_cons {tree : FileTree} {path : String} {bytes : List UInt8}
    (hread : tree.read path = .ok bytes) (merger : Merger) (jars : List String) :
    (mergeJars FileTree.access merger (path :: jars)).run tree =
      match merger.mergeArchive bytes path with
      | (after, .ok _) => (mergeJars FileTree.access after jars).run tree
      | (after, .error error) => ((after, .error (jarFailure path error)), tree) := by
  rw [mergeJars]
  cases hfound : Archive.readFragments bytes with
  | error error =>
    rw [run_bind (run_jarFragments_of_error hread hfound), Merger.mergeArchive_of_error hfound]
    rfl
  | ok fragments =>
    rw [run_bind (run_jarFragments hread hfound)]
    dsimp only
    rcases merger.succeed_or_stopsAt path fragments with
      hall | ⟨earlier, fragment, later, error, after, rfl, hstops⟩
    · rw [Merger.mergeArchive_of_succeed hfound hall, Merger.mergeFragments_of_succeed hall]
    · rw [hstops.mergeArchive_eq hfound, Merger.mergeFragments_of_stops hstops.succeed hstops.fails]
      dsimp only
      rw [jarFailure_eq_merge hstops.ne_archive]
      rfl

end Command

/-- Merging an archive is merging its fragments in turn, up to the first that fails; if the archive
cannot be read the merger stays as it is. The command merges a jar in the same way, and goes on with the
next one if no fragment failed. -/
theorem mergeArchive_in_turn {σ : Type} [ByteSink σ] (merger : Merger σ) (bytes : List UInt8)
    (label : String) :
    (∀ error, Archive.readFragments bytes = .error error →
      merger.mergeArchive bytes label = (merger, .error (.archive error))) ∧
    (∀ fragments, Archive.readFragments bytes = .ok fragments →
      (merger.TurnsSucceed label fragments ∧
        merger.mergeArchive bytes label =
          (merger.afterTurns label fragments, .ok fragments.length)) ∨
      ∃ earlier fragment later error after, fragments = earlier ++ fragment :: later ∧
        merger.StopsAt label earlier fragment error after ∧
        ∀ others more, Archive.readFragments others = .ok (earlier ++ fragment :: more) →
          merger.mergeArchive others label = (after, .error error)) ∧
    ∀ (held : Merger) (tree : Command.FileTree) (path : String) (jars : List String),
      tree.read path = .ok bytes →
        (Command.mergeJars Command.FileTree.access held (path :: jars)).run tree =
          match held.mergeArchive bytes path with
          | (after, .ok _) => (Command.mergeJars Command.FileTree.access after jars).run tree
          | (after, .error error) => ((after, .error (Command.jarFailure path error)), tree) := by
  refine ⟨fun error hread => mergeArchive_of_error hread, fun fragments hread => ?_,
    fun held tree path jars hread => Command.run_mergeJars_cons hread held jars⟩
  rcases merger.succeed_or_stopsAt label fragments with
    hall | ⟨earlier, fragment, later, error, after, hsplit, hstops⟩
  · exact .inl ⟨hall, mergeArchive_of_succeed hread hall⟩
  · exact .inr ⟨earlier, fragment, later, error, after, hsplit, hstops,
      fun others more hothers => hstops.mergeArchive_eq hothers⟩

end CompatChanges
