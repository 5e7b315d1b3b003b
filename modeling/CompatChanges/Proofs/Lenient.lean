import CompatChanges.Proofs.Commit
import CompatChanges.Proofs.Delivery
import CompatChanges.Proofs.Sequence

/-!
# With and without detection

Detection can only refuse: a fragment, when one of its changes lacks a key, or a view, when two changes
clash. What it lets through is the same as without it. So a command that succeeds also succeeds with
leave to reuse ids and names, and leaves the same files.
-/

namespace CompatChanges

namespace Merger

/-- The fragment was taken, whether its conflicts could be reported or not. -/
def Accepted : Except MergeError Unit → Prop
  | .ok () => True
  | .error (.report _) => True
  | .error _ => False

theorem Feed.not_accepted_of_error {options : Options} {next : Feed} {error : MergeError}
    (haccept : next.accept options = .error error) : ¬Accepted (.error error) := by
  have hrefused {stream : Stream} {label : String} (hrefusal : Refusal options stream label error) :
      ¬Accepted (.error error) := by
    intro haccepted
    cases error with
    | report fault => exact hrefusal
    | _ => exact haccepted
  cases next with
  | merge stream label =>
    rw [Feed.accept] at haccept
    split at haccept
    · cases haccept
      exact id
    · next hreads => exact hrefused (refusal_of_accept (by simpa using hreads) haccept)
  | mergeBytes bytes label =>
    have hreads : (Stream.mk bytes false).fails = false := rfl
    exact hrefused (refusal_of_accept hreads haccept)

theorem Feed.verdict_eq_ok_of_accepted {options : Options} {next : Feed}
    (haccepted : Accepted (next.verdict options)) : next.verdict options = .ok () := by
  unfold Feed.verdict at haccepted ⊢
  cases haccept : next.accept options with
  | error error =>
    rw [haccept] at haccepted
    exact absurd haccepted (Feed.not_accepted_of_error haccept)
  | ok changes => rfl

/-- What detection accepts is accepted without it, with the same changes. -/
theorem Feed.accept_lenient {layout : Xml.Layout} {next : Feed} {changes : List Change}
    (haccept : next.accept ⟨true, layout⟩ = .ok changes) :
    next.accept ⟨false, layout⟩ = .ok changes := by
  have hlenient {bytes : List UInt8} {label : String}
      (hstrict : Merger.accept ⟨true, layout⟩ bytes label = .ok changes) :
      Merger.accept ⟨false, layout⟩ bytes label = .ok changes :=
    accept_eq_ok_iff.mpr ⟨(accept_eq_ok_iff.mp hstrict).1, nofun⟩
  cases next with
  | merge stream label =>
    rw [Feed.accept] at haccept ⊢
    split at haccept
    · cases haccept
    · next hreads =>
      rw [if_neg hreads]
      exact hlenient haccept
  | mergeBytes bytes label => exact hlenient haccept

section

variable {σ τ : Type} [ByteSink σ] [ByteSink τ]

theorem accepted_feed_iff {merger : Merger σ} {next : Feed} :
    Accepted (merger.feed next).2 ↔ ∃ changes, next.accept merger.options = .ok changes := by
  cases haccept : next.accept merger.options with
  | error error =>
    rw [feed_of_error haccept]
    exact iff_of_false (Feed.not_accepted_of_error haccept) nofun
  | ok changes =>
    rw [feed_of_ok haccept, take_outcome]
    refine iff_of_true ?_ ⟨changes, rfl⟩
    cases (ByteSink.writeAndFlush merger.reports (merger.reportChunks changes)).2 <;> trivial

theorem forall_accepted_iff {merger : Merger σ} {feeds : List Feed} :
    (∀ outcome ∈ merger.outcomes feeds, Accepted outcome) ↔
      ∀ next ∈ feeds, ∃ changes, next.accept merger.options = .ok changes := by
  induction feeds generalizing merger with
  | nil => exact iff_of_true nofun nofun
  | cons next rest ih =>
    rw [outcomes, List.forall_mem_cons, List.forall_mem_cons, accepted_feed_iff, ih, feed_options]

variable {strict : Merger σ} {lenient : Merger τ} {layout : Xml.Layout}

theorem forall₂_accepted (hstrict : strict.options = ⟨true, layout⟩)
    (hlenient : lenient.options = ⟨false, layout⟩) (feeds : List Feed) :
    List.Forall₂ (fun outcome other => Accepted outcome → Accepted other) (strict.outcomes feeds)
      (lenient.outcomes feeds) := by
  induction feeds generalizing strict lenient with
  | nil => exact .nil
  | cons next rest ih =>
    refine .cons ?_ (ih ?_ ?_)
    · rw [accepted_feed_iff, accepted_feed_iff, hstrict, hlenient]
      rintro ⟨changes, haccept⟩
      exact ⟨changes, Feed.accept_lenient haccept⟩
    · rw [feed_options, hstrict]
    · rw [feed_options, hlenient]

theorem flatMap_taken_of_accepted {feeds : List Feed}
    (haccepted : ∀ next ∈ feeds, ∃ changes, next.accept ⟨true, layout⟩ = .ok changes) :
    feeds.flatMap (Feed.taken ⟨false, layout⟩) = feeds.flatMap (Feed.taken ⟨true, layout⟩) := by
  refine List.flatMap_congr fun next hmem => ?_
  obtain ⟨changes, haccept⟩ := haccepted next hmem
  rw [Feed.taken, Feed.taken, haccept, Feed.accept_lenient haccept]

omit [ByteSink σ] [ByteSink τ] in
/-- A view that is not refused is a function of the changes and the layout. -/
theorem writeView_eq_of_lenient (hlenient : lenient.options.detectConflicts = false)
    (hlayout : lenient.options.layout = strict.options.layout)
    (hchanges : lenient.changes = strict.changes) {view : View} {υ : Type} [ByteSink υ] {sink : υ}
    (hwritten : (strict.writeView view sink).2 = .ok ()) :
    lenient.writeView view sink = strict.writeView view sink := by
  have hclear : lenient.ensureNoConflicts = .ok () := ensureNoConflicts_eq_ok_iff.mpr (.inl hlenient)
  unfold writeView at hwritten ⊢
  cases hensure : strict.ensureNoConflicts with
  | error error =>
    rw [hensure] at hwritten
    cases hwritten
  | ok _ => rw [hclear, hchanges, hlayout]

end

end Merger

namespace Command

open Merger

variable {tree after : FileTree} {request : Request}

/-- A request that was met is met with leave to reuse ids and names, and the files are the same. -/
theorem exists_execute_allowing (hends : Ends tree request (.ok ()) after)
    (hstrict : request.allowDuplicateChanges = false) :
    ∃ merger, (execute FileTree.access request.allowing).run tree = ((merger, .ok ()), after) := by
  cases hends with
  | @done changes middle _ hcollects hdevice hmerged hkeyed _ =>
    obtain ⟨fragments, hgives, hholds⟩ := hcollects
    have hgives : Gives tree request.allowing.jars request.allowing.xmls fragments := hgives
    -- The second merger is another one, but it takes the same fragments, since no change lacks a key.
    obtain ⟨merger, hrun, hreaches, hchanges⟩ := exists_run_mergeInputs hgives hholds (hkeyed hstrict)
    have hgathered : Gathered tree request.allowing merger changes :=
      ⟨⟨fragments, hgives, hholds⟩, hchanges, hreaches.options_eq, (sound_new _ _).reaches hreaches⟩
    have hclear : merger.ensureNoConflicts = .ok () := by
      rw [ensureNoConflicts_eq_ok_iff, hgathered.options]
      exact .inl rfl
    have hfirst : tree.deliver (merger.output .device) request.allowing.deviceConfig = .ok middle := by
      rw [hgathered.output_eq hclear]
      exact hdevice
    have hsecond : middle.deliver (merger.output .merged) request.allowing.mergedConfig = .ok after := by
      rw [hgathered.output_eq hclear]
      exact hmerged
    have houtputs := @run_writeOutputs_of_clear tree request.allowing merger hclear
    rw [hfirst] at houtputs
    dsimp only at houtputs
    rw [hsecond] at houtputs
    rw [execute, run_bind hrun]
    exact ⟨merger, run_bind houtputs _⟩

/-- Only usage errors keep a command line from being run, and they have a status of their own. -/
theorem exists_invocation_of_exitCode {arguments : List String}
    (hexit : ((run FileTree.access arguments).run tree).1.exitCode = 0) :
    ∃ invocation, parseArguments arguments = .ok invocation := by
  unfold run at hexit
  split at hexit
  · cases hexit
  · next hparse => exact ⟨_, hparse⟩
  · next hparse => exact ⟨_, hparse⟩
  · next hparse => exact ⟨_, hparse⟩

theorem run_allowing {arguments others : List String} {invocation : Invocation}
    (hparse : parseArguments arguments = .ok invocation)
    (hothers : parseArguments others = .ok invocation.allowing) (hwithout : allowFlag ∉ arguments)
    (hexit : ((run FileTree.access arguments).run tree).1.exitCode = 0) :
    ((run FileTree.access others).run tree).1.exitCode = 0 ∧
      ((run FileTree.access others).run tree).2 = ((run FileTree.access arguments).run tree).2 := by
  cases invocation with
  | version | help =>
    unfold run
    rw [hparse, hothers]
    exact ⟨rfl, rfl⟩
  | run request =>
    obtain ⟨outcome, stderr, after, hends, hrun⟩ := exists_ends_of_parse tree hparse
    rw [hrun] at hexit ⊢
    cases outcome with
    | error failure => cases hexit
    | ok _ =>
      obtain ⟨merger, hexecute⟩ := exists_execute_allowing hends (not_allows_of_parse hparse hwithout)
      rw [run, hothers]
      dsimp only [Invocation.allowing]
      rw [run_bind hexecute]
      exact ⟨rfl, rfl⟩

end Command

open Command Merger in
/-- Fragments that are accepted with detection are accepted without, and if all of them are, both mergers
hold the same changes and write the same views as far as the first one writes any. A command that succeeds
also succeeds with the flag that turns detection off between any two of its options, and leaves the same
files. -/
theorem lenient_of_strict {σ τ : Type} [ByteSink σ] [ByteSink τ] (layout : Xml.Layout) (reports : σ)
    (others : τ) (feeds : List Feed) :
    let strict := new ⟨true, layout⟩ reports
    let lenient := new ⟨false, layout⟩ others
    List.Forall₂ (fun outcome other => Accepted outcome → Accepted other) (strict.outcomes feeds)
        (lenient.outcomes feeds) ∧
      (ByteSink.NeverFails others →
        ∀ outcome ∈ lenient.outcomes feeds, Accepted outcome → outcome = .ok ()) ∧
      ((∀ outcome ∈ strict.outcomes feeds, Accepted outcome) →
        (lenient.feedAll feeds).changes = (strict.feedAll feeds).changes ∧
        ∀ (view : View) {υ : Type} [ByteSink υ] (sink : υ),
          ((strict.feedAll feeds).writeView view sink).2 = .ok () →
            (lenient.feedAll feeds).writeView view sink =
              (strict.feedAll feeds).writeView view sink) ∧
      ∀ (tree : FileTree) (front back : List String) (settings : List Setting),
        Spells front settings → allowFlag ∉ front ++ back →
        ((run FileTree.access (front ++ back)).run tree).1.exitCode = 0 →
          ((run FileTree.access (front ++ allowFlag :: back)).run tree).1.exitCode = 0 ∧
          ((run FileTree.access (front ++ allowFlag :: back)).run tree).2 =
            ((run FileTree.access (front ++ back)).run tree).2 := by
  intro strict lenient
  refine ⟨forall₂_accepted rfl rfl feeds, ?_, ?_, ?_⟩
  · intro hnever outcome hmem haccepted
    rw [outcomes_of_neverFails hnever] at hmem
    obtain ⟨next, -, rfl⟩ := List.mem_map.mp hmem
    exact Feed.verdict_eq_ok_of_accepted haccepted
  · intro haccepted
    have haccepts := forall_accepted_iff.mp haccepted
    have hchanges : (lenient.feedAll feeds).changes = (strict.feedAll feeds).changes := by
      rw [feedAll_changes, feedAll_changes]
      exact congrArg _ (flatMap_taken_of_accepted haccepts)
    refine ⟨hchanges, fun view υ _ sink hwritten => ?_⟩
    apply writeView_eq_of_lenient _ _ hchanges hwritten
    · rw [feedAll_options]
      rfl
    · rw [feedAll_options, feedAll_options]
      rfl
  · intro tree front back settings hspells hwithout hexit
    obtain ⟨invocation, hparse⟩ := exists_invocation_of_exitCode hexit
    exact run_allowing hparse (parseArguments_insert_allow hspells hwithout hparse) hwithout hexit

open Command Merger in
/-- Two changes that do not clash: the flag makes no difference to the view or to the file. -/
theorem lenient_of_strict_distinct :
    let feeds := [.mergeBytes (singleChange "1") "a", .mergeBytes (singleChange "2") "b"]
    let strict := new ⟨true, .compact⟩ Sink.unlimited
    let lenient := new ⟨false, .compact⟩ Sink.unlimited
    let front := ["--xml", "a.xml"]
    let back := ["--xml=b.xml", "--merged-config", "m.xml"]
    (∀ outcome ∈ strict.outcomes feeds, outcome = .ok ()) ∧
      ByteSink.NeverFails Sink.unlimited ∧
      ((strict.feedAll feeds).writeView .merged Sink.unlimited).2 = .ok () ∧
      (lenient.feedAll feeds).writeView .merged Sink.unlimited =
        (strict.feedAll feeds).writeView .merged Sink.unlimited ∧
      Spells front [.value .xml "a.xml"] ∧ allowFlag ∉ front ++ back ∧
      ((run FileTree.access (front ++ back)).run inputFiles).1.exitCode = 0 ∧
      ((run FileTree.access (front ++ allowFlag :: back)).run inputFiles).2 =
        ((run FileTree.access (front ++ back)).run inputFiles).2 := by
  have houtcomes : ∀ outcome ∈ (new ⟨true, .compact⟩ Sink.unlimited).outcomes
      [.mergeBytes (singleChange "1") "a", .mergeBytes (singleChange "2") "b"], outcome = .ok () := by
    decide +kernel
  have hwritten : (((new ⟨true, .compact⟩ Sink.unlimited).feedAll [.mergeBytes (singleChange "1") "a",
      .mergeBytes (singleChange "2") "b"]).writeView .merged Sink.unlimited).2 = .ok () := by
    decide +kernel
  have hspells : Spells ["--xml", "a.xml"] [.value .xml "a.xml"] := .separate .xml rfl .nil
  have hwithout : allowFlag ∉ ["--xml", "a.xml"] ++ ["--xml=b.xml", "--merged-config", "m.xml"] := by
    decide
  have hexit : ((run FileTree.access (["--xml", "a.xml"] ++
      ["--xml=b.xml", "--merged-config", "m.xml"])).run inputFiles).1.exitCode = 0 := by
    decide +kernel
  obtain ⟨-, -, hviews, hfiles⟩ := lenient_of_strict .compact Sink.unlimited Sink.unlimited
    [.mergeBytes (singleChange "1") "a", .mergeBytes (singleChange "2") "b"]
  obtain ⟨-, hviews⟩ := hviews fun outcome hmem => by
    rw [houtcomes outcome hmem]
    trivial
  exact ⟨houtcomes, Sink.acceptsAll_unlimited.neverFails, hwritten, hviews .merged _ hwritten, hspells,
    hwithout, hexit, (hfiles _ _ _ _ hspells hwithout hexit).2⟩

end CompatChanges
