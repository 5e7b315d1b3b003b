import CompatChanges.Proofs.Inputs
import CompatChanges.Proofs.Place
import CompatChanges.Proofs.Remerge
import CompatChanges.Proofs.Settings

/-!
# How a run ends

A run reads all inputs before it writes anything, so what it writes comes from the files at its start.
It fails without touching a file, or after the first of two outputs when the second has no place to be
put, or it leaves each output that is asked for and nothing else. In every case a file that was written
holds its whole document.
-/

namespace CompatChanges

open Text Xml

namespace Merger

variable {σ : Type} [ByteSink σ] {before : Merger σ}

theorem exists_read_of_mergeBytes {bytes : List UInt8} {label : String}
    (hok : (before.mergeBytes bytes label).2 = .ok ()) :
    ∃ changes, readChanges bytes label = .ok changes ∧
      (before.mergeBytes bytes label).1.changes = before.changes ++ changes := by
  cases haccept : accept before.options bytes label with
  | error error =>
    rw [mergeBytes_of_error haccept] at hok
    cases hok
  | ok changes =>
    rw [mergeBytes_of_ok haccept, take_changes]
    exact ⟨changes, (accept_eq_ok_iff.mp haccept).1, rfl⟩

/-- Fragments that were all merged have been read, and what they hold is added in order. -/
theorem exists_holds_of_mergeAll {fragments : List (List UInt8 × String)}
    (hok : (before.mergeAll fragments).2 = .ok ()) :
    ∃ changes, Holds fragments changes ∧
      (before.mergeAll fragments).1.changes = before.changes ++ changes := by
  induction fragments generalizing before with
  | nil => exact ⟨[], .nil, (List.append_nil _).symm⟩
  | cons fragment rest ih =>
    obtain ⟨bytes, label⟩ := fragment
    -- Stated before the merger is generalized, since the match is on its outcome.
    have hfirst := @exists_read_of_mergeBytes σ _ before bytes label
    rw [mergeAll] at hok ⊢
    generalize before.mergeBytes bytes label = merged at hfirst hok ⊢
    obtain ⟨next, outcome⟩ := merged
    cases outcome with
    | error error => cases hok
    | ok _ =>
      obtain ⟨changes, hread, hchanges⟩ := hfirst rfl
      obtain ⟨later, hholds, hlater⟩ := ih hok
      refine ⟨changes ++ later, .cons hread hholds, ?_⟩
      dsimp only at hchanges hlater ⊢
      rw [hlater, hchanges, List.append_assoc]

end Merger

namespace Command

/-- The changes that files give: those of each jar in turn, and then those of the single ones. -/
def Collects (tree : FileTree) (jars xmls : List String) (changes : List Change) : Prop :=
  ∃ fragments, Gives tree jars xmls fragments ∧ Holds fragments changes

/-- The bytes of the document that a view of the changes gives. -/
def Request.document (request : Request) (view : View) (changes : List Change) : List UInt8 :=
  Utf8.encode (render (view.project changes) request.options.layout).toList

/-- The tree with an output at its path, if it is asked for. -/
def FileTree.deliver (tree : FileTree) (contents : List UInt8) :
    (path : Option String) → Except Failure FileTree
  | none => .ok tree
  | some path => (tree.write path contents).mapError (.writeOutput path)

section Inputs

variable {tree : FileTree} {request : Request}

theorem run_jarFragments_cases (path : String) :
    (∃ bytes found, tree.read path = .ok bytes ∧ Archive.readFragments bytes = .ok found) ∨
      ∃ failure, (jarFragments FileTree.access path).run tree = (.error failure, tree) := by
  cases hread : tree.read path with
  | error fault =>
    right
    refine ⟨.openJar path (.file fault), ?_⟩
    rw [jarFragments, run_bind (run_read path), hread]
    rfl
  | ok bytes =>
    cases hfound : Archive.readFragments bytes with
    | error error => exact .inr ⟨.openJar path (.archive error), run_jarFragments_of_error hread hfound⟩
    | ok found => exact .inl ⟨bytes, found, rfl, hfound⟩

theorem run_mergeXmls_cases (merger : Merger) (xmls : List String) :
    (∃ fragments, Gives tree [] xmls fragments) ∨
      ∃ after failure,
        (mergeXmls FileTree.access merger xmls).run tree = ((after, .error failure), tree) := by
  induction xmls generalizing merger with
  | nil => exact .inl ⟨[], .nil⟩
  | cons path rest ih =>
    rw [mergeXmls, run_bind (run_read path)]
    cases hread : tree.read path with
    | error fault => exact .inr ⟨merger, .readXml path fault, rfl⟩
    | ok bytes =>
      dsimp only
      generalize merger.mergeBytes bytes path = merged
      obtain ⟨next, outcome⟩ := merged
      cases outcome with
      | error error => exact .inr ⟨next, .merge error, rfl⟩
      | ok _ =>
        rcases ih next with ⟨fragments, hgives⟩ | hfails
        · exact .inl ⟨(bytes, path) :: fragments, .xml hread hgives⟩
        · exact .inr hfails

/-- All inputs can be read, or merging them fails and leaves the files alone. -/
theorem run_mergeFrom_cases (merger : Merger) (jars xmls : List String) :
    (∃ fragments, Gives tree jars xmls fragments) ∨
      ∃ after failure, (mergeFrom merger jars xmls).run tree = ((after, .error failure), tree) := by
  induction jars generalizing merger with
  | nil => exact run_mergeXmls_cases merger xmls
  | cons path rest ih =>
    unfold mergeFrom mergeJars
    rw [bind_assoc]
    rcases @run_jarFragments_cases tree path with ⟨bytes, found, hread, hfound⟩ | ⟨failure, hrun⟩
    · rw [run_bind (run_jarFragments hread hfound)]
      dsimp only
      generalize merger.mergeFragments found path = merged
      obtain ⟨next, outcome⟩ := merged
      cases outcome with
      | error error => exact .inr ⟨next, .merge error, rfl⟩
      | ok _ =>
        rcases ih next with ⟨fragments, hgives⟩ | hfails
        · exact .inl ⟨_, .jar hread hfound hgives⟩
        · exact .inr hfails
    · rw [run_bind hrun]
      exact .inr ⟨merger, failure, rfl⟩

/-- The merger has taken all inputs, and holds the changes that they give. -/
structure Gathered (tree : FileTree) (request : Request) (merger : Merger) (changes : List Change) :
    Prop where
  collects : Collects tree request.jars request.xmls changes
  changes : merger.changes = changes
  options : merger.options = request.options
  sound : merger.Sound

theorem run_mergeInputs_cases (tree : FileTree) (request : Request) :
    (∃ merger failure,
      (mergeInputs FileTree.access request).run tree = ((merger, .error failure), tree)) ∨
      ∃ merger changes, Gathered tree request merger changes ∧
        (mergeInputs FileTree.access request).run tree = ((merger, .ok ()), tree) := by
  let fresh : Merger := .new request.options .unlimited
  rcases @run_mergeFrom_cases tree fresh request.jars request.xmls with
    ⟨fragments, hgives⟩ | hfails
  · have hrun : (mergeInputs FileTree.access request).run tree = _ := run_mergeFrom hgives fresh
    have hreaches := fresh.mergeAll_reaches fragments
    have hholds := @Merger.exists_holds_of_mergeAll _ _ fresh fragments
    generalize fresh.mergeAll fragments = merged at hrun hreaches hholds
    obtain ⟨merger, outcome⟩ := merged
    cases outcome with
    | error error => exact .inl ⟨merger, .merge error, hrun⟩
    | ok _ =>
      obtain ⟨changes, hholds, hchanges⟩ := hholds rfl
      refine .inr ⟨merger, changes, ⟨⟨fragments, hgives, hholds⟩, hchanges, ?_, ?_⟩, hrun⟩
      · exact hreaches.options_eq
      · exact (Merger.sound_new _ _).reaches hreaches
  · exact .inl hfails

end Inputs

section Outputs

variable {tree : FileTree} {request : Request} {merger : Merger} {changes : List Change}

theorem Gathered.output_eq (hgathered : Gathered tree request merger changes)
    (hclear : merger.ensureNoConflicts = .ok ()) (view : View) :
    merger.output view = request.document view changes := by
  rw [(Merger.writeView_unlimited hclear view).2, hgathered.changes, hgathered.options]
  rfl

theorem run_write (path : String) (contents : List UInt8) :
    (FileTree.access.write path contents).run tree =
      match tree.write path contents with
      | .ok after => (.ok (), after)
      | .error fault => (.error fault, tree) := by
  have hget : (get : StateM FileTree FileTree).run tree = (tree, tree) := rfl
  unfold FileTree.access
  rw [run_bind hget]
  cases tree.write path contents <;> rfl

theorem run_writeOutput_of_clear (hclear : merger.ensureNoConflicts = .ok ()) (view : View)
    (path : Option String) :
    (writeOutput FileTree.access merger view path).run tree =
      match tree.deliver (merger.output view) path with
      | .ok after => (.ok (), after)
      | .error failure => (.error failure, tree) := by
  cases path with
  | none => rfl
  | some path =>
    have hwrite : merger.writeView view Sink.unlimited =
        ((merger.writeView view Sink.unlimited).1, .ok ()) :=
      Prod.ext rfl (Merger.writeView_unlimited hclear view).1
    have hrun := @run_write tree path (merger.output view)
    rw [writeOutput, hwrite]
    dsimp only [FileTree.deliver]
    cases hwritten : tree.write path (merger.output view) <;>
      · rw [hwritten] at hrun
        exact run_bind hrun _

theorem run_writeOutputs_of_clear (hclear : merger.ensureNoConflicts = .ok ()) :
    (writeOutputs FileTree.access merger request).run tree =
      match tree.deliver (merger.output .device) request.deviceConfig with
      | .error failure => (.error failure, tree)
      | .ok middle =>
        match middle.deliver (merger.output .merged) request.mergedConfig with
        | .error failure => (.error failure, middle)
        | .ok after => (.ok (), after) := by
  have hdevice := @run_writeOutput_of_clear tree merger hclear .device request.deviceConfig
  unfold writeOutputs
  cases hdeliver : tree.deliver (merger.output .device) request.deviceConfig with
  | error failure =>
    rw [hdeliver] at hdevice
    rw [run_bind hdevice]
    rfl
  | ok middle =>
    rw [hdeliver] at hdevice
    rw [run_bind hdevice]
    dsimp only
    rw [run_writeOutput_of_clear hclear]
    cases middle.deliver (merger.output .merged) request.mergedConfig <;> rfl

/-- How a run can end, by what has become of the files. -/
inductive Ends (tree : FileTree) (request : Request) : Except Failure Unit → FileTree → Prop
  /-- Before any output was written. -/
  | early (failure : Failure) : Ends tree request (.error failure) tree
  /-- After the first output, when the second could not be written. -/
  | late {changes : List Change} {middle : FileTree} {failure : Failure}
      (hcollects : Collects tree request.jars request.xmls changes)
      (hdevice : tree.deliver (request.document .device changes) request.deviceConfig = .ok middle)
      (hmerged : middle.deliver (request.document .merged changes) request.mergedConfig =
        .error failure) :
      Ends tree request (.error failure) middle
  | done {changes : List Change} {middle after : FileTree}
      (hcollects : Collects tree request.jars request.xmls changes)
      (hdevice : tree.deliver (request.document .device changes) request.deviceConfig = .ok middle)
      (hmerged : middle.deliver (request.document .merged changes) request.mergedConfig = .ok after)
      (hkeyed : request.allowDuplicateChanges = false →
        ∀ change ∈ changes, change.missingKey? = none)
      (hunshared : request.allowDuplicateChanges = false → request.Writes →
        Unshared .id changes ∧ Unshared .name changes) :
      Ends tree request (.ok ()) after

theorem Gathered.detects (hgathered : Gathered tree request merger changes)
    (hstrict : request.allowDuplicateChanges = false) : merger.options.detectConflicts = true := by
  rw [hgathered.options]
  exact congrArg not hstrict

theorem Gathered.keyed (hgathered : Gathered tree request merger changes)
    (hstrict : request.allowDuplicateChanges = false) :
    ∀ change ∈ changes, change.missingKey? = none := by
  have hkeyed := hgathered.sound.keyed
  rwa [Merger.tracked_of_detects (hgathered.detects hstrict), hgathered.changes] at hkeyed

theorem Gathered.unshared (hgathered : Gathered tree request merger changes)
    (hstrict : request.allowDuplicateChanges = false) (hclear : merger.ensureNoConflicts = .ok ()) :
    Unshared .id changes ∧ Unshared .name changes := by
  have hdetects := hgathered.detects hstrict
  rw [← hgathered.changes, ← hgathered.sound.conflictCount_eq_zero_iff hdetects]
  rcases Merger.ensureNoConflicts_eq_ok_iff.mp hclear with hoff | hcount
  · rw [hdetects] at hoff
    cases hoff
  · exact hcount

theorem Gathered.ends (hgathered : Gathered tree request merger changes) :
    let result := (writeOutputs FileTree.access merger request).run tree
    Ends tree request result.1 result.2 := by
  intro result
  cases hensure : merger.ensureNoConflicts with
  | ok _ =>
    have hdevice := hgathered.output_eq hensure .device
    have hmerged := hgathered.output_eq hensure .merged
    have hresult : result = _ := run_writeOutputs_of_clear hensure
    rw [hresult, hdevice, hmerged]
    cases hfirst : tree.deliver (request.document .device changes) request.deviceConfig with
    | error failure => exact .early failure
    | ok middle =>
      dsimp only
      cases hsecond : middle.deliver (request.document .merged changes) request.mergedConfig with
      | error failure => exact .late hgathered.collects hfirst hsecond
      | ok after =>
        exact .done hgathered.collects hfirst hsecond hgathered.keyed fun hstrict _ =>
          hgathered.unshared hstrict hensure
  | error error =>
    have hrefused (view : View) :
        merger.writeView view Sink.unlimited = (Sink.unlimited, .error error) := by
      rw [Merger.writeView, hensure]
    have hresult : result = _ := run_writeOutputs_of_refused hrefused request
    rw [hresult]
    by_cases hwrites : request.Writes
    · rw [if_pos hwrites]
      exact .early _
    · rw [if_neg hwrites]
      -- Without an output nobody asks about conflicts.
      obtain ⟨hdevice, hmerged⟩ := not_or.mp hwrites
      rw [Option.not_isSome_iff_eq_none] at hdevice hmerged
      have hfirst : tree.deliver (request.document .device changes) request.deviceConfig = .ok tree := by
        rw [hdevice]
        rfl
      have hsecond : tree.deliver (request.document .merged changes) request.mergedConfig = .ok tree := by
        rw [hmerged]
        rfl
      exact .done hgathered.collects hfirst hsecond hgathered.keyed fun _ h => absurd h hwrites

theorem ends_execute (tree : FileTree) (request : Request) :
    let result := (execute FileTree.access request).run tree
    Ends tree request result.1.2 result.2 := by
  rcases run_mergeInputs_cases tree request with
    ⟨merger, failure, hrun⟩ | ⟨merger, changes, hgathered, hrun⟩
  · rw [execute, run_bind hrun]
    exact .early failure
  · rw [execute, run_bind hrun]
    exact hgathered.ends

end Outputs

section Runs

variable {tree : FileTree} {request : Request} {arguments : List String}

/-- The exit status tells whether the run failed. -/
theorem exists_ends_of_parse (tree : FileTree) (hparse : parseArguments arguments = .ok (.run request)) :
    ∃ outcome stderr after, Ends tree request outcome after ∧
      (run FileTree.access arguments).run tree =
        (⟨if outcome.isOk then 0 else 1, "", stderr⟩, after) := by
  have hends := ends_execute tree request
  rw [run, hparse]
  dsimp only
  cases hexecute : (execute FileTree.access request).run tree with
  | mk executed after =>
    obtain ⟨merger, outcome⟩ := executed
    rw [hexecute] at hends
    rw [run_bind hexecute]
    cases outcome with
    | ok _ => exact ⟨_, _, after, hends, rfl⟩
    | error failure => exact ⟨_, _, after, hends, rfl⟩

/-- Usage errors have an exit status of their own. -/
theorem exists_request_of_exitCode
    (hexit : ((run FileTree.access arguments).run tree).1.exitCode = 1) :
    ∃ request, parseArguments arguments = .ok (.run request) := by
  unfold run at hexit
  split at hexit
  · cases hexit
  · cases hexit
  · cases hexit
  · next request hparse => exact ⟨request, hparse⟩

/-- The settings that a command line spells, and what they ask for. -/
theorem exists_settings (hparse : parseArguments arguments = .ok (.run request)) :
    ∃ front settings, Spells front settings ∧ (arguments = front ∨ arguments = front ++ ["--"]) ∧
      Extends .empty settings request := by
  obtain ⟨front, settings, hspells, hends, hmeets⟩ := parseArguments_eq_run_iff.mp hparse
  exact ⟨front, settings, hspells, hends, extends_of_meetAll? hmeets⟩

end Runs

end Command

end CompatChanges
