import CompatChanges.Command.Run
import CompatChanges.Proofs.Report
import CompatChanges.Proofs.Verdict

/-!
# Inputs that clash

Reading leaves the files alone, so a command merges what the files give at its start: the fragments
of each jar in turn, and then the single ones. How they are spread over jars and files does not
matter for what follows. If two changes share an id or a name, each output that is asked for is
refused before its file is touched. A command that asks for none reports the conflicts and succeeds.
-/

namespace CompatChanges

/-- What fragments hold together, each of them read under its label. -/
inductive Holds : List (List UInt8 × String) → List Change → Prop
  | nil : Holds [] []
  | cons {bytes : List UInt8} {label : String} {rest : List (List UInt8 × String)}
      {changes later : List Change} (hread : readChanges bytes label = .ok changes)
      (hrest : Holds rest later) : Holds ((bytes, label) :: rest) (changes ++ later)

namespace Merger

theorem mergeAll_append {σ : Type} [ByteSink σ] (merger : Merger σ)
    (left right : List (List UInt8 × String)) :
    merger.mergeAll (left ++ right) =
      match merger.mergeAll left with
      | (after, .ok ()) => after.mergeAll right
      | (after, .error error) => (after, .error error) := by
  induction left generalizing merger with
  | nil => rfl
  | cons fragment rest ih =>
    obtain ⟨bytes, label⟩ := fragment
    rw [List.cons_append, mergeAll, mergeAll]
    obtain ⟨next, outcome⟩ := merger.mergeBytes bytes label
    cases outcome with
    | error error => rfl
    | ok _ => exact ih next

variable {before : Merger}

theorem mergeAll_of_holds (haccepts : before.reports.AcceptsAll)
    {fragments : List (List UInt8 × String)} {changes : List Change}
    (hholds : Holds fragments changes) (hkeyed : ∀ change ∈ changes, change.missingKey? = none) :
    (before.mergeAll fragments).2 = .ok () ∧
      (before.mergeAll fragments).1.changes = before.changes ++ changes := by
  induction hholds generalizing before with
  | nil => exact ⟨rfl, (List.append_nil _).symm⟩
  | @cons bytes label rest changes later hread _ ih =>
    obtain ⟨hfirst, hlater⟩ := List.forall_mem_append.mp hkeyed
    have haccept : accept before.options bytes label = .ok changes :=
      accept_eq_ok_iff.mpr ⟨hread, fun _ => hfirst⟩
    obtain ⟨houtcome, -, hnext⟩ := take_of_acceptsAll haccepts changes
    have htake : before.mergeBytes bytes label = ((before.take changes).1, .ok ()) := by
      rw [mergeBytes_of_ok haccept, ← houtcome]
    rw [mergeAll, htake, ← List.append_assoc, ← take_changes]
    exact ih hnext hlater

theorem Sound.conflictsAmong_ne_nil (hsound : before.Sound)
    (hdetect : before.options.detectConflicts = true) {key : Key}
    (hshared : ¬Unshared key before.changes) : conflictsAmong [] before.changes ≠ [] := by
  intro hnil
  have hcount := hsound.conflictCount_eq_length hdetect
  rw [hnil, List.length_nil, hsound.conflictCount_eq_zero_iff hdetect] at hcount
  apply hshared
  cases key with
  | id => exact hcount.1
  | name => exact hcount.2

/-- No view is written of changes that share an id or a name. -/
theorem Sound.writeView_of_not_unshared (hsound : before.Sound)
    (hdetect : before.options.detectConflicts = true) {key : Key}
    (hshared : ¬Unshared key before.changes) (view : View) {τ : Type} [ByteSink τ] (sink : τ) :
    before.writeView view sink =
      (sink, .error (.conflicts (conflictsAmong [] before.changes).length)) := by
  have hcount := hsound.conflictCount_eq_length hdetect
  rw [← hcount]
  apply writeView_of_conflicts hdetect
  rw [hcount]
  exact mt List.length_eq_zero_iff.mp (hsound.conflictsAmong_ne_nil hdetect hshared)

end Merger

namespace Command

/-- The fragments that files give: those of each jar in turn, and then the single ones. -/
inductive Gives (tree : FileTree) :
    (jars xmls : List String) → List (List UInt8 × String) → Prop
  | nil : Gives tree [] [] []
  | jar {path : String} {bytes : List UInt8} {found : List Archive.Fragment}
      {jars xmls : List String} {fragments : List (List UInt8 × String)}
      (hread : tree.read path = .ok bytes) (hfound : Archive.readFragments bytes = .ok found)
      (hrest : Gives tree jars xmls fragments) :
      Gives tree (path :: jars) xmls
        (found.map (fun fragment => (fragment.contents, fragment.label path)) ++ fragments)
  | xml {path : String} {bytes : List UInt8} {xmls : List String}
      {fragments : List (List UInt8 × String)} (hread : tree.read path = .ok bytes)
      (hrest : Gives tree [] xmls fragments) :
      Gives tree [] (path :: xmls) ((bytes, path) :: fragments)

/-- Whether an output is asked for. -/
def Request.Writes (request : Request) : Prop :=
  request.deviceConfig.isSome ∨ request.mergedConfig.isSome

instance (request : Request) : Decidable request.Writes := inferInstanceAs (Decidable (_ ∨ _))

section Runs

variable {tree after : FileTree} {α β : Type}

theorem run_bind {action : StateM FileTree α} {value : α} (hrun : action.run tree = (value, after))
    (next : α → StateM FileTree β) : (action >>= next).run tree = (next value).run after := by
  rw [StateT.run_bind, hrun]
  rfl

theorem run_read (path : String) : (FileTree.access.read path).run tree = (tree.read path, tree) := rfl

theorem run_jarFragments {path : String} {bytes : List UInt8} {found : List Archive.Fragment}
    (hread : tree.read path = .ok bytes) (hfound : Archive.readFragments bytes = .ok found) :
    (jarFragments FileTree.access path).run tree = (.ok found, tree) := by
  rw [jarFragments, run_bind (run_read path), hread]
  dsimp only
  rw [hfound]
  rfl

theorem run_jarFragments_of_error {path : String} {bytes : List UInt8} {error : Archive.Error}
    (hread : tree.read path = .ok bytes) (hfound : Archive.readFragments bytes = .error error) :
    (jarFragments FileTree.access path).run tree = (.error (.openJar path (.archive error)), tree) := by
  rw [jarFragments, run_bind (run_read path), hread]
  dsimp only
  rw [hfound]
  rfl

/-- The inputs, merged into a merger that may have taken others before. -/
def mergeFrom (merger : Merger) (jars xmls : List String) :
    StateM FileTree (Merger × Except Failure Unit) := do
  match ← mergeJars FileTree.access merger jars with
  | (merger, .error failure) => return (merger, .error failure)
  | (merger, .ok ()) => mergeXmls FileTree.access merger xmls

/-- Merging inputs is merging the fragments that the files give, and the files stay as they are. -/
theorem run_mergeFrom {jars xmls : List String} {fragments : List (List UInt8 × String)}
    (hgives : Gives tree jars xmls fragments) (merger : Merger) :
    (mergeFrom merger jars xmls).run tree =
      (((merger.mergeAll fragments).1, (merger.mergeAll fragments).2.mapError .merge), tree) := by
  induction hgives generalizing merger with
  | nil => rfl
  | @jar path bytes found jars xmls fragments hread hfound _ ih =>
    rw [Merger.mergeAll_append]
    unfold mergeFrom mergeJars
    rw [bind_assoc, run_bind (run_jarFragments hread hfound)]
    dsimp only [Merger.mergeFragments]
    generalize merger.mergeAll _ = merged
    obtain ⟨next, outcome⟩ := merged
    cases outcome with
    | error error => rfl
    | ok _ => exact ih next
  | @xml path bytes xmls fragments hread _ ih =>
    have hmerge : mergeFrom merger [] (path :: xmls) = mergeXmls FileTree.access merger (path :: xmls) :=
      rfl
    rw [hmerge, mergeXmls, run_bind (run_read path), hread, Merger.mergeAll]
    dsimp only
    generalize merger.mergeBytes bytes path = merged
    obtain ⟨next, outcome⟩ := merged
    cases outcome with
    | error error => rfl
    | ok _ => exact ih next

/-! ### Outputs that are refused -/

variable {merger : Merger} {error : MergeError}

theorem run_writeOutput_of_refused
    (hrefused : ∀ view, merger.writeView view Sink.unlimited = (Sink.unlimited, .error error))
    (view : View) (path : Option String) :
    (writeOutput FileTree.access merger view path).run tree =
      (if path.isSome then .error (.merge error) else .ok (), tree) := by
  cases path with
  | none => rfl
  | some path =>
    rw [writeOutput, hrefused]
    rfl

theorem run_writeOutputs_of_refused
    (hrefused : ∀ view, merger.writeView view Sink.unlimited = (Sink.unlimited, .error error))
    (request : Request) :
    (writeOutputs FileTree.access merger request).run tree =
      (if request.Writes then .error (.merge error) else .ok (), tree) := by
  rw [writeOutputs, run_bind (run_writeOutput_of_refused hrefused _ _)]
  by_cases hdevice : request.deviceConfig.isSome
  · have hwrites : request.Writes := .inl hdevice
    rw [if_pos hdevice, if_pos hwrites]
    rfl
  · have hwrites : request.Writes ↔ request.mergedConfig.isSome := or_iff_right hdevice
    rw [if_neg hdevice, if_congr hwrites rfl rfl]
    exact run_writeOutput_of_refused hrefused _ _

end Runs

/-! ### Changes that share an id or a name -/

section Shared

variable {request : Request} {tree : FileTree} {fragments : List (List UInt8 × String)}
  {changes : List Change} {key : Key}

/-- If every fragment can be merged, the merger comes to hold all changes and the files stay. -/
theorem exists_run_mergeInputs (hgives : Gives tree request.jars request.xmls fragments)
    (hholds : Holds fragments changes) (hkeyed : ∀ change ∈ changes, change.missingKey? = none) :
    ∃ merger, (mergeInputs FileTree.access request).run tree = ((merger, .ok ()), tree) ∧
      (Merger.new request.options .unlimited).Reaches merger ∧ merger.changes = changes := by
  have haccepts : (Merger.new request.options Sink.unlimited).reports.AcceptsAll :=
    Sink.acceptsAll_unlimited
  obtain ⟨houtcome, hchanges⟩ := Merger.mergeAll_of_holds haccepts hholds hkeyed
  refine ⟨_, ?_, Merger.mergeAll_reaches _ fragments, hchanges⟩
  refine (run_mergeFrom hgives _).trans ?_
  rw [houtcome]
  rfl

theorem exists_run_execute (hdetect : request.allowDuplicateChanges = false)
    (hgives : Gives tree request.jars request.xmls fragments) (hholds : Holds fragments changes)
    (hkeyed : ∀ change ∈ changes, change.missingKey? = none) (hshared : ¬Unshared key changes) :
    ∃ merger : Merger,
      conflictsAmong [] changes ≠ [] ∧
      merger.reports.bytes = reportBytes (conflictsAmong [] changes) ∧
      (execute FileTree.access request).run tree =
        ((merger, if request.Writes then .error (.merge (.conflicts (conflictsAmong [] changes).length))
          else .ok ()), tree) := by
  obtain ⟨merger, hrun, hreaches, rfl⟩ := exists_run_mergeInputs hgives hholds hkeyed
  have hdetects : merger.options.detectConflicts = true := by
    rw [hreaches.options_eq]
    exact congrArg not hdetect
  have hnew := Merger.sound_new request.options Sink.unlimited
  have hsound := hnew.reaches hreaches
  have hreported := (Merger.reported_new request.options).reaches hnew hreaches
  refine ⟨merger, hsound.conflictsAmong_ne_nil hdetects hshared, hreported.bytes_eq hdetects, ?_⟩
  have hrefused (view : View) := hsound.writeView_of_not_unshared hdetects hshared view Sink.unlimited
  rw [execute, run_bind hrun]
  exact (run_bind (run_writeOutputs_of_refused hrefused request) _).trans rfl

/-- If two of the changes that the inputs give share an id or a name, all conflicts are reported and no
path changes. The command then fails if it is to write an output, and succeeds if it is not. -/
theorem run_of_not_unshared {arguments : List String}
    (hparse : parseArguments arguments = .ok (.run request))
    (hdetect : request.allowDuplicateChanges = false)
    (hgives : Gives tree request.jars request.xmls fragments) (hholds : Holds fragments changes)
    (hkeyed : ∀ change ∈ changes, change.missingKey? = none) (hshared : ¬Unshared key changes) :
    let conflicts := conflictsAmong [] changes
    let failure : Failure := .merge (.conflicts conflicts.length)
    conflicts ≠ [] ∧
      (run FileTree.access arguments).run tree =
        (if request.Writes then ⟨1, "", reportBytes conflicts ++ bytesOf failure.line⟩
          else ⟨0, "", reportBytes conflicts⟩, tree) := by
  intro conflicts failure
  obtain ⟨merger, hconflicts, hbytes, hrun⟩ := exists_run_execute hdetect hgives hholds hkeyed hshared
  refine ⟨hconflicts, ?_⟩
  rw [run, hparse, ← hbytes]
  refine (run_bind hrun _).trans ?_
  by_cases hwrites : request.Writes
  · rw [if_pos hwrites, if_pos hwrites]
    rfl
  · rw [if_neg hwrites, if_neg hwrites]
    rfl

end Shared

/-- A document in which two changes share an id. -/
def sharedId : List UInt8 :=
  Text.Utf8.encode
    "<config><c id=\"1\" name=\"A\"/><c id=\"1\" name=\"B\"/></config>".toList

/-- The document is the one file. -/
def sharedIdFiles : FileTree := ⟨[(⟨.above 0, ["a.xml"]⟩, .file sharedId)]⟩

theorem gives_sharedIdFiles : Gives sharedIdFiles [] ["a.xml"] [(sharedId, "a.xml")] := by
  have hread : sharedIdFiles.read "a.xml" = .ok sharedId := by decide +kernel
  exact .xml hread .nil

theorem exists_holds_sharedId :
    ∃ changes, Holds [(sharedId, "a.xml")] changes ∧
      (∀ change ∈ changes, change.missingKey? = none) ∧ ¬Unshared .id changes := by
  have hfacts : (readChanges sharedId "a.xml").map (fun changes =>
      (changes.all (·.missingKey?.isNone), distinctCount .id changes, changes.length)) =
        .ok (true, 1, 2) := by
    decide +kernel
  cases hread : readChanges sharedId "a.xml" with
  | error error =>
    rw [hread] at hfacts
    cases hfacts
  | ok changes =>
    rw [hread, Except.map, Except.ok.injEq, Prod.mk.injEq, Prod.mk.injEq] at hfacts
    obtain ⟨hall, hdistinct, hlength⟩ := hfacts
    have hkeyed : ∀ change ∈ changes, change.missingKey? = none := by
      simpa using hall
    refine ⟨changes, ?_, hkeyed, ?_⟩
    · rw [← List.append_nil changes]
      exact .cons hread .nil
    · rw [← distinctCount_eq_length_iff hkeyed]
      omega

/-- With an output to write, the command fails and the output is not made. -/
theorem run_of_not_unshared_sharedId :
    ∃ request changes,
      parseArguments ["--xml", "a.xml", "--merged-config", "m.xml"] = .ok (.run request) ∧
        request.allowDuplicateChanges = false ∧
        Gives sharedIdFiles request.jars request.xmls [(sharedId, "a.xml")] ∧
        Holds [(sharedId, "a.xml")] changes ∧
        (∀ change ∈ changes, change.missingKey? = none) ∧ ¬Unshared .id changes ∧
          let result :=
            (run FileTree.access ["--xml", "a.xml", "--merged-config", "m.xml"]).run sharedIdFiles
          result.1.exitCode = 1 ∧ result.2 = sharedIdFiles := by
  obtain ⟨changes, hholds, hkeyed, hshared⟩ := exists_holds_sharedId
  have hparse : parseArguments ["--xml", "a.xml", "--merged-config", "m.xml"] =
      .ok (.run ⟨[], ["a.xml"], none, some "m.xml", none, false⟩) := by
    decide +kernel
  obtain ⟨-, hrun⟩ := run_of_not_unshared hparse rfl gives_sharedIdFiles hholds hkeyed hshared
  refine ⟨_, changes, hparse, rfl, gives_sharedIdFiles, hholds, hkeyed, hshared, ?_⟩
  rw [hrun]
  exact ⟨rfl, rfl⟩

/-- Without an output to write, the command succeeds although two changes share an id. -/
theorem run_sharedId_succeeds :
    ∃ request changes,
      parseArguments ["--xml", "a.xml"] = .ok (.run request) ∧
        request.allowDuplicateChanges = false ∧
        Gives sharedIdFiles request.jars request.xmls [(sharedId, "a.xml")] ∧
        Holds [(sharedId, "a.xml")] changes ∧
        (∀ change ∈ changes, change.missingKey? = none) ∧ ¬Unshared .id changes ∧
          ((run FileTree.access ["--xml", "a.xml"]).run sharedIdFiles).1.exitCode = 0 := by
  obtain ⟨changes, hholds, hkeyed, hshared⟩ := exists_holds_sharedId
  have hparse : parseArguments ["--xml", "a.xml"] =
      .ok (.run ⟨[], ["a.xml"], none, none, none, false⟩) := by
    decide +kernel
  have hdetect : (⟨[], ["a.xml"], none, none, none, false⟩ : Request).allowDuplicateChanges = false :=
    rfl
  obtain ⟨merger, -, -, hrun⟩ :=
    exists_run_execute hdetect gives_sharedIdFiles hholds hkeyed hshared
  refine ⟨_, changes, hparse, hdetect, gives_sharedIdFiles, hholds, hkeyed, hshared, ?_⟩
  rw [run, hparse]
  dsimp only
  rw [run_bind hrun]
  rfl

end Command

end CompatChanges
