import CompatChanges.Proofs.Execution

/-!
# What a run leaves behind

A run that succeeds leaves the documents of all its inputs, as they were at its start, in the files
that are asked for, and every other file as it was. A run that fails leaves all files as they were but
for one case: each output is put in place by itself, so a device config that is written before the
merged config finds no place stays there, whole.
-/

namespace CompatChanges.Command

open FileTree

variable {tree middle after : FileTree} {request : Request} {changes : List Change}
  {contents : List UInt8} {arguments : List String}

theorem deliver_some_eq_ok_iff {path : String} :
    tree.deliver contents (some path) = .ok after ↔ tree.write path contents = .ok after := by
  change (tree.write path contents).mapError (Failure.writeOutput path) = .ok after ↔ _
  cases tree.write path contents with
  | error fault => exact iff_of_false nofun nofun
  | ok found =>
    change Except.ok found = Except.ok after ↔ _
    rw [Except.ok.injEq, Except.ok.injEq]

theorem differsAt_of_deliver {path : Option String} (hdeliver : tree.deliver contents path = .ok after) :
    DiffersAt path.toList tree after := by
  cases path with
  | none =>
    cases hdeliver
    exact .refl tree
  | some path => exact differsAt_of_write (deliver_some_eq_ok_iff.mp hdeliver)

theorem read_of_deliver {path : String} (hdeliver : tree.deliver contents (some path) = .ok after) :
    after.read path = .ok contents := by
  have hwrite := deliver_some_eq_ok_iff.mp hdeliver
  exact read_of_write hwrite (sameFile_of_write hwrite)

/-- An output that fails is asked for and could not be written at all. -/
theorem exists_of_deliver_eq_error {path : Option String} {failure : Failure}
    (hdeliver : tree.deliver contents path = .error failure) :
    ∃ output, path = some output ∧ ¬∃ later, tree.write output contents = .ok later := by
  cases path with
  | none => cases hdeliver
  | some output =>
    refine ⟨output, rfl, ?_⟩
    rintro ⟨later, hwrite⟩
    rw [deliver_some_eq_ok_iff.mpr hwrite] at hdeliver
    cases hdeliver

/-! ### Runs that fail -/

/-- After a run with exit status 1 all files are as they were, unless both outputs are asked for and
the merged config cannot be written where it is to go. The device config then holds its whole document,
and every other path reads as before. -/
theorem files_of_run_fails (hexit : ((run FileTree.access arguments).run tree).1.exitCode = 1) :
    let after := ((run FileTree.access arguments).run tree).2
    after = tree ∨
      ∃ request changes device merged, parseArguments arguments = .ok (.run request) ∧
        request.deviceConfig = some device ∧ request.mergedConfig = some merged ∧
        Collects tree request.jars request.xmls changes ∧
        (¬∃ later, tree.write merged (request.document .merged changes) = .ok later) ∧
        after.read device = .ok (request.document .device changes) ∧
        DiffersAt [device] tree after ∧
        ∀ path, ¬tree.SameFile device path →
          ∀ contents, after.read path = .ok contents ↔ tree.read path = .ok contents := by
  intro after
  obtain ⟨request, hparse⟩ := exists_request_of_exitCode hexit
  obtain ⟨outcome, stderr, final, hends, hrun⟩ := exists_ends_of_parse tree hparse
  have hafter : after = final := congrArg Prod.snd hrun
  rw [hrun] at hexit
  rw [hafter]
  cases hends with
  | early failure => exact .inl rfl
  | done => cases hexit
  | @late changes _ failure hcollects hdevice hmerged =>
    obtain ⟨merged, hasks, hrefused⟩ := exists_of_deliver_eq_error hmerged
    cases hpath : request.deviceConfig with
    | none =>
      -- The output that failed was the only one, and nothing was written before it.
      rw [hpath] at hdevice
      cases hdevice
      exact .inl rfl
    | some device =>
      rw [hpath] at hdevice
      have hwrite := deliver_some_eq_ok_iff.mp hdevice
      have hdiffers := differsAt_of_write hwrite
      refine .inr ⟨request, changes, device, merged, hparse, hpath, hasks, hcollects, ?_,
        read_of_deliver hdevice, hdiffers, fun path hother contents => ?_⟩
      · -- It failed in the tree that has the device config, which has the same places.
        rwa [← exists_write_iff_of_write hwrite]
      · exact hdiffers.read_eq_ok_iff (by simpa using hother)

/-- A document with one change. -/
def singleChange (id : String) : List UInt8 :=
  bytesOf ("<config><c id=\"" ++ id ++ "\" name=\"N" ++ id ++ "\"/></config>")

def emptyArchive : List UInt8 := [0x50, 0x4b, 5, 6] ++ List.replicate 18 0

/-- Two documents and an archive in the working directory. -/
def inputFiles : FileTree :=
  ⟨[(⟨.above 0, ["a.xml"]⟩, .file (singleChange "1")), (⟨.above 0, ["b.xml"]⟩, .file (singleChange "2")),
    (⟨.above 0, ["e.jar"]⟩, .file emptyArchive)]⟩

/-- The merged config is to go into a directory that is not there. -/
def misplaced : List String :=
  ["--xml", "a.xml", "--device-config", "d.xml", "--merged-config", "no/m.xml"]

/-- The run fails, and the device config is there although it was not before. -/
theorem run_misplaced_leaves_device_config :
    let result := (run FileTree.access misplaced).run inputFiles
    result.1.exitCode = 1 ∧ inputFiles.read "d.xml" = .error .notFound ∧
      (result.2.read "d.xml").isOk = true := by
  decide +kernel

/-- What is left of the run that fails is the whole device config. -/
theorem files_of_run_fails_misplaced :
    let result := (run FileTree.access misplaced).run inputFiles
    result.1.exitCode = 1 ∧
      ∃ request changes, parseArguments misplaced = .ok (.run request) ∧
        Collects inputFiles request.jars request.xmls changes ∧
        result.2.read "d.xml" = .ok (request.document .device changes) ∧
        DiffersAt ["d.xml"] inputFiles result.2 := by
  obtain ⟨hexit, habsent, hpresent⟩ :
      ((run FileTree.access misplaced).run inputFiles).1.exitCode = 1 ∧
        (inputFiles.read "d.xml").isOk = false ∧
        (((run FileTree.access misplaced).run inputFiles).2.read "d.xml").isOk = true := by
    decide +kernel
  have hparse : parseArguments misplaced =
      .ok (.run ⟨[], ["a.xml"], some "d.xml", some "no/m.xml", none, false⟩) := by
    decide +kernel
  refine ⟨hexit, ?_⟩
  rcases files_of_run_fails hexit with
    hsame | ⟨request, changes, device, merged, hrequest, hdevice, -, hcollects, -, hread, hdiffers, -⟩
  · rw [hsame, habsent] at hpresent
    cases hpresent
  · obtain rfl := Invocation.run.inj (Except.ok.inj (hparse.symm.trans hrequest))
    obtain rfl := Option.some.inj hdevice
    exact ⟨_, changes, hparse, hcollects, hread, hdiffers⟩

/-! ### Runs that succeed -/

/-- What a request asks for is there, and nothing else is different. -/
structure Delivered (tree : FileTree) (request : Request) (changes : List Change) (after : FileTree) :
    Prop where
  merged : ∀ path, request.mergedConfig = some path →
    after.read path = .ok (request.document .merged changes)
  device : ∀ path, request.deviceConfig = some path →
    (∀ other, request.mergedConfig = some other → ¬tree.SameFile other path) →
      after.read path = .ok (request.document .device changes)
  /-- If both are to go to one file, it holds the merged config. -/
  shared : ∀ path, request.deviceConfig = some path →
    ∀ other, request.mergedConfig = some other → tree.SameFile other path →
      after.read path = .ok (request.document .merged changes)
  differs : DiffersAt (request.deviceConfig.toList ++ request.mergedConfig.toList) tree after

theorem delivered_of_deliver
    (hdevice : tree.deliver (request.document .device changes) request.deviceConfig = .ok middle)
    (hmerged : middle.deliver (request.document .merged changes) request.mergedConfig = .ok after) :
    Delivered tree request changes after := by
  have hfirst := differsAt_of_deliver hdevice
  have hsecond := differsAt_of_deliver hmerged
  constructor
  · intro path hpath
    rw [hpath] at hmerged
    exact read_of_deliver hmerged
  · intro path hpath hother
    rw [hpath] at hdevice
    rw [hsecond.read_eq_ok_iff]
    · exact read_of_deliver hdevice
    · intro other hmem
      rw [hfirst.sameFile_iff]
      exact hother other (Option.mem_toList.mp hmem)
  · intro path _ other hother hsame
    rw [hother] at hmerged
    exact read_of_write (deliver_some_eq_ok_iff.mp hmerged) ((hfirst.sameFile_iff other path).mpr hsame)
  · exact hfirst.trans hsecond

/-- A run with exit status 0 leaves the documents of all changes that the files gave at its start, those
of the jars in the order of their options before those of the single files in the order of theirs. Other
paths read as before, nothing is printed, and no two changes share an id or a name if an output was asked
for without leave to reuse them. -/
theorem files_of_run_succeeds (hparse : parseArguments arguments = .ok (.run request))
    (hexit : ((run FileTree.access arguments).run tree).1.exitCode = 0) :
    let result := (run FileTree.access arguments).run tree
    ∃ front settings changes, Spells front settings ∧
      (arguments = front ∨ arguments = front ++ ["--"]) ∧ Extends .empty settings request ∧
      Collects tree (valuesOf .jar settings) (valuesOf .xml settings) changes ∧
      Delivered tree request changes result.2 ∧
      (∀ path, (∀ output ∈ valuesOf .deviceConfig settings ++ valuesOf .mergedConfig settings,
          ¬tree.SameFile output path) →
        ∀ contents, result.2.read path = .ok contents ↔ tree.read path = .ok contents) ∧
      result.1.stdout = "" ∧
      (request.allowDuplicateChanges = false → request.Writes →
        Unshared .id changes ∧ Unshared .name changes) := by
  intro result
  obtain ⟨front, settings, hspells, hline, hextends⟩ := exists_settings hparse
  obtain ⟨outcome, stderr, after, hends, hrun⟩ := exists_ends_of_parse tree hparse
  have hresult : result = _ := hrun
  rw [hrun] at hexit
  rw [hresult]
  cases hends with
  | early failure => cases hexit
  | late => cases hexit
  | @done changes middle _ hcollects hdevice hmerged _ hunshared =>
    have hdelivered := delivered_of_deliver hdevice hmerged
    rw [hextends.jars, hextends.xmls] at hcollects
    refine ⟨front, settings, changes, hspells, hline, hextends, hcollects, hdelivered, ?_, rfl,
      hunshared⟩
    intro path hother contents
    apply hdelivered.differs.read_eq_ok_iff
    rw [hextends.deviceConfig, hextends.mergedConfig]
    exact hother

/-- Options in a mixed order, with both outputs to one file by two names. -/
def interleaved : List String :=
  ["--merged-config=out.xml", "--xml", "b.xml", "--jar", "e.jar", "--indent", "2", "--device-config",
    "./out.xml", "--xml=a.xml"]

/-- Both names read as the merged config, and the inputs are still there. -/
theorem files_of_run_succeeds_interleaved :
    let result := (run FileTree.access interleaved).run inputFiles
    ∃ request changes, parseArguments interleaved = .ok (.run request) ∧
      result.1.exitCode = 0 ∧ Collects inputFiles ["e.jar"] ["b.xml", "a.xml"] changes ∧
      result.2.read "out.xml" = .ok (request.document .merged changes) ∧
      result.2.read "./out.xml" = .ok (request.document .merged changes) ∧
      Unshared .id changes ∧ Unshared .name changes := by
  have hparse : parseArguments interleaved = .ok (.run ⟨["e.jar"], ["b.xml", "a.xml"],
      some "./out.xml", some "out.xml", some 2, false⟩) := by
    decide +kernel
  have hexit : ((run FileTree.access interleaved).run inputFiles).1.exitCode = 0 := by decide +kernel
  have hplain : inputFiles.Leads "out.xml" ⟨.above 0, ["out.xml"]⟩ :=
    ⟨⟨.above 0, ["out.xml"], false⟩, by decide +kernel, rfl, by decide +kernel⟩
  have hdotted : inputFiles.Leads "./out.xml" ⟨.above 0, ["out.xml"]⟩ :=
    ⟨⟨.above 0, [".", "out.xml"], false⟩, by decide +kernel, rfl, by decide +kernel⟩
  obtain ⟨front, settings, changes, -, -, hextends, hcollects, hdelivered, -, -, hunshared⟩ :=
    files_of_run_succeeds hparse hexit
  have hjars : ["e.jar"] = valuesOf .jar settings := hextends.jars
  have hxmls : ["b.xml", "a.xml"] = valuesOf .xml settings := hextends.xmls
  refine ⟨_, changes, hparse, hexit, ?_, hdelivered.merged "out.xml" rfl,
    hdelivered.shared "./out.xml" rfl "out.xml" rfl ⟨_, hplain, hdotted⟩, hunshared rfl (.inl rfl)⟩
  rwa [hjars, hxmls]

end CompatChanges.Command
