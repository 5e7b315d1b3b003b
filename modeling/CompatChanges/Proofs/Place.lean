import CompatChanges.Command.Files

/-!
# Where paths lead

Several paths can lead to one place. What is read at a path is what stands at its place, and a write
changes one place, at which there is no directory. So all paths lead afterwards where they led
before, and other places are left alone.
-/

namespace CompatChanges.Command

theorem bind_eq_ok_iff {ε α β : Type} {action : Except ε α} {next : α → Except ε β} {result : β} :
    action >>= next = .ok result ↔ ∃ value, action = .ok value ∧ next value = .ok result := by
  cases action with
  | error error => exact ⟨nofun, nofun⟩
  | ok value => exact ⟨fun h => ⟨value, rfl, h⟩, fun ⟨_, rfl, h⟩ => h⟩

namespace FileTree

variable {tree after : FileTree} {path : String} {contents : List UInt8} {place target : Place}

/-! ### Places -/

theorem node?_put_self (hnamed : target.way ≠ []) (node : FileNode) :
    (tree.put target node).node? target = some node := by
  have hway : target.way.isEmpty = false := by simpa using hnamed
  simp [node?, put, hway]

theorem node?_put_of_ne (hne : place ≠ target) (node : FileNode) :
    (tree.put target node).node? place = tree.node? place := by
  -- `put` drops what the place held before, which no other place is looked up in.
  have hlookup (nodes : List (Place × FileNode)) :
      (nodes.filter (·.1 ≠ target)).lookup place = nodes.lookup place := by
    induction nodes with
    | nil => rfl
    | cons entry rest ih =>
      obtain ⟨found, stands⟩ := entry
      by_cases htarget : found = target
      · subst htarget
        have hother : (place == found) = false := by simpa using hne
        rw [List.filter_cons_of_neg (by simp), ih, List.lookup_cons, hother]
      · rw [List.filter_cons_of_pos (by simpa using htarget), List.lookup_cons, List.lookup_cons, ih]
  have hother : (place == target) = false := by simpa using hne
  simp only [node?, put, List.lookup_cons, hother, hlookup]

/-- The place of a file has a name, since a base is a directory. -/
theorem way_ne_nil_of_node? (hfree : tree.node? target ≠ some .directory) : target.way ≠ [] := by
  intro hway
  apply hfree
  simp [node?, hway]

/-- A file where there was no directory makes no difference to where directories are. -/
theorem node?_put_eq_directory_iff (hfree : tree.node? target ≠ some .directory) :
    (tree.put target (.file contents)).node? place = some .directory ↔
      tree.node? place = some .directory := by
  by_cases hplace : place = target
  · subst hplace
    rw [node?_put_self (way_ne_nil_of_node? hfree)]
    exact iff_of_false nofun hfree
  · rw [node?_put_of_ne hplace]

theorem enter_eq_ok_iff : tree.enter place = .ok () ↔ tree.node? place = some .directory := by
  unfold enter
  cases tree.node? place with
  | none => exact ⟨nofun, nofun⟩
  | some node =>
    cases node with
    | file contents => exact ⟨nofun, nofun⟩
    | directory => exact iff_of_true rfl rfl

theorem follow_cons_eq_ok_iff {name : String} {rest : List String} :
    tree.follow place (name :: rest) = .ok target ↔
      tree.node? place = some .directory ∧
        ∃ next, step place name = .ok next ∧ tree.follow next rest = .ok target := by
  rw [follow, bind_eq_ok_iff, ← enter_eq_ok_iff]
  simp only [bind_eq_ok_iff]
  exact ⟨fun ⟨_, hentered, hnext⟩ => ⟨hentered, hnext⟩, fun ⟨hentered, hnext⟩ => ⟨(), hentered, hnext⟩⟩

theorem follow_concat_eq_ok_iff {names : List String} {name : String} :
    tree.follow place (names ++ [name]) = .ok target ↔
      ∃ around, tree.follow place names = .ok around ∧ tree.node? around = some .directory ∧
        step around name = .ok target := by
  induction names generalizing place with
  | nil =>
    rw [List.nil_append, follow_cons_eq_ok_iff]
    constructor
    · rintro ⟨hplace, next, hstep, hnext⟩
      cases hnext
      exact ⟨place, rfl, hplace, hstep⟩
    · rintro ⟨around, haround, hplace, hstep⟩
      cases haround
      exact ⟨hplace, target, hstep, rfl⟩
  | cons first rest ih =>
    rw [List.cons_append, follow_cons_eq_ok_iff]
    simp only [follow_cons_eq_ok_iff, ih]
    constructor
    · rintro ⟨hplace, next, hstep, around, haround, hlast⟩
      exact ⟨around, ⟨hplace, next, hstep, haround⟩, hlast⟩
    · rintro ⟨around, ⟨hplace, next, hstep, haround⟩, hlast⟩
      exact ⟨hplace, next, hstep, around, haround, hlast⟩

/-- A path can be followed through directories alone, and those are as before. -/
theorem follow_put_eq_ok_iff (hfree : tree.node? target ≠ some .directory) {names : List String}
    {found : Place} :
    (tree.put target (.file contents)).follow place names = .ok found ↔
      tree.follow place names = .ok found := by
  induction names generalizing place with
  | nil => rfl
  | cons name rest ih =>
    simp only [follow_cons_eq_ok_iff, node?_put_eq_directory_iff hfree, ih]

/-! ### Paths -/

/-- The path is that of a file at the place, whether there is anything or not. -/
def Leads (tree : FileTree) (path : String) (place : Place) : Prop :=
  ∃ parsed, Path.parse path = .ok parsed ∧ parsed.slashed = false ∧
    tree.follow ⟨parsed.base, []⟩ parsed.names = .ok place

theorem Leads.unique (hplace : tree.Leads path place) (htarget : tree.Leads path target) :
    place = target := by
  obtain ⟨parsed, hparse, -, hfollow⟩ := hplace
  obtain ⟨again, hagain, -, htarget⟩ := htarget
  obtain rfl : parsed = again := Except.ok.inj (hparse.symm.trans hagain)
  exact Except.ok.inj (hfollow.symm.trans htarget)

theorem read_eq_ok_iff :
    tree.read path = .ok contents ↔
      ∃ place, tree.Leads path place ∧ tree.node? place = some (.file contents) := by
  unfold read Leads
  simp only [bind_eq_ok_iff]
  constructor
  · rintro ⟨parsed, hparse, place, hfollow, hread⟩
    split at hread
    · cases hread
    · cases hread
    · next stands hnode =>
      split at hread
      · cases hread
      · next hslash =>
        cases hread
        exact ⟨place, ⟨parsed, hparse, by simpa using hslash, hfollow⟩, hnode⟩
  · rintro ⟨place, ⟨parsed, hparse, hslash, hfollow⟩, hnode⟩
    refine ⟨parsed, hparse, place, hfollow, ?_⟩
    rw [hnode]
    simp [hslash]

theorem locate_eq_ok_iff {parsed : Path} {around : Place} {name : String} :
    tree.locate parsed = .ok (around, some name) ↔
      ∃ names, parsed.names = names ++ [name] ∧ tree.follow ⟨parsed.base, []⟩ names = .ok around ∧
        tree.node? around = some .directory := by
  unfold locate
  simp only [bind_eq_ok_iff, ← enter_eq_ok_iff]
  constructor
  · rintro ⟨found, hfollow, _, hentered, hlast⟩
    obtain ⟨rfl, hname⟩ := Prod.mk.inj (Except.ok.inj hlast)
    obtain ⟨names, hnames⟩ := List.getLast?_eq_some_iff.mp hname
    rw [hnames, List.dropLast_concat] at hfollow
    exact ⟨names, hnames, hfollow, hentered⟩
  · rintro ⟨names, hnames, hfollow, hentered⟩
    refine ⟨around, ?_, (), hentered, ?_⟩
    · rwa [hnames, List.dropLast_concat]
    · rw [hnames, List.getLast?_concat]
      rfl

theorem write_eq_ok_iff :
    tree.write path contents = .ok after ↔
      ∃ place, tree.Leads path place ∧ tree.node? place ≠ some .directory ∧
        after = tree.put place (.file contents) := by
  unfold write Leads
  simp only [bind_eq_ok_iff]
  constructor
  · rintro ⟨parsed, hparse, ⟨around, last⟩, hlocate, hwrite⟩
    cases last with
    | none => cases hwrite
    | some name =>
      obtain ⟨names, hnames, hfollow, hentered⟩ := locate_eq_ok_iff.mp hlocate
      dsimp only at hwrite
      split at hwrite
      · cases hwrite
      · next hslash =>
        obtain ⟨place, hstep, hput⟩ := bind_eq_ok_iff.mp hwrite
        split at hput
        · cases hput
        · next hfree =>
          refine ⟨place, ⟨parsed, hparse, by simpa using hslash, ?_⟩, hfree,
            (Except.ok.inj hput).symm⟩
          rw [hnames]
          exact follow_concat_eq_ok_iff.mpr ⟨around, hfollow, hentered, hstep⟩
  · rintro ⟨place, ⟨parsed, hparse, hslash, hfollow⟩, hfree, rfl⟩
    obtain ⟨base, names, slashed⟩ := parsed
    -- A path without names leads to a base, where there is a directory.
    rcases names.eq_nil_or_concat with rfl | ⟨front, name, rfl⟩
    · cases hfollow
      exact absurd rfl hfree
    · rw [List.concat_eq_append] at hfollow hparse
      obtain ⟨around, haround, hentered, hstep⟩ := follow_concat_eq_ok_iff.mp hfollow
      refine ⟨_, hparse, (around, some name), locate_eq_ok_iff.mpr ⟨front, rfl, haround, hentered⟩, ?_⟩
      dsimp only at hslash ⊢
      rw [hslash, if_neg Bool.false_ne_true, hstep]
      exact if_neg hfree

/-! ### Writes -/

/-- The two paths are those of one file. -/
def SameFile (tree : FileTree) (left right : String) : Prop :=
  ∃ place, tree.Leads left place ∧ tree.Leads right place

/-- All paths lead where they led, and only what the paths `outputs` lead to may be different. -/
structure DiffersAt (outputs : List String) (tree after : FileTree) : Prop where
  leads : ∀ path place, after.Leads path place ↔ tree.Leads path place
  node : ∀ place, (∀ path ∈ outputs, ¬tree.Leads path place) → after.node? place = tree.node? place

theorem DiffersAt.refl (tree : FileTree) : DiffersAt [] tree tree := ⟨fun _ _ => .rfl, fun _ _ => rfl⟩

theorem DiffersAt.trans {outputs others : List String} {later : FileTree}
    (hfirst : DiffersAt outputs tree after) (hlater : DiffersAt others after later) :
    DiffersAt (outputs ++ others) tree later where
  leads path place := (hlater.leads path place).trans (hfirst.leads path place)
  node place hnone := by
    obtain ⟨houtputs, hothers⟩ := List.forall_mem_append.mp hnone
    rw [hlater.node place fun path hmem => mt (hfirst.leads path place).mp (hothers path hmem),
      hfirst.node place houtputs]

theorem DiffersAt.sameFile_iff {outputs : List String} (hdiffers : DiffersAt outputs tree after)
    (left right : String) : after.SameFile left right ↔ tree.SameFile left right := by
  unfold SameFile
  simp only [hdiffers.leads]

/-- What is read at other paths is what was read there. -/
theorem DiffersAt.read_eq_ok_iff {outputs : List String} (hdiffers : DiffersAt outputs tree after)
    (hother : ∀ output ∈ outputs, ¬tree.SameFile output path) :
    after.read path = .ok contents ↔ tree.read path = .ok contents := by
  rw [FileTree.read_eq_ok_iff, FileTree.read_eq_ok_iff]
  simp only [hdiffers.leads]
  refine exists_congr fun place => and_congr_right fun hleads => ?_
  rw [hdiffers.node place fun output hmem houtput => hother output hmem ⟨place, houtput, hleads⟩]

theorem differsAt_of_write (hwrite : tree.write path contents = .ok after) :
    DiffersAt [path] tree after := by
  obtain ⟨target, htarget, hfree, rfl⟩ := write_eq_ok_iff.mp hwrite
  constructor
  · intro other place
    unfold Leads
    simp only [follow_put_eq_ok_iff hfree]
  · intro place hnone
    apply node?_put_of_ne
    rintro rfl
    exact hnone path (List.mem_singleton_self path) htarget

theorem read_of_write (hwrite : tree.write path contents = .ok after) {other : String}
    (hsame : tree.SameFile path other) : after.read other = .ok contents := by
  have hdiffers := differsAt_of_write hwrite
  obtain ⟨target, htarget, hfree, rfl⟩ := write_eq_ok_iff.mp hwrite
  obtain ⟨place, hplace, hother⟩ := hsame
  obtain rfl := htarget.unique hplace
  exact read_eq_ok_iff.mpr
    ⟨target, (hdiffers.leads other target).mpr hother, node?_put_self (way_ne_nil_of_node? hfree) _⟩

theorem sameFile_of_write (hwrite : tree.write path contents = .ok after) :
    tree.SameFile path path := by
  obtain ⟨target, htarget, -, -⟩ := write_eq_ok_iff.mp hwrite
  exact ⟨target, htarget, htarget⟩

/-- Whether a file can be written is not changed by writing another. -/
theorem exists_write_iff_of_write (hwrite : tree.write path contents = .ok after) {other : String}
    {others : List UInt8} :
    (∃ later, after.write other others = .ok later) ↔ ∃ later, tree.write other others = .ok later := by
  have hdiffers := differsAt_of_write hwrite
  obtain ⟨target, htarget, hfree, rfl⟩ := write_eq_ok_iff.mp hwrite
  simp only [write_eq_ok_iff, hdiffers.leads, ne_eq, node?_put_eq_directory_iff hfree]
  exact ⟨fun ⟨_, place, hleads, hplace, _⟩ => ⟨_, place, hleads, hplace, rfl⟩,
    fun ⟨_, place, hleads, hplace, _⟩ => ⟨_, place, hleads, hplace, rfl⟩⟩

end FileTree

end CompatChanges.Command
