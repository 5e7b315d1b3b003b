import CompatChanges.Proofs.Output
import CompatChanges.Proofs.Verdict

/-!
# What is written can be merged

Both views of a merger without conflicts are fragments. A fresh merger takes them, finds no conflict
either, and holds changes with the attributes of those that were written. This rests on where changes
come from: their names were read in tags, so nothing but quotes can keep them from being read again.
-/

namespace CompatChanges

open Text Xml

/-! ## Where changes come from -/

/-- The element of the change is a child of the root of some document. -/
def Change.WasRead (change : Change) : Prop :=
  ∃ source document, parseChars source = .ok document ∧ change.element ∈ document.root.children

theorem Change.WasRead.namesRead {change : Change} (hread : change.WasRead) {inner : Element}
    (hinner : inner ∈ change.element.subtree) : NamesRead inner.name inner.attributes := by
  obtain ⟨source, document, hparse, hchild⟩ := hread
  apply namesRead_of_parse hparse
  exact Element.mem_subtree_of_child (Content.mem_children.mp hchild) hinner

theorem wasRead_of_readChanges {bytes : List UInt8} {label : String} {changes : List Change}
    (hread : readChanges bytes label = .ok changes) : ∀ change ∈ changes, change.WasRead := by
  unfold readChanges parseBytes at hread
  cases hdecode : Utf8.decode bytes with
  | error fault =>
    rw [hdecode] at hread
    cases hread
  | ok chars =>
    rw [hdecode] at hread
    cases hparse : parseChars (dropMark chars) with
    | error error =>
      simp only [hparse] at hread
      cases hread
    | ok document =>
      simp only [hparse] at hread
      cases hread
      intro change hmem
      obtain ⟨child, hchild, rfl⟩ := mem_changesOf.mp hmem
      exact ⟨dropMark chars, document, hparse, hchild⟩

namespace Merger

variable {σ : Type} [ByteSink σ]

/-- Every change that the merger holds was read from a document. -/
def AllRead (merger : Merger σ) : Prop := ∀ change ∈ merger.changes, change.WasRead

theorem allRead_run (options : Options) (reports : σ) (calls : List Call) :
    ((new options reports).run calls).AllRead := by
  intro change hmem
  obtain ⟨-, -, label, -, bytes, changes, hread, hchange⟩ := readUnder_of_mem_run hmem
  exact wasRead_of_readChanges hread change hchange

end Merger

/-! ## Keys -/

/-- The names and values of the attributes of a change. -/
def Change.pairs (change : Change) : List (String × String) := change.element.tag.2

theorem Change.key?_eq (change : Change) (key : Key) :
    change.key? key = (change.pairs.find? (·.1 = key.attributeName)).map (·.2) := by
  unfold key? Element.attribute? pairs Element.tag
  rw [List.find?_map, Option.map_map]
  rfl

section

variable {left right : List Change} (hsame : left.map Change.pairs = right.map Change.pairs)

include hsame

theorem map_key?_eq (key : Key) : left.map (·.key? key) = right.map (·.key? key) := by
  have hlookup (changes : List Change) : changes.map (·.key? key) =
      (changes.map Change.pairs).map fun pairs =>
        (pairs.find? (·.1 = key.attributeName)).map (·.2) := by
    rw [List.map_map]
    exact List.map_congr_left fun change _ => change.key?_eq key
  rw [hlookup, hlookup, hsame]

theorem unshared_of_map_pairs_eq {key : Key} (hunshared : Unshared key left) : Unshared key right := by
  have hpairwise (changes : List Change) : Unshared key changes ↔
      (changes.map (·.key? key)).Pairwise fun first second =>
        ∀ value, first = some value → second ≠ some value := by
    rw [List.pairwise_map]
    rfl
  rw [hpairwise, ← map_key?_eq hsame key, ← hpairwise]
  exact hunshared

theorem missingKey?_of_map_pairs_eq (hkeyed : ∀ change ∈ left, change.missingKey? = none) :
    ∀ change ∈ right, change.missingKey? = none := by
  intro change hmem
  have hpairs : change.pairs ∈ left.map Change.pairs := by
    rw [hsame]
    exact List.mem_map_of_mem hmem
  obtain ⟨other, hother, heq⟩ := List.mem_map.mp hpairs
  obtain ⟨hid, hname⟩ := missingKey?_eq_none_iff.mp (hkeyed other hother)
  rw [missingKey?_eq_none_iff]
  rw [Change.id?_eq, Change.key?_eq] at hid ⊢
  rw [Change.name?_eq, Change.key?_eq] at hname ⊢
  rw [← heq]
  exact ⟨hid, hname⟩

end

namespace Merger

variable {σ τ : Type} [ByteSink σ] [ByteSink τ] {merger : Merger σ}

omit [ByteSink σ] in
theorem ensureNoConflicts_eq_ok_iff : merger.ensureNoConflicts = .ok () ↔
    merger.options.detectConflicts = false ∨ merger.conflictCount = 0 := by
  unfold ensureNoConflicts
  cases merger.options.detectConflicts <;> by_cases hcount : merger.conflictCount = 0 <;>
    simp [hcount, Nat.pos_iff_ne_zero]

omit [ByteSink σ] in
/-- A fresh merger takes changes that say what the changes of a merger without conflicts say. -/
theorem Sound.exists_mergeBytes (hsound : merger.Sound)
    (hclear : merger.ensureNoConflicts = .ok ()) {errors : τ}
    (haccepts : ByteSink.AcceptsNext errors) {bytes : List UInt8} {label : String}
    {changes : List Change} (hread : readChanges bytes label = .ok changes)
    (hsame : merger.changes.map Change.pairs = changes.map Change.pairs) :
    ∃ again, (new merger.options errors).mergeBytes bytes label = (again, .ok ()) ∧
      again.options = merger.options ∧ again.conflictCount = 0 ∧ again.changes = changes := by
  have hkeyed : merger.options.detectConflicts = true →
      ∀ change ∈ changes, change.missingKey? = none := by
    intro hdetect
    have hheld := hsound.keyed
    rw [tracked_of_detects hdetect] at hheld
    exact missingKey?_of_map_pairs_eq hsame hheld
  have haccept : accept merger.options bytes label = .ok changes :=
    accept_eq_ok_iff.mpr ⟨hread, hkeyed⟩
  let fresh : Merger τ := new merger.options errors
  have htaken : (fresh.take changes).1.changes = changes := by simp [fresh, new]
  have hoptions : (fresh.take changes).1.options = merger.options := by simp [fresh, new]
  have houtcome : (fresh.take changes).2 = .ok () := by
    have hwritten : (ByteSink.writeAndFlush fresh.reports (fresh.reportChunks changes)).2 = .ok () :=
      haccepts _
    rw [take_outcome, hwritten]
    rfl
  have hagain : (fresh.take changes).1.Sound :=
    (sound_new merger.options errors).takes ⟨changes, hkeyed, rfl⟩
  refine ⟨(fresh.take changes).1, ?_, hoptions, ?_, htaken⟩
  · have hmerge : fresh.mergeBytes bytes label = fresh.take changes := mergeBytes_of_ok haccept
    rw [hmerge, ← houtcome]
  · cases hdetect : merger.options.detectConflicts with
    | false => exact hagain.conflictCount_eq_zero (by rw [hoptions, hdetect])
    | true =>
      have hcount : merger.conflictCount = 0 := by
        rcases ensureNoConflicts_eq_ok_iff.mp hclear with hoff | hcount
        · rw [hdetect] at hoff
          cases hoff
        · exact hcount
      obtain ⟨hids, hnames⟩ := (hsound.conflictCount_eq_zero_iff hdetect).mp hcount
      rw [hagain.conflictCount_eq_zero_iff (by rw [hoptions, hdetect]), htaken]
      exact ⟨unshared_of_map_pairs_eq hsame hids, unshared_of_map_pairs_eq hsame hnames⟩

/-! ## Views -/

/-- What a sink that takes everything gets when the view is written to it. -/
def output (merger : Merger σ) (view : View) : List UInt8 :=
  (merger.writeView view Sink.unlimited).1.bytes

omit [ByteSink σ] in
theorem writeView_unlimited (hclear : merger.ensureNoConflicts = .ok ()) (view : View) :
    (merger.writeView view Sink.unlimited).2 = .ok () ∧
      merger.output view =
        Utf8.encode (render (view.project merger.changes) merger.options.layout).toList := by
  obtain ⟨houtcome, hbytes⟩ := write_unlimited (view.project merger.changes) merger.options.layout
  have hwrite : merger.writeView view Sink.unlimited =
      ((Xml.write (view.project merger.changes) merger.options.layout Sink.unlimited).1, .ok ()) := by
    unfold writeView
    rw [hclear]
    dsimp only
    rw [houtcome]
    rfl
  unfold output
  rw [hwrite]
  exact ⟨rfl, hbytes⟩

theorem map_tag_eq (changes : List Change) :
    changes.map (·.element.tag) = (changes.map (·.element.bare)).map Element.tag := by
  rw [List.map_map]
  exact List.map_congr_left fun change _ => change.element.tag_bare.symm

theorem tag_snd_element (view : View) (change : Change) :
    (view.element change).tag.2 = change.pairs := by
  cases view <;> rfl

omit [ByteSink σ] in
/-- A view with legible elements is read child by child: each comes back with its own line breaks, in
normal form. -/
theorem Sound.exists_mergeBytes_output (hsound : merger.Sound)
    (hclear : merger.ensureNoConflicts = .ok ()) {view : View}
    (hlegible : ∀ change ∈ merger.changes, (view.element change).Legible) {errors : τ}
    (haccepts : ByteSink.AcceptsNext errors) (label : String) :
    ∃ again, (new merger.options errors).mergeBytes (merger.output view) label = (again, .ok ()) ∧
      again.options = merger.options ∧ again.conflictCount = 0 ∧
        again.changes.map (·.element.bare) = merger.changes.map fun change =>
          (merger.options.layout.inRoot (view.element change)).normal.bare := by
  let layout := merger.options.layout
  let root := view.project merger.changes
  have hconfig : LegibleTag configName [] := NamesTag.legible (by decide)
  have hroot : root.Legible := by
    apply Element.legible_ofChildren hconfig
    intro child hmem
    obtain ⟨change, hchange, rfl⟩ := List.mem_map.mp hmem
    exact hlegible change hchange
  obtain ⟨document, hparse, hbare⟩ := exists_parse_render_laidOut hroot layout
  have hchildren : document.root.children.map Element.bare =
      merger.changes.map fun change => (layout.inRoot (view.element change)).normal.bare := by
    have hprojected : root.children = merger.changes.map view.element :=
      Element.children_ofChildren ..
    rw [← Element.children_bare, hbare, Element.children_bare, Element.children_normal,
      Element.children_laidOut, hprojected, List.map_map, List.map_map, List.map_map]
    rfl
  have hread : readChanges (merger.output view) label = .ok (changesOf document label) := by
    rw [(writeView_unlimited hclear view).2, readChanges, parseBytes_render, hparse]
    rfl
  have helements : (changesOf document label).map (·.element.bare) =
      document.root.children.map Element.bare := by
    rw [changesOf_eq_map, List.map_map]
    rfl
  have hsame : merger.changes.map Change.pairs = (changesOf document label).map Change.pairs := by
    have htags : (changesOf document label).map (·.element.tag) =
        merger.changes.map fun change => (view.element change).tag := by
      rw [map_tag_eq, helements, hchildren, List.map_map]
      exact List.map_congr_left fun change _ => tag_normal_inRoot layout (view.element change)
    have hpairs := congrArg (List.map Prod.snd) htags
    rw [List.map_map, List.map_map] at hpairs
    calc
      merger.changes.map Change.pairs =
          merger.changes.map (Prod.snd ∘ fun change => (view.element change).tag) :=
        List.map_congr_left fun change _ => (tag_snd_element view change).symm
      _ = (changesOf document label).map Change.pairs := hpairs.symm
  obtain ⟨again, hmerge, hoptions, hcount, hchanges⟩ :=
    hsound.exists_mergeBytes hclear haccepts hread hsame
  refine ⟨again, hmerge, hoptions, hcount, ?_⟩
  rw [hchanges, helements, hchildren]

end Merger

/-- No quote stands in a name in the tree, and no element has a name that is empty or ends in a
slash. -/
def Xml.Element.HasPlainNames (element : Element) : Prop :=
  ∀ inner ∈ element.subtree, inner.name ≠ "" ∧ inner.name.toList.getLast? ≠ some '/' ∧
    Unquoted inner.name.toList ∧ ∀ a ∈ inner.attributes, Unquoted a.name.toList

instance (element : Element) : Decidable element.HasPlainNames :=
  inferInstanceAs (Decidable (∀ inner ∈ element.subtree,
    inner.name ≠ "" ∧ inner.name.toList.getLast? ≠ some '/' ∧
      Unquoted inner.name.toList ∧ ∀ a ∈ inner.attributes, Unquoted a.name.toList))

theorem Change.WasRead.legible_merged {change : Change} (hread : change.WasRead)
    (hnames : change.element.HasPlainNames) : (View.merged.element change).Legible := by
  intro inner hinner
  obtain ⟨hne, hlast, hname, hattributes⟩ := hnames inner hinner
  exact (hread.namesRead hinner).legible hne hname hlast hattributes

theorem Change.WasRead.legible_device {change : Change} (hread : change.WasRead)
    (hattributes : ∀ a ∈ change.attributes, Unquoted a.name.toList) :
    (View.device.element change).Legible := by
  have hnames := hread.namesRead change.element.self_mem_subtree
  have hname : IsName elementName := by decide
  have hmarks : elementName.toList.head? ≠ some '!' ∧ elementName.toList.head? ≠ some '?' := by
    decide
  intro inner hinner
  have hinner : inner = .ofAttributes elementName change.attributes := by
    simpa [View.element, Element.ofAttributes, Element.subtree_mk, Content.children,
      Content.nodes] using hinner
  subst hinner
  exact ⟨hname.isTagName hmarks, hnames.isKey hattributes, hnames.distinct⟩

/-- An element without content has no line breaks in it. -/
theorem bare_normal_inRoot_device (layout : Layout) (change : Change) :
    (layout.inRoot (View.device.element change)).normal.bare = (View.device.element change).bare := by
  cases layout <;> rfl

/-- A change that says what a change of the device view says has no content. -/
theorem content_eq_empty_of_bare_eq {change other : Change}
    (hbare : change.element.bare = (View.device.element other).bare) :
    change.element.content = .empty := by
  have hcontent := congrArg Element.content hbare
  cases helement : change.element with
  | mk name attributes content span =>
    rw [helement] at hcontent
    exact Content.eq_empty_of_bare hcontent

theorem attributes_bare_device (change : Change) :
    (View.device.element change).bare.attributes = change.element.bare.attributes := by
  rw [Element.attributes_bare, Element.attributes_bare]
  rfl

theorem bare_project_device (changes : List Change) :
    (View.device.project changes).bare = .ofChildren configName
      ((changes.map (·.element.bare.attributes)).map (.ofAttributes Change.elementName)) := by
  have hchildren : (changes.map View.device.element).map Element.bare =
      (changes.map (·.element.bare.attributes)).map (.ofAttributes Change.elementName) := by
    rw [List.map_map, List.map_map]
    refine List.map_congr_left fun change _ => ?_
    rw [Function.comp_apply, Function.comp_apply, ← attributes_bare_device]
    rfl
  rw [← hchildren]
  cases changes with
  | nil => rfl
  | cons change rest =>
    simp [View.project, Element.ofChildren, Content.bare, bareElements_eq_map]

/-- The device view depends on the attributes of the changes, not on where they were read. -/
theorem parts_project_device_eq {left right : List Change}
    (hsame : left.map (·.element.bare.attributes) = right.map (·.element.bare.attributes))
    (layout : Layout) :
    layout.parts (View.device.project left) = layout.parts (View.device.project right) := by
  rw [← Layout.parts_bare, bare_project_device, hsame, ← bare_project_device, Layout.parts_bare]

namespace Merger

variable {σ : Type} [ByteSink σ]

/-- After every run without conflicts both views can be merged into a fresh merger. The device view
brings the attributes of each change and nothing else, and is written again byte by byte; the merged
view brings the names of the elements as well. -/
theorem mergeBytes_output_run (options : Options) (reports : σ) (calls : List Call) :
    let merger := (new options reports).run calls
    merger.ensureNoConflicts = .ok () →
    (∀ change ∈ merger.changes, ∀ a ∈ change.attributes, Unquoted a.name.toList) →
    (∀ view, (merger.writeView view Sink.unlimited).2 = .ok ()) ∧
    (∀ {τ : Type} [ByteSink τ] (errors : τ) (label : String), ByteSink.AcceptsNext errors →
      ∃ again, (new options errors).mergeBytes (merger.output .device) label = (again, .ok ()) ∧
        again.conflictCount = 0 ∧
        again.changes.map (·.element.tag) =
          merger.changes.map (fun change => (Change.elementName, change.pairs)) ∧
        (∀ change ∈ again.changes, change.element.content = .empty) ∧
        ∀ {υ : Type} [ByteSink υ] (sink : υ),
          again.writeView .device sink = merger.writeView .device sink) ∧
    ((∀ change ∈ merger.changes, change.element.HasPlainNames) →
      ∀ {τ : Type} [ByteSink τ] (errors : τ) (label : String), ByteSink.AcceptsNext errors →
        ∃ again, (new options errors).mergeBytes (merger.output .merged) label = (again, .ok ()) ∧
          again.conflictCount = 0 ∧
          again.changes.map (·.element.tag) = merger.changes.map (·.element.tag)) := by
  intro merger hclear hunquoted
  have hsound : merger.Sound := sound_run options reports calls
  have hread : merger.AllRead := allRead_run options reports calls
  have hoptions : merger.options = options := options_run options reports calls
  have hdevice : ∀ change ∈ merger.changes, (View.device.element change).Legible :=
    fun change hmem => (hread change hmem).legible_device (hunquoted change hmem)
  rw [← hoptions]
  refine ⟨fun view => (writeView_unlimited hclear view).1, ?_, ?_⟩
  · intro τ _ errors label haccepts
    obtain ⟨again, hmerge, hsame, hcount, hchanges⟩ :=
      hsound.exists_mergeBytes_output hclear hdevice haccepts label
    have helements : again.changes.map (·.element.bare) =
        merger.changes.map fun change => (View.device.element change).bare := by
      rw [hchanges]
      exact List.map_congr_left fun change _ => bare_normal_inRoot_device ..
    refine ⟨again, hmerge, hcount, ?_, ?_, ?_⟩
    · rw [map_tag_eq, helements, List.map_map]
      exact List.map_congr_left fun change _ => (View.device.element change).tag_bare
    · intro change hmem
      have hbare : change.element.bare ∈ again.changes.map (·.element.bare) :=
        List.mem_map_of_mem hmem
      rw [helements] at hbare
      obtain ⟨other, -, hother⟩ := List.mem_map.mp hbare
      exact content_eq_empty_of_bare_eq hother.symm
    · intro υ _ sink
      have hagain : again.ensureNoConflicts = .ok () :=
        ensureNoConflicts_eq_ok_iff.mpr (.inr hcount)
      have hattributes : again.changes.map (·.element.bare.attributes) =
          merger.changes.map (·.element.bare.attributes) := by
        have hmap := congrArg (List.map Element.attributes) helements
        rw [List.map_map, List.map_map] at hmap
        exact hmap.trans (List.map_congr_left fun change _ => attributes_bare_device change)
      have hparts := parts_project_device_eq hattributes merger.options.layout
      unfold writeView Xml.write
      rw [hagain, hclear, hsame, hparts]
  · intro hnames τ _ errors label haccepts
    have hmerged : ∀ change ∈ merger.changes, (View.merged.element change).Legible :=
      fun change hmem => (hread change hmem).legible_merged (hnames change hmem)
    obtain ⟨again, hmerge, -, hcount, hchanges⟩ :=
      hsound.exists_mergeBytes_output hclear hmerged haccepts label
    refine ⟨again, hmerge, hcount, ?_⟩
    rw [map_tag_eq, hchanges, List.map_map]
    exact List.map_congr_left fun change _ => tag_normal_inRoot merger.options.layout change.element

/-- Text beside elements, a quote in a value, and a write between two fragments. -/
def sampleCalls : List Call :=
  [.mergeBytes (Utf8.encode "<r>\n<a id='1' name='&quot;'>x<b k='v'/></a> </r>".toList) "a.xml",
    .write .merged Sink.unlimited,
    .mergeBytes (Utf8.encode "<r><a.b name='C' id='2'><c/></a.b></r>".toList) "b.xml"]

def sampleMerger : Merger := (new ⟨true, .indented 2⟩ Sink.unlimited).run sampleCalls

theorem mergeBytes_output_sample :
    sampleMerger.changes.map (·.element.tag) =
        [("a", [("id", "1"), ("name", "\"")]), ("a.b", [("name", "C"), ("id", "2")])] ∧
      (∃ device, (new ⟨true, .indented 2⟩ Sink.unlimited).mergeBytes (sampleMerger.output .device) "d" =
          (device, .ok ()) ∧ device.conflictCount = 0 ∧
        device.changes.map (·.element.tag) = [("compat-change", [("id", "1"), ("name", "\"")]),
          ("compat-change", [("name", "C"), ("id", "2")])]) ∧
      ∃ merged, (new ⟨true, .indented 2⟩ Sink.unlimited).mergeBytes (sampleMerger.output .merged) "m" =
          (merged, .ok ()) ∧ merged.conflictCount = 0 ∧
        merged.changes.map (·.element.tag) =
          [("a", [("id", "1"), ("name", "\"")]), ("a.b", [("name", "C"), ("id", "2")])] := by
  have htags : sampleMerger.changes.map (·.element.tag) =
      [("a", [("id", "1"), ("name", "\"")]), ("a.b", [("name", "C"), ("id", "2")])] := by
    decide +kernel
  have hcount : sampleMerger.conflictCount = 0 := by decide +kernel
  have hclear : sampleMerger.ensureNoConflicts = .ok () :=
    ensureNoConflicts_eq_ok_iff.mpr (.inr hcount)
  have hunquoted : ∀ change ∈ sampleMerger.changes, ∀ a ∈ change.attributes,
      Unquoted a.name.toList := by
    decide +kernel
  have hnames : ∀ change ∈ sampleMerger.changes, change.element.HasPlainNames := by decide +kernel
  have haccepts : ByteSink.AcceptsNext Sink.unlimited := fun chunks =>
    (Sink.acceptsAll_unlimited.writeAndFlush chunks).1
  obtain ⟨-, hdevice, hmerged⟩ := mergeBytes_output_run ⟨true, .indented 2⟩ Sink.unlimited
    sampleCalls hclear hunquoted
  obtain ⟨device, hmergeDevice, hcountDevice, htagsDevice, -, -⟩ :=
    hdevice Sink.unlimited "d" haccepts
  obtain ⟨merged, hmergeMerged, hcountMerged, htagsMerged⟩ :=
    hmerged hnames Sink.unlimited "m" haccepts
  refine ⟨htags, ⟨device, hmergeDevice, hcountDevice, ?_⟩, merged, hmergeMerged, hcountMerged, ?_⟩
  · have hpairs : sampleMerger.changes.map (fun change => (Change.elementName, change.pairs)) =
        (sampleMerger.changes.map (·.element.tag)).map fun tag => (Change.elementName, tag.2) := by
      rw [List.map_map]
      rfl
    rw [htagsDevice]
    exact hpairs.trans (by rw [htags]; rfl)
  · exact htagsMerged.trans htags

end Merger

end CompatChanges
