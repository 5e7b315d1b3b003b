import CompatChanges.Proofs.Commit
import CompatChanges.Proofs.Report

/-!
# Reports line by line

A report is written as three lines, but the value in the first of them is written as it is. A line feed
in it begins a line that is none of the three, and such a line can even look like the first of a report.
Reports can be told apart by their lines if and only if no value that is reported has a line feed.
-/

namespace CompatChanges

namespace Text

/-- The lines of a text. A line feed ends a line, and so does the end of the text, unless nothing comes
after the last line feed. -/
def linesOf : List Char → List (List Char)
  | [] => []
  | c :: rest =>
    if c = '\n' then [] :: linesOf rest
    else (c :: (linesOf rest).headD []) :: (linesOf rest).tail

theorem linesOf_line_feed (rest : List Char) : linesOf ('\n' :: rest) = [] :: linesOf rest := by
  rw [linesOf, if_pos rfl]

theorem linesOf_cons {c : Char} (hc : c ≠ '\n') {rest first : List Char} {more : List (List Char)}
    (hrest : linesOf rest = first :: more) : linesOf (c :: rest) = (c :: first) :: more := by
  rw [linesOf, if_neg hc, hrest]
  rfl

/-- What stands before the first line feed is put in front of the first line. -/
theorem linesOf_append_of_not_mem {lead : List Char} (hlead : '\n' ∉ lead) {rest first : List Char}
    {more : List (List Char)} (hrest : linesOf rest = first :: more) :
    linesOf (lead ++ rest) = (lead ++ first) :: more := by
  induction lead with
  | nil => exact hrest
  | cons c lead ih =>
    obtain ⟨hc, hlead⟩ := not_or.mp (mt List.mem_cons.mpr hlead)
    exact linesOf_cons (Ne.symm hc) (ih hlead)

theorem linesOf_line {line : List Char} (hline : '\n' ∉ line) (rest : List Char) :
    linesOf (line ++ '\n' :: rest) = line :: linesOf rest := by
  rw [linesOf_append_of_not_mem hline (linesOf_line_feed rest), List.append_nil]

/-- The lines of a text to which a line feed is added: the first, and those after it. -/
theorem exists_linesOf_concat (text : List Char) :
    ∃ first more, linesOf (text ++ ['\n']) = first :: more := by
  cases text with
  | nil => exact ⟨[], [], linesOf_line_feed []⟩
  | cons c rest =>
    rw [List.cons_append, linesOf]
    split <;> exact ⟨_, _, rfl⟩

/-- Lines that have ended do not depend on what comes after them. -/
theorem linesOf_append (text rest : List Char) :
    linesOf (text ++ '\n' :: rest) = linesOf (text ++ ['\n']) ++ linesOf rest := by
  induction text with
  | nil =>
    rw [List.nil_append, List.nil_append, linesOf_line_feed, linesOf_line_feed]
    rfl
  | cons c text ih =>
    rw [List.cons_append, List.cons_append]
    by_cases hc : c = '\n'
    · rw [hc, linesOf_line_feed, linesOf_line_feed, ih, List.cons_append]
    · obtain ⟨first, more, hlines⟩ := exists_linesOf_concat text
      rw [hlines, List.cons_append] at ih
      rw [linesOf_cons hc ih, linesOf_cons hc hlines, List.cons_append]

theorem length_linesOf_concat (text : List Char) :
    (linesOf (text ++ ['\n'])).length = text.count '\n' + 1 := by
  induction text with
  | nil => rfl
  | cons c text ih =>
    rw [List.cons_append]
    by_cases hc : c = '\n'
    · rw [hc, linesOf_line_feed, List.length_cons, ih, List.count_cons_self]
    · obtain ⟨first, more, hlines⟩ := exists_linesOf_concat text
      rw [hlines] at ih
      rw [linesOf_cons hc hlines, List.count_cons_of_ne hc]
      exact ih

/-- A text without a line feed begins the first line if it begins the whole text. -/
theorem prefix_first_iff {start text first : List Char} {more : List (List Char)} (hstart : '\n' ∉ start)
    (hlines : linesOf (text ++ ['\n']) = first :: more) : start <+: first ↔ start <+: text := by
  induction text generalizing start first more with
  | nil =>
    cases hlines
    rfl
  | cons c text ih =>
    cases start with
    | nil => simp
    | cons d start =>
      obtain ⟨hd, hstart⟩ := not_or.mp (mt List.mem_cons.mpr hstart)
      rw [List.cons_append] at hlines
      by_cases hc : c = '\n'
      · rw [hc, linesOf_line_feed] at hlines
        cases hlines
        simp [hc, Ne.symm hd]
      · obtain ⟨before, later, hbefore⟩ := exists_linesOf_concat text
        rw [linesOf_cons hc hbefore] at hlines
        cases hlines
        rw [List.cons_prefix_cons, List.cons_prefix_cons, ih hstart hbefore]

/-- A line after the first begins with `start` if and only if `start` comes after a line feed. -/
theorem exists_line_iff {start text : List Char} (hstart : '\n' ∉ start) :
    (∃ line ∈ (linesOf (text ++ ['\n'])).tail, start <+: line) ↔ '\n' :: start <:+: text := by
  induction text with
  | nil => simp [linesOf_line_feed, linesOf]
  | cons c text ih =>
    obtain ⟨first, more, hlines⟩ := exists_linesOf_concat text
    rw [hlines, List.tail_cons] at ih
    rw [List.cons_append, List.infix_cons_iff, List.cons_prefix_cons, ← ih]
    by_cases hc : c = '\n'
    · rw [hc, linesOf_line_feed, hlines, List.tail_cons]
      simp [prefix_first_iff hstart hlines]
    · rw [linesOf_cons hc hlines, List.tail_cons]
      simp [Ne.symm hc]

end Text

open Text

/-- The line begins as the first line of a report does. -/
def LooksLikeReport (line : List Char) : Prop := "ERROR:".toList <+: line

instance (line : List Char) : Decidable (LooksLikeReport line) :=
  inferInstanceAs (Decidable ("ERROR:".toList <+: line))

/-- The lines are those of `count` reports, three for each. -/
inductive AreReports : Nat → List (List Char) → Prop
  | nil : AreReports 0 []
  | report {count : Nat} {summary first again : List Char} {rest : List (List Char)}
      (hsummary : "ERROR: ".toList <+: summary)
      (hfirst : "  first defined at ".toList <+: first)
      (hagain : "  redefined at ".toList <+: again) (later : AreReports count rest) :
      AreReports (count + 1) (summary :: first :: again :: rest)

theorem AreReports.length_eq {count : Nat} {lines : List (List Char)}
    (hreports : AreReports count lines) : lines.length = 3 * count := by
  induction hreports with
  | nil => rfl
  | report _ _ _ _ ih =>
    simp only [List.length_cons, ih]
    omega

namespace Conflict

/-- What stands before the value in a report. -/
def lead (conflict : Conflict) : List Char :=
  ("ERROR: Duplicate definitions for compat change with " ++ conflict.key.label ++ " ").toList

/-- The last two lines of a report. -/
def places (conflict : Conflict) : List (List Char) :=
  [("  first defined at " ++ conflict.first.text).toList,
    ("  redefined at " ++ conflict.duplicate.text).toList]

/-- Neither of the origins has a line feed. -/
def IsPlaced (conflict : Conflict) : Prop :=
  '\n' ∉ conflict.first.label.toList ∧ '\n' ∉ conflict.duplicate.label.toList

/-- The lines that the value begins after the first. -/
def stray (conflict : Conflict) : List (List Char) :=
  (linesOf (conflict.value.toList ++ ['\n'])).tail

theorem length_stray (conflict : Conflict) :
    conflict.stray.length = conflict.value.toList.count '\n' := by
  rw [stray, List.length_tail, length_linesOf_concat]
  rfl

theorem line_feed_not_mem_lead (conflict : Conflict) : '\n' ∉ conflict.lead := by
  unfold lead
  cases conflict.key <;> decide

theorem prefix_lead (conflict : Conflict) : "ERROR: ".toList <+: conflict.lead := by
  unfold lead
  cases conflict.key <;> decide

/-- Only the first line of a report begins with a letter. -/
theorem not_looksLikeReport_of_mem_places {conflict : Conflict} {line : List Char}
    (hmem : line ∈ conflict.places) : ¬LooksLikeReport line := by
  have hblank (rest : List Char) : ¬LooksLikeReport (' ' :: rest) := by
    intro hlooks
    exact absurd (List.cons_prefix_cons.mp hlooks).1 (by decide)
  simp only [places, List.mem_cons, List.not_mem_nil, or_false] at hmem
  rcases hmem with rfl | rfl
  · rw [String.toList_append]
    exact hblank _
  · rw [String.toList_append]
    exact hblank _

/-- The value begins no lines if and only if it has no line feed. -/
theorem stray_eq_nil_iff {conflict : Conflict} :
    conflict.stray = [] ↔ '\n' ∉ conflict.value.toList := by
  rw [← List.length_eq_zero_iff, length_stray, List.count_eq_zero]

theorem exists_stray_iff {conflict : Conflict} :
    (∃ line ∈ conflict.stray, LooksLikeReport line) ↔
      "\nERROR:".toList <:+: conflict.value.toList := by
  have hstart : '\n' ∉ "ERROR:".toList := by decide
  exact exists_line_iff hstart

end Conflict

theorem line_feed_not_mem_toString (n : Nat) : '\n' ∉ (toString n).toList := by
  intro hmem
  rw [Nat.toString_eq_repr, Nat.repr_eq_ofList_toDigits, String.toList_ofList] at hmem
  exact absurd (Nat.isDigit_of_mem_toDigits (by decide) (by decide) hmem) (by decide)

theorem Origin.line_feed_not_mem_text {origin : Origin} (hlabel : '\n' ∉ origin.label.toList) :
    '\n' ∉ origin.text.toList := by
  have htext : origin.text = origin.label ++ ":" ++ toString origin.line := rfl
  rw [htext, String.toList_append, String.toList_append]
  simp only [List.mem_append, not_or]
  exact ⟨⟨hlabel, by decide⟩, line_feed_not_mem_toString origin.line⟩

/-- The lines of a report: those that the value adds to the three come after the first. -/
theorem exists_linesOf_text {conflict : Conflict} (hplaced : conflict.IsPlaced) (rest : List Char) :
    ∃ summary, "ERROR: ".toList <+: summary ∧
      linesOf (conflict.text.toList ++ rest) =
        summary :: (conflict.stray ++ (conflict.places ++ linesOf rest)) := by
  have htext : conflict.text.toList ++ rest = conflict.lead ++ (conflict.value.toList ++ '\n' ::
      (("  first defined at " ++ conflict.first.text).toList ++ '\n' ::
        (("  redefined at " ++ conflict.duplicate.text).toList ++ '\n' :: rest))) := by
    unfold Conflict.text Conflict.lead
    simp only [String.toList_append, List.append_assoc]
    rfl
  have hfirst : '\n' ∉ ("  first defined at " ++ conflict.first.text).toList := by
    rw [String.toList_append, List.mem_append, not_or]
    exact ⟨by decide, Origin.line_feed_not_mem_text hplaced.1⟩
  have hagain : '\n' ∉ ("  redefined at " ++ conflict.duplicate.text).toList := by
    rw [String.toList_append, List.mem_append, not_or]
    exact ⟨by decide, Origin.line_feed_not_mem_text hplaced.2⟩
  obtain ⟨first, more, hvalue⟩ := exists_linesOf_concat conflict.value.toList
  have hlines := linesOf_append conflict.value.toList
    (("  first defined at " ++ conflict.first.text).toList ++ '\n' ::
      (("  redefined at " ++ conflict.duplicate.text).toList ++ '\n' :: rest))
  rw [hvalue, linesOf_line hfirst, linesOf_line hagain, List.cons_append] at hlines
  refine ⟨conflict.lead ++ first, ?_, ?_⟩
  · exact (conflict.prefix_lead).trans (List.prefix_append _ _)
  · rw [htext, linesOf_append_of_not_mem conflict.line_feed_not_mem_lead hlines, Conflict.stray,
      hvalue]
    rfl

section

variable {conflicts : List Conflict} (hplaced : ∀ conflict ∈ conflicts, conflict.IsPlaced)

include hplaced

theorem length_linesOf_reports :
    (linesOf (conflicts.flatMap fun conflict => conflict.text.toList)).length =
      3 * conflicts.length +
        (conflicts.flatMap fun conflict => conflict.value.toList).count '\n' := by
  induction conflicts with
  | nil => rfl
  | cons conflict rest ih =>
    obtain ⟨hhead, hrest⟩ := List.forall_mem_cons.mp hplaced
    obtain ⟨summary, -, hlines⟩ := exists_linesOf_text hhead
      (rest.flatMap fun conflict => conflict.text.toList)
    rw [List.flatMap_cons, hlines, List.flatMap_cons, List.count_append, ← conflict.length_stray]
    simp only [List.length_cons, List.length_append, ih hrest, Conflict.places, List.length_nil]
    omega

theorem countP_linesOf_reports :
    (linesOf (conflicts.flatMap fun conflict => conflict.text.toList)).countP LooksLikeReport =
      conflicts.length + (conflicts.flatMap Conflict.stray).countP LooksLikeReport := by
  induction conflicts with
  | nil => rfl
  | cons conflict rest ih =>
    obtain ⟨hhead, hrest⟩ := List.forall_mem_cons.mp hplaced
    obtain ⟨summary, hsummary, hlines⟩ := exists_linesOf_text hhead
      (rest.flatMap fun conflict => conflict.text.toList)
    have hlooks : LooksLikeReport summary := List.IsPrefix.trans (by decide) hsummary
    have hplaces : conflict.places.countP LooksLikeReport = 0 :=
      List.countP_eq_zero.mpr fun line hmem => by
        simpa using Conflict.not_looksLikeReport_of_mem_places hmem
    rw [List.flatMap_cons, hlines, List.flatMap_cons,
      List.countP_cons_of_pos (by simpa using hlooks), List.countP_append, List.countP_append,
      List.countP_append, hplaces, ih hrest, List.length_cons]
    omega

theorem areReports_linesOf (hvalues : ∀ conflict ∈ conflicts, '\n' ∉ conflict.value.toList) :
    AreReports conflicts.length
      (linesOf (conflicts.flatMap fun conflict => conflict.text.toList)) := by
  induction conflicts with
  | nil => exact .nil
  | cons conflict rest ih =>
    obtain ⟨hhead, hrest⟩ := List.forall_mem_cons.mp hplaced
    obtain ⟨hvalue, hmore⟩ := List.forall_mem_cons.mp hvalues
    obtain ⟨summary, hsummary, hlines⟩ := exists_linesOf_text hhead
      (rest.flatMap fun conflict => conflict.text.toList)
    rw [List.flatMap_cons, hlines, Conflict.stray_eq_nil_iff.mpr hvalue]
    refine .report hsummary ?_ ?_ (ih hrest hmore)
    · rw [String.toList_append]
      exact List.prefix_append _ _
    · rw [String.toList_append]
      exact List.prefix_append _ _

/-- Reports that are their three lines each have values without line feeds, and the other way. -/
theorem areReports_linesOf_iff :
    AreReports conflicts.length
        (linesOf (conflicts.flatMap fun conflict => conflict.text.toList)) ↔
      ∀ conflict ∈ conflicts, '\n' ∉ conflict.value.toList := by
  constructor
  · intro hreports conflict hmem
    have hlines := hreports.length_eq
    rw [length_linesOf_reports hplaced, Nat.add_eq_left, List.count_eq_zero] at hlines
    exact fun hfeed => hlines (List.mem_flatMap.mpr ⟨conflict, hmem, hfeed⟩)
  · exact areReports_linesOf hplaced

theorem countP_linesOf_reports_eq_iff :
    (linesOf (conflicts.flatMap fun conflict => conflict.text.toList)).countP LooksLikeReport =
        conflicts.length ↔
      ∀ conflict ∈ conflicts, ¬"\nERROR:".toList <:+: conflict.value.toList := by
  rw [countP_linesOf_reports hplaced, Nat.add_eq_left, List.countP_eq_zero]
  simp only [decide_eq_true_eq, ← Conflict.exists_stray_iff, List.mem_flatMap, not_exists, not_and]
  exact ⟨fun h conflict hmem line hline => h line ⟨conflict, hmem, hline⟩,
    fun h line ⟨conflict, hmem, hline⟩ => h conflict hmem line hline⟩

end

/-! ### Where the conflicts of a run come from -/

theorem Change.conflict?_origins {earlier : List Change} {change : Change} {key : Key}
    {conflict : Conflict} (hconflict : change.conflict? earlier key = some conflict) :
    (∃ first ∈ earlier, conflict.first = first.origin) ∧ conflict.duplicate = change.origin := by
  obtain ⟨value, -, hfirst⟩ := Option.bind_eq_some_iff.mp hconflict
  obtain ⟨first, hfind, rfl⟩ := Option.map_eq_some_iff.mp hfirst
  exact ⟨⟨first, List.mem_of_find?_eq_some hfind, rfl⟩, rfl⟩

/-- What a conflict cites are origins of changes. -/
theorem exists_origins_of_mem_conflictsAmong {earlier changes : List Change} {conflict : Conflict}
    (hmem : conflict ∈ conflictsAmong earlier changes) :
    (∃ first ∈ earlier ++ changes, conflict.first = first.origin) ∧
      ∃ again ∈ changes, conflict.duplicate = again.origin := by
  induction changes generalizing earlier with
  | nil => cases hmem
  | cons change rest ih =>
    rw [conflictsAmong, List.mem_append] at hmem
    rcases hmem with hown | hlater
    · have hkey : ∃ key, change.conflict? earlier key = some conflict := by
        simp only [List.mem_append, Option.mem_toList] at hown
        exact hown.elim (⟨.id, ·⟩) (⟨.name, ·⟩)
      obtain ⟨key, hconflict⟩ := hkey
      obtain ⟨⟨first, hfirst, heq⟩, hagain⟩ := Change.conflict?_origins hconflict
      exact ⟨⟨first, List.mem_append_left _ hfirst, heq⟩, change, List.mem_cons_self, hagain⟩
    · obtain ⟨⟨first, hfirst, heq⟩, again, hagain, hsame⟩ := ih hlater
      rw [List.append_assoc] at hfirst
      exact ⟨⟨first, hfirst, heq⟩, again, List.mem_cons_of_mem _ hagain, hsame⟩

theorem Change.ReadUnder.origin_label {change : Change} {label : String}
    (hread : change.ReadUnder label) : change.origin.label = label := by
  obtain ⟨bytes, changes, hread, hmem⟩ := hread
  obtain ⟨document, -, rfl⟩ := readChanges_eq_ok hread
  obtain ⟨child, -, rfl⟩ := mem_changesOf.mp hmem
  rfl

namespace Merger

/-- Labels without line feeds lead to conflicts whose origins have none. -/
theorem isPlaced_of_mem_conflicts {options : Options} {calls : List Call}
    (hlabels : ∀ call ∈ calls, ∀ label ∈ call.labels, '\n' ∉ label.toList) {conflict : Conflict}
    (hmem : conflict ∈ conflictsAmong [] ((new options Sink.unlimited).run calls).changes) :
    conflict.IsPlaced := by
  have hlabel : ∀ change ∈ ((new options Sink.unlimited).run calls).changes,
      '\n' ∉ change.origin.label.toList := by
    intro change hchange
    obtain ⟨call, hcall, label, hlabel, hread⟩ := readUnder_of_mem_run hchange
    rw [hread.origin_label]
    exact hlabels call hcall label hlabel
  obtain ⟨⟨first, hfirst, heq⟩, again, hagain, hsame⟩ := exists_origins_of_mem_conflictsAmong hmem
  exact ⟨heq ▸ hlabel first hfirst, hsame ▸ hlabel again hagain⟩

/-- The lines in the error sink after a run whose labels have no line feed: three for each conflict,
and one more for each line feed in a value that is reported. So they are reports of three lines if and
only if no such value has a line feed, and as many of them begin with `ERROR:` as there are conflicts
if and only if no such value has `ERROR:` after a line feed. -/
theorem lines_reports_run (options : Options) (calls : List Call)
    (hdetect : options.detectConflicts = true)
    (hlabels : ∀ call ∈ calls, ∀ label ∈ call.labels, '\n' ∉ label.toList) :
    let merger := (new options Sink.unlimited).run calls
    let conflicts := conflictsAmong [] merger.changes
    ∃ text, merger.reports.bytes = Utf8.encode text ∧
      (linesOf text).length =
        3 * merger.conflictCount +
          (conflicts.flatMap fun conflict => conflict.value.toList).count '\n' ∧
      (linesOf text).countP LooksLikeReport =
        merger.conflictCount + (conflicts.flatMap Conflict.stray).countP LooksLikeReport ∧
      (AreReports merger.conflictCount (linesOf text) ↔
        ∀ conflict ∈ conflicts, '\n' ∉ conflict.value.toList) ∧
      ((linesOf text).countP LooksLikeReport = merger.conflictCount ↔
        ∀ conflict ∈ conflicts, ¬"\nERROR:".toList <:+: conflict.value.toList) := by
  intro merger conflicts
  have hoptions : merger.options.detectConflicts = true := by rw [options_run, hdetect]
  have hcount : merger.conflictCount = conflicts.length :=
    (sound_run options Sink.unlimited calls).conflictCount_eq_length hoptions
  have hplaced : ∀ conflict ∈ conflicts, conflict.IsPlaced :=
    fun conflict => isPlaced_of_mem_conflicts hlabels
  have hbytes : merger.reports.bytes =
      Utf8.encode (conflicts.flatMap fun conflict => conflict.text.toList) :=
    (reported_run options calls).bytes_eq hoptions
  rw [hcount]
  refine ⟨_, hbytes, ?_⟩
  exact ⟨length_linesOf_reports hplaced, countP_linesOf_reports hplaced,
    areReports_linesOf_iff hplaced, countP_linesOf_reports_eq_iff hplaced⟩

/-- Two fragments of one change each, both with the id that is written as `id`. -/
def twiceCalls (id : String) : List Call :=
  [.mergeBytes (Utf8.encode ("<r><c id='" ++ id ++ "' name='A'/></r>").toList) "a.xml",
    .mergeBytes (Utf8.encode ("<r><c id='" ++ id ++ "' name='B'/></r>").toList) "b.xml"]

/-- A reference for a line feed in an id is enough for a fourth line. -/
theorem lines_reports_run_twiceCalls :
    let merger := (new ⟨true, .compact⟩ Sink.unlimited).run (twiceCalls "1&#10;2")
    (∀ call ∈ twiceCalls "1&#10;2", ∀ label ∈ call.labels, '\n' ∉ label.toList) ∧
      merger.conflictCount = 1 ∧
      ∃ text, merger.reports.bytes = Utf8.encode text ∧ (linesOf text).length = 4 ∧
        (linesOf text).countP LooksLikeReport = 1 ∧ ¬AreReports 1 (linesOf text) := by
  intro merger
  have hlabels : ∀ call ∈ twiceCalls "1&#10;2", ∀ label ∈ call.labels, '\n' ∉ label.toList := by
    simp [twiceCalls, Call.labels]
  have hfound : merger.conflictCount = 1 ∧
      conflictsAmong [] merger.changes = [⟨.id, "1\n2", ⟨"a.xml", 1⟩, ⟨"b.xml", 1⟩⟩] := by
    decide +kernel
  obtain ⟨hcount, hconflicts⟩ := hfound
  obtain ⟨text, hbytes, hlength, -, hreports, hlooks⟩ :=
    lines_reports_run ⟨true, .compact⟩ (twiceCalls "1&#10;2") rfl hlabels
  rw [hconflicts, hcount] at hlength hreports hlooks
  refine ⟨hlabels, hcount, text, hbytes, hlength, hlooks.mpr ?_, mt hreports.mp ?_⟩ <;> decide

/-- A value can have a line that looks like a report of its own. There is one conflict, but there are
four lines, and two of them begin with `ERROR:`. -/
theorem lines_reports_ne_three :
    let merger := (new ⟨true, .compact⟩ Sink.unlimited).run (twiceCalls "1&#10;ERROR: ")
    (∀ call ∈ twiceCalls "1&#10;ERROR: ", ∀ label ∈ call.labels, '\n' ∉ label.toList) ∧
      merger.conflictCount = 1 ∧
      ∃ text, merger.reports.bytes = Utf8.encode text ∧ (linesOf text).length = 4 ∧
        (linesOf text).countP LooksLikeReport = 2 ∧ ¬AreReports 1 (linesOf text) := by
  intro merger
  let conflict : Conflict := ⟨.id, "1\nERROR: ", ⟨"a.xml", 1⟩, ⟨"b.xml", 1⟩⟩
  have hlabels : ∀ call ∈ twiceCalls "1&#10;ERROR: ", ∀ label ∈ call.labels,
      '\n' ∉ label.toList := by
    simp [twiceCalls, Call.labels]
  have hfound : merger.conflictCount = 1 ∧ conflictsAmong [] merger.changes = [conflict] := by
    decide +kernel
  obtain ⟨hcount, hconflicts⟩ := hfound
  have hdetect : merger.options.detectConflicts = true := by rw [options_run]
  have hreported : merger.Reported := reported_run ⟨true, .compact⟩ (twiceCalls "1&#10;ERROR: ")
  have hbytes : merger.reports.bytes = Utf8.encode conflict.text.toList := by
    rw [hreported.bytes_eq hdetect, hconflicts, reportBytes, List.flatMap_singleton]
  have hlines : (linesOf conflict.text.toList).length = 4 ∧
      (linesOf conflict.text.toList).countP LooksLikeReport = 2 := by
    decide +kernel
  refine ⟨hlabels, hcount, _, hbytes, hlines.1, hlines.2, fun hreports => ?_⟩
  have hthree := hreports.length_eq
  omega

end Merger

end CompatChanges
