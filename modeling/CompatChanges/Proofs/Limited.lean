import CompatChanges.Proofs.Report

/-!
# Reports that do not fit

Two mergers are fed the same fragments. The sink of one takes everything, that of the other only its
first bytes, and its flushes may fail. Both come to hold the same changes and to know the same
definitions, and what the second has reported is the beginning of what the first has. Only the
outcome of a call can tell them apart.
-/

namespace CompatChanges

/-- What a sink takes: `limit` bytes in all. How its flushes end is left open. -/
structure Quota (σ : Type) [ByteSink σ] where
  limit : Nat
  bytes : σ → List UInt8
  /-- The states that the sink can be in. -/
  live : σ → Prop
  write_live : ∀ {sink} chunk, live sink → live (ByteSink.write sink chunk).1
  flush_live : ∀ {sink}, live sink → live (ByteSink.flush sink).1
  bytes_write : ∀ {sink} chunk, live sink →
    bytes (ByteSink.write sink chunk).1 = (bytes sink ++ chunk).take limit
  write_eq_ok_iff : ∀ {sink} chunk, live sink →
    ((ByteSink.write sink chunk).2 = .ok () ↔ (bytes sink ++ chunk).length ≤ limit)
  bytes_flush : ∀ {sink}, live sink → bytes (ByteSink.flush sink).1 = bytes sink

namespace Quota

variable {σ : Type} [ByteSink σ] (quota : Quota σ)

/-- What fits of several chunks is what fits of all of them together. -/
theorem writeAll {sink : σ} (hlive : quota.live sink) (hfits : (quota.bytes sink).length ≤ quota.limit)
    (chunks : List (List UInt8)) :
    quota.live (ByteSink.writeAll sink chunks).1 ∧
      quota.bytes (ByteSink.writeAll sink chunks).1 =
        (quota.bytes sink ++ chunks.flatten).take quota.limit ∧
      ((ByteSink.writeAll sink chunks).2 = .ok () ↔
        (quota.bytes sink ++ chunks.flatten).length ≤ quota.limit) := by
  induction chunks generalizing sink with
  | nil =>
    rw [ByteSink.writeAll, List.flatten_nil, List.append_nil, List.take_of_length_le hfits]
    exact ⟨hlive, rfl, iff_of_true rfl hfits⟩
  | cons chunk rest ih =>
    have hnext := quota.write_live chunk hlive
    have hbytes := quota.bytes_write chunk hlive
    have hok := quota.write_eq_ok_iff chunk hlive
    rw [ByteSink.writeAll, List.flatten_cons, ← List.append_assoc]
    generalize ByteSink.write sink chunk = written at hnext hbytes hok
    obtain ⟨after, outcome⟩ := written
    dsimp only at hnext hbytes hok
    cases outcome with
    | ok _ =>
      have hall := hok.mp rfl
      rw [List.take_of_length_le hall] at hbytes
      rw [← hbytes] at hall ⊢
      exact ih hnext hall
    | error fault =>
      have hmore : ¬(quota.bytes sink ++ chunk).length ≤ quota.limit := by
        rw [← hok]
        intro htaken
        cases htaken
      refine ⟨hnext, ?_, ?_⟩
      · rw [hbytes]
        exact (List.take_append_of_le_length (by omega)).symm
      · rw [List.length_append] at hmore
        simp only [reduceCtorEq, List.length_append, false_iff]
        omega

theorem writeAndFlush {sink : σ} (hlive : quota.live sink)
    (hfits : (quota.bytes sink).length ≤ quota.limit) (chunks : List (List UInt8)) :
    quota.live (ByteSink.writeAndFlush sink chunks).1 ∧
      quota.bytes (ByteSink.writeAndFlush sink chunks).1 =
        (quota.bytes sink ++ chunks.flatten).take quota.limit ∧
      ((ByteSink.writeAndFlush sink chunks).2 = .ok () ↔
        (quota.bytes sink ++ chunks.flatten).length ≤ quota.limit ∧
          (ByteSink.flush (ByteSink.writeAll sink chunks).1).2 = .ok ()) := by
  obtain ⟨hnext, hbytes, hok⟩ := quota.writeAll hlive hfits chunks
  rw [← hok, ByteSink.writeAndFlush]
  generalize ByteSink.writeAll sink chunks = written at hnext hbytes
  obtain ⟨after, outcome⟩ := written
  cases outcome with
  | ok _ => exact ⟨quota.flush_live hnext, (quota.bytes_flush hnext).trans hbytes, by simp⟩
  | error fault => exact ⟨hnext, hbytes, by simp⟩

/-- Some byte of a report has no room after the first `reported` bytes, or the flush that follows
the report fails. -/
def Refuses (sink : σ) (reported : Nat) (chunks : List (List UInt8)) : Prop :=
  (∃ index, reported ≤ index ∧ index < reported + chunks.flatten.length ∧ quota.limit ≤ index) ∨
    (ByteSink.flush (ByteSink.writeAll sink chunks).1).2 ≠ .ok ()

end Quota

theorem take_take_append (limit : Nat) (left right : List UInt8) :
    (left.take limit ++ right).take limit = (left ++ right).take limit := by
  have hroom : limit - (left.take limit).length = limit - left.length := by
    rw [List.length_take]
    omega
  rw [List.take_append, List.take_append, List.take_take, Nat.min_self, hroom]

namespace Merger

/-- A fragment that is merged, from a reader or from memory. -/
inductive Feed where
  | merge (stream : Stream) (label : String)
  | mergeBytes (bytes : List UInt8) (label : String)

/-- The changes that are taken with the fragment, or why there are none. -/
def Feed.accept (options : Options) : Feed → Except MergeError (List Change)
  | .merge stream label =>
    if stream.fails then .error .input else Merger.accept options stream.bytes label
  | .mergeBytes bytes label => Merger.accept options bytes label

variable {σ : Type} [ByteSink σ]

def feed (merger : Merger σ) : Feed → Merger σ × Except MergeError Unit
  | .merge stream label => merger.merge stream label
  | .mergeBytes bytes label => merger.mergeBytes bytes label

def feedAll (merger : Merger σ) (feeds : List Feed) : Merger σ :=
  feeds.foldl (fun merger feed => (merger.feed feed).1) merger

theorem feedAll_concat (merger : Merger σ) (feeds : List Feed) (last : Feed) :
    merger.feedAll (feeds ++ [last]) = ((merger.feedAll feeds).feed last).1 := by
  rw [feedAll, List.foldl_append]
  rfl

/-- The conflicts that a fragment brings. -/
def feedConflicts (merger : Merger σ) (feed : Feed) : List Conflict :=
  match feed.accept merger.options with
  | .error _ => []
  | .ok changes => merger.found changes

/-- The parts in which the conflicts of a fragment are reported. -/
def feedChunks (merger : Merger σ) (feed : Feed) : List (List UInt8) :=
  ((merger.feedConflicts feed).flatMap Conflict.report).map fun line => Text.Utf8.encode line.toList

theorem feed_of_error {merger : Merger σ} {next : Feed} {error : MergeError}
    (haccept : next.accept merger.options = .error error) :
    merger.feed next = (merger, .error error) := by
  cases next with
  | merge stream label =>
    rw [Feed.accept] at haccept
    rw [feed, Merger.merge]
    split at haccept
    · next hfails =>
      cases haccept
      rw [if_pos hfails]
    · next hfails => rw [if_neg hfails, mergeBytes_of_error haccept]
  | mergeBytes bytes label => exact mergeBytes_of_error haccept

theorem feed_of_ok {merger : Merger σ} {next : Feed} {changes : List Change}
    (haccept : next.accept merger.options = .ok changes) : merger.feed next = merger.take changes := by
  cases next with
  | merge stream label =>
    rw [Feed.accept] at haccept
    rw [feed, Merger.merge]
    split at haccept
    · cases haccept
    · next hfails => rw [if_neg hfails, mergeBytes_of_ok haccept]
  | mergeBytes bytes label => exact mergeBytes_of_ok haccept

/-! ### Two mergers side by side -/

variable {quota : Quota σ} {full : Merger} {merger : Merger σ}

/-- The merger with the quota holds and knows what the other does, and has reported what fits. -/
structure Follows (quota : Quota σ) (full : Merger) (merger : Merger σ) : Prop where
  options : merger.options = full.options
  changes : merger.changes = full.changes
  tracker : merger.tracker = full.tracker
  accepts : full.reports.AcceptsAll
  live : quota.live merger.reports
  bytes : quota.bytes merger.reports = full.reports.bytes.take quota.limit

theorem Follows.reportChunks_eq (hfollows : Follows quota full merger) (changes : List Change) :
    merger.reportChunks changes = full.reportChunks changes := by
  rw [reportChunks, reportChunks, found, found, hfollows.options, hfollows.tracker]

theorem Follows.fits (hfollows : Follows quota full merger) :
    (quota.bytes merger.reports).length ≤ quota.limit := by
  rw [hfollows.bytes]
  exact List.length_take_le _ _

theorem Follows.take (hfollows : Follows quota full merger) (changes : List Change) :
    Follows quota (full.take changes).1 (merger.take changes).1 := by
  obtain ⟨-, hfull, haccepts⟩ := take_of_acceptsAll hfollows.accepts changes
  obtain ⟨hlive, hbytes, -⟩ :=
    quota.writeAndFlush hfollows.live hfollows.fits (full.reportChunks changes)
  constructor
  · rw [take_options, take_options, hfollows.options]
  · rw [take_changes, take_changes, hfollows.changes]
  · rw [take_tracker, take_tracker, hfollows.options, hfollows.tracker]
  · exact haccepts
  · rwa [take_reports, hfollows.reportChunks_eq]
  · rw [hfull, take_reports, hfollows.reportChunks_eq, hbytes, hfollows.bytes]
    exact take_take_append ..

theorem Follows.feed (hfollows : Follows quota full merger) (next : Feed) :
    Follows quota (full.feed next).1 (merger.feed next).1 := by
  cases haccept : next.accept full.options with
  | error error =>
    rw [feed_of_error haccept, feed_of_error (hfollows.options ▸ haccept)]
    exact hfollows
  | ok changes =>
    rw [feed_of_ok haccept, feed_of_ok (hfollows.options ▸ haccept)]
    exact hfollows.take changes

theorem Follows.feedAll (hfollows : Follows quota full merger) (feeds : List Feed) :
    Follows quota (full.feedAll feeds) (merger.feedAll feeds) := by
  induction feeds generalizing full merger with
  | nil => exact hfollows
  | cons next rest ih => exact ih (hfollows.feed next)

theorem follows_new (options : Options) {sink : σ} (hlive : quota.live sink)
    (hempty : quota.bytes sink = []) :
    Follows quota (new options Sink.unlimited) (new options sink) where
  options := rfl
  changes := rfl
  tracker := rfl
  accepts := Sink.acceptsAll_unlimited
  live := hlive
  bytes := by
    rw [new, hempty]
    exact List.take_nil.symm

/-! ### Outcomes -/

theorem Follows.not_refuses_iff (hfollows : Follows quota full merger) (chunks : List (List UInt8)) :
    ¬quota.Refuses merger.reports full.reports.bytes.length chunks ↔
      (quota.bytes merger.reports ++ chunks.flatten).length ≤ quota.limit ∧
        (ByteSink.flush (ByteSink.writeAll merger.reports chunks).1).2 = .ok () := by
  have hfit : (¬∃ index, full.reports.bytes.length ≤ index ∧
      index < full.reports.bytes.length + chunks.flatten.length ∧ quota.limit ≤ index) ↔
        (quota.bytes merger.reports ++ chunks.flatten).length ≤ quota.limit := by
    rw [hfollows.bytes, List.length_append, List.length_take]
    constructor
    · intro hnone
      by_contra hmore
      -- The last byte of the report is one that has no room.
      apply hnone
      exact ⟨full.reports.bytes.length + chunks.flatten.length - 1, by omega, by omega, by omega⟩
    · rintro hfits ⟨index, hlow, hhigh, hroom⟩
      omega
  rw [Quota.Refuses, not_or, hfit, not_not]

theorem Follows.take_outcome (hfollows : Follows quota full merger) (changes : List Change) :
    (quota.Refuses merger.reports full.reports.bytes.length (full.reportChunks changes) →
      ∃ fault, (merger.take changes).2 = .error (.report fault)) ∧
      (¬quota.Refuses merger.reports full.reports.bytes.length (full.reportChunks changes) →
        (merger.take changes).2 = .ok ()) := by
  obtain ⟨-, -, hok⟩ :=
    quota.writeAndFlush hfollows.live hfollows.fits (full.reportChunks changes)
  rw [← hfollows.not_refuses_iff] at hok
  rw [Merger.take_outcome, hfollows.reportChunks_eq]
  constructor
  · intro hrefuses
    cases houtcome : (ByteSink.writeAndFlush merger.reports (full.reportChunks changes)).2 with
    | ok _ => exact absurd hrefuses (hok.mp houtcome)
    | error fault => exact ⟨fault, rfl⟩
  · intro haccepts
    rw [hok.mpr haccepts]
    rfl

/-- After every sequence of fragments the two mergers hold the same changes, know the same definitions
and count the same conflicts, and the sink with the quota has what fits of all reports. The next
fragment fails for the same reason in both, or it fails in the second alone, when its report is not
taken. -/
theorem feed_limited (quota : Quota σ) (options : Options) {sink : σ} (hlive : quota.live sink)
    (hempty : quota.bytes sink = []) (feeds : List Feed) (next : Feed) :
    let full := (new options Sink.unlimited).feedAll feeds
    let merger := (new options sink).feedAll feeds
    let refuses :=
      quota.Refuses merger.reports full.reports.bytes.length (full.feedChunks next)
    merger.changes = full.changes ∧ merger.tracker = full.tracker ∧
      quota.bytes merger.reports = full.reports.bytes.take quota.limit ∧
      (full.feed next).1.reports.bytes =
        full.reports.bytes ++ (full.feedChunks next).flatten ∧
      (∀ error, (full.feed next).2 = .error error → (merger.feed next).2 = .error error) ∧
      ((full.feed next).2 = .ok () →
        (refuses → ∃ fault, (merger.feed next).2 = .error (.report fault)) ∧
          (¬refuses → (merger.feed next).2 = .ok ())) := by
  intro full merger refuses
  have hfollows : Follows quota full merger := (follows_new options hlive hempty).feedAll feeds
  refine ⟨hfollows.changes, hfollows.tracker, hfollows.bytes, ?_⟩
  cases haccept : next.accept full.options with
  | error error =>
    have hchunks : full.feedChunks next = [] := by
      rw [feedChunks, feedConflicts, haccept]
      rfl
    rw [hchunks, feed_of_error haccept, feed_of_error (hfollows.options ▸ haccept)]
    refine ⟨(List.append_nil _).symm, fun _ h => h, ?_⟩
    intro htaken
    cases htaken
  | ok changes =>
    have hchunks : full.feedChunks next = full.reportChunks changes := by
      rw [feedChunks, feedConflicts, haccept, reportChunks]
    obtain ⟨hfull, hbytes, -⟩ := take_of_acceptsAll hfollows.accepts changes
    have houtcome := hfollows.take_outcome changes
    rw [← hchunks] at houtcome
    rw [feed_of_ok haccept, feed_of_ok (hfollows.options ▸ haccept), hfull, hchunks]
    refine ⟨hbytes, ?_, fun _ => houtcome⟩
    intro error hfails
    cases hfails

end Merger

/-! ### Sinks that fill up -/

namespace Sink

/-- Some bytes of a limit are taken already, and there is room for the others. -/
def FillsTo (limit : Nat) (sink : Sink) : Prop :=
  sink.size ≤ limit ∧ sink.room = some (limit - sink.size)

variable {limit : Nat} {sink : Sink}

theorem FillsTo.fitting_eq (hfills : sink.FillsTo limit) (count : Nat) :
    sink.fitting count = min (limit - sink.size) count := by
  rw [fitting, hfills.2]

theorem FillsTo.write (hfills : sink.FillsTo limit) (chunk : List UInt8) :
    (sink.write chunk).1.FillsTo limit := by
  have hsize : (sink.write chunk).1.size = sink.size + min (limit - sink.size) chunk.length := by
    rw [← length_bytes, bytes_write, hfills.fitting_eq]
    simp
  have hroom : (sink.write chunk).1.room =
      some (limit - sink.size - min (limit - sink.size) chunk.length) := by
    simp [Sink.write, take, hfills.fitting_eq, hfills.2]
  have hle := hfills.1
  rw [FillsTo, hsize, hroom]
  refine ⟨by omega, congrArg some ?_⟩
  omega

theorem FillsTo.bytes_write (hfills : sink.FillsTo limit) (chunk : List UInt8) :
    (sink.write chunk).1.bytes = (sink.bytes ++ chunk).take limit := by
  have hle : sink.bytes.length ≤ limit := hfills.1
  rw [Sink.bytes_write, hfills.fitting_eq, List.take_append, List.take_of_length_le hle, length_bytes,
    ← List.take_eq_take_min]

theorem FillsTo.write_eq_ok_iff (hfills : sink.FillsTo limit) (chunk : List UInt8) :
    (sink.write chunk).2 = .ok () ↔ (sink.bytes ++ chunk).length ≤ limit := by
  have hle := hfills.1
  rw [Sink.write, hfills.fitting_eq, List.length_append, length_bytes]
  dsimp only
  split
  · next hshort =>
    simp only [reduceCtorEq, false_iff]
    omega
  · next hfits => exact iff_of_true rfl (by omega)

/-- A sink with a limit, whether its flushes fail or not. -/
def quota (limit : Nat) : Quota Sink where
  limit := limit
  bytes := bytes
  live := FillsTo limit
  write_live chunk hfills := hfills.write chunk
  flush_live := id
  bytes_write chunk hfills := hfills.bytes_write chunk
  write_eq_ok_iff chunk hfills := hfills.write_eq_ok_iff chunk
  bytes_flush _ := rfl

theorem bytes_quota (limit : Nat) : (quota limit).bytes = bytes := rfl

theorem limit_quota (limit : Nat) : (quota limit).limit = limit := rfl

theorem fillsTo_limited (limit : Nat) (flushFails : Bool) :
    (Sink.limited limit flushFails).FillsTo limit := ⟨Nat.zero_le limit, rfl⟩

end Sink

namespace Merger

/-- Two changes that share an id. -/
def clashing : Feed :=
  .mergeBytes (Text.Utf8.encode "<r><a id='1' name='A'/><a id='1' name='B'/></r>".toList) "a"

/-- The merger with conflict detection after one fragment. -/
def clashed {σ : Type} [ByteSink σ] (sink : σ) : Merger σ :=
  (new ⟨true, .compact⟩ sink).feedAll [clashing]

/-- A sink with room for one report and a few bytes more. -/
def narrow : Sink := Sink.limited 110 false

/-- What a narrow sink receives: a report, and a part of the first line of the next. -/
def cutReports : String :=
  "ERROR: Duplicate definitions for compat change with ID 1\n" ++
    "  first defined at a:1\n  redefined at a:1\n" ++
    "ERROR: Dupl"

/-- The report of the second fragment breaks off within a line, and the fragment is merged all the
same. -/
theorem feed_limited_clashing :
    (Sink.quota 110).live narrow ∧ (Sink.quota 110).bytes narrow = [] ∧
      (clashed Sink.unlimited).conflictCount = 1 ∧
        (clashed narrow).changes = (clashed Sink.unlimited).changes ∧
        (clashed narrow).tracker = (clashed Sink.unlimited).tracker ∧
        (clashed narrow).reports.bytes = (clashed Sink.unlimited).reports.bytes ∧
        ((clashed Sink.unlimited).feed clashing).2 = .ok () ∧
          (∃ fault, ((clashed narrow).feed clashing).2 = .error (.report fault)) ∧
          ((clashed narrow).feed clashing).1.changes =
            ((clashed Sink.unlimited).feed clashing).1.changes ∧
          ((clashed narrow).feed clashing).1.reports.bytes = Text.Utf8.encode cutReports.toList := by
  have hlive : (Sink.quota 110).live narrow := Sink.fillsTo_limited 110 false
  obtain ⟨hchanges, htracker, hbytes, -, -, houtcome⟩ :=
    feed_limited (Sink.quota 110) ⟨true, .compact⟩ hlive rfl [clashing] clashing
  obtain ⟨hagain, -, hcut, -⟩ :=
    feed_limited (Sink.quota 110) ⟨true, .compact⟩ hlive rfl ([clashing] ++ [clashing]) clashing
  rw [Sink.bytes_quota, Sink.limit_quota] at hbytes hcut
  rw [feedAll_concat, feedAll_concat, ← clashed, ← clashed] at hagain hcut
  have hfits : (clashed Sink.unlimited).reports.bytes.length ≤ 110 ∧
      110 < (clashed Sink.unlimited).reports.bytes.length +
        ((clashed Sink.unlimited).feedChunks clashing).flatten.length := by
    decide +kernel
  have hfull : (clashed Sink.unlimited).conflictCount = 1 ∧
      ((clashed Sink.unlimited).feed clashing).2.isOk = true ∧
      ((clashed Sink.unlimited).feed clashing).1.reports.bytes.take 110 =
        Text.Utf8.encode cutReports.toList := by
    decide +kernel
  obtain ⟨hcount, hisOk, htaken⟩ := hfull
  have hok : ((clashed Sink.unlimited).feed clashing).2 = .ok () := by
    cases hfed : ((clashed Sink.unlimited).feed clashing).2 with
    | ok _ => rfl
    | error error =>
      rw [hfed] at hisOk
      cases hisOk
  -- The first byte without room is the one at the limit.
  have hrefuses : (Sink.quota 110).Refuses (clashed narrow).reports
      (clashed Sink.unlimited).reports.bytes.length
      ((clashed Sink.unlimited).feedChunks clashing) :=
    .inl ⟨110, hfits.1, hfits.2, le_rfl⟩
  refine ⟨hlive, rfl, hcount, hchanges, htracker, ?_, hok, (houtcome hok).1 hrefuses, hagain, ?_⟩
  · exact hbytes.trans (List.take_of_length_le hfits.1)
  · exact hcut.trans htaken

end Merger

end CompatChanges
