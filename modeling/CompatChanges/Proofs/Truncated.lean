import CompatChanges.Proofs.Limited
import CompatChanges.Proofs.Remerge

/-!
# Documents that do not fit

A document is written part by part, and nothing is written after the first part that fails. A sink that
takes only so many bytes is left with exactly that many of the document, wherever in a part the last of
them stands, and the writer tells the fault. The changes that the document is made from are not touched,
so that it can be written again.
-/

namespace CompatChanges

open Text Xml

namespace ByteSink

variable {σ : Type} [ByteSink σ] {sink after : σ} {chunks : List (List UInt8)} {fault : SinkFault}

/-- Writing ends at a part that fails: those before it are taken, and none after it is written. -/
def BreaksOff (sink : σ) (chunks : List (List UInt8)) (after : σ) (fault : SinkFault) : Prop :=
  ∃ done chunk rest, chunks = done ++ chunk :: rest ∧ (writeAll sink done).2 = .ok () ∧
    write (writeAll sink done).1 chunk = (after, .error fault)

/-- All parts are taken, and the flush after them fails. -/
def FailsToFlush (sink : σ) (chunks : List (List UInt8)) (after : σ) (fault : SinkFault) : Prop :=
  (writeAll sink chunks).2 = .ok () ∧ flush (writeAll sink chunks).1 = (after, .error fault)

theorem breaksOff_of_writeAll (hfails : writeAll sink chunks = (after, .error fault)) :
    BreaksOff sink chunks after fault := by
  induction chunks generalizing sink with
  | nil => cases hfails
  | cons chunk rest ih =>
    rw [writeAll] at hfails
    split at hfails
    · next taken hwrite =>
      obtain ⟨done, failed, later, rfl, hdone, hfailed⟩ := ih hfails
      have hmore : writeAll sink (chunk :: done) = writeAll taken done := by rw [writeAll, hwrite]
      refine ⟨chunk :: done, failed, later, rfl, ?_⟩
      rw [hmore]
      exact ⟨hdone, hfailed⟩
    · next hwrite =>
      cases hfails
      exact ⟨[], chunk, rest, rfl, rfl, hwrite⟩

theorem breaksOff_or_failsToFlush (hfails : writeAndFlush sink chunks = (after, .error fault)) :
    ((writeAll sink chunks).2 ≠ .ok () ∧ BreaksOff sink chunks after fault) ∨
      FailsToFlush sink chunks after fault := by
  rw [writeAndFlush] at hfails
  split at hfails
  · next hwrite => exact .inr ⟨by rw [hwrite], by rw [hwrite, hfails]⟩
  · next hwrite =>
    cases hfails
    exact .inl ⟨by simp [hwrite], breaksOff_of_writeAll hwrite⟩

end ByteSink

namespace Quota

variable {σ : Type} [ByteSink σ]

/-- The end of writing `chunks` and flushing: the sink has what fits, and if that is not all of it, or
if the flush fails, the fault is told. -/
structure Truncates (quota : Quota σ) (sink : σ) (chunks : List (List UInt8))
    (result : σ × Except SinkFault Unit) : Prop where
  bytes : quota.bytes result.1 = chunks.flatten.take quota.limit
  ok_iff : result.2 = .ok () ↔ chunks.flatten.length ≤ quota.limit ∧
    (ByteSink.flush (ByteSink.writeAll sink chunks).1).2 = .ok ()
  fault : ∀ fault, result.2 = .error fault →
    (quota.limit < chunks.flatten.length ∧ ByteSink.BreaksOff sink chunks result.1 fault) ∨
      (chunks.flatten.length ≤ quota.limit ∧ ByteSink.FailsToFlush sink chunks result.1 fault)

theorem truncates (quota : Quota σ) {sink : σ} (hlive : quota.live sink)
    (hempty : quota.bytes sink = []) (chunks : List (List UInt8)) :
    quota.Truncates sink chunks (ByteSink.writeAndFlush sink chunks) := by
  have hfits : (quota.bytes sink).length ≤ quota.limit := by simp [hempty]
  obtain ⟨-, -, hall⟩ := quota.writeAll hlive hfits chunks
  obtain ⟨-, hbytes, hok⟩ := quota.writeAndFlush hlive hfits chunks
  rw [hempty, List.nil_append] at hall hbytes hok
  refine ⟨hbytes, hok, ?_⟩
  intro fault hfault
  rcases ByteSink.breaksOff_or_failsToFlush (Prod.ext rfl hfault) with ⟨hshort, hbreaks⟩ | hflush
  · rw [ne_eq, hall, Nat.not_le] at hshort
    exact .inl ⟨hshort, hbreaks⟩
  · exact .inr ⟨hall.mp hflush.1, hflush⟩

end Quota

/-- Without conflicts a view is the document of its changes. -/
theorem Merger.writeView_eq_write {ρ : Type} {merger : Merger ρ}
    (hclear : merger.ensureNoConflicts = .ok ()) (view : View) {σ : Type} [ByteSink σ] (sink : σ) :
    merger.writeView view sink =
      ((write (view.project merger.changes) merger.options.layout sink).1,
        (write (view.project merger.changes) merger.options.layout sink).2.mapError .output) := by
  rw [writeView, hclear]

/-- Written to a sink with a quota, a document is cut where the quota ends; and so is a view of any
merger that lets one be written, which can be written again as if it had not been. -/
theorem write_limited {σ : Type} [ByteSink σ] (quota : Quota σ) {sink : σ} (hlive : quota.live sink)
    (hempty : quota.bytes sink = []) :
    (∀ (root : Element) (layout : Layout),
      let chunks := (layout.parts root).map Utf8.encode
      (write root layout Sink.unlimited).2 = .ok () ∧
        (write root layout Sink.unlimited).1.bytes = chunks.flatten ∧
        quota.Truncates sink chunks (write root layout sink)) ∧
    ∀ (ρ : Type) [ByteSink ρ] (merger : Merger ρ) (view : View),
      merger.ensureNoConflicts = .ok () →
        let chunks := (merger.options.layout.parts (view.project merger.changes)).map Utf8.encode
        let again := (merger.call (.write view sink)).writeView view Sink.unlimited
        (∃ result, quota.Truncates sink chunks result ∧
          merger.writeView view sink = (result.1, result.2.mapError .output)) ∧
        again.2 = .ok () ∧ again.1.bytes = chunks.flatten := by
  have hfull (root : Element) (layout : Layout) :
      (write root layout Sink.unlimited).2 = .ok () ∧
        (write root layout Sink.unlimited).1.bytes = ((layout.parts root).map Utf8.encode).flatten := by
    obtain ⟨houtcome, hbytes⟩ := write_unlimited root layout
    refine ⟨houtcome, ?_⟩
    rw [hbytes, encode_flatten, render, String.toList_ofList]
  constructor
  · intro root layout chunks
    obtain ⟨houtcome, hbytes⟩ := hfull root layout
    exact ⟨houtcome, hbytes, quota.truncates hlive hempty chunks⟩
  · intro ρ _ merger view hclear chunks again
    obtain ⟨houtcome, hbytes⟩ := hfull (view.project merger.changes) merger.options.layout
    have hagain : again = merger.writeView view Sink.unlimited := rfl
    refine ⟨⟨_, quota.truncates hlive hempty chunks, Merger.writeView_eq_write hclear view sink⟩, ?_⟩
    rw [hagain, Merger.writeView_eq_write hclear]
    exact ⟨by rw [houtcome]; rfl, hbytes⟩

/-- One change, with a name of one character that takes two bytes. -/
def accented : Merger Sink :=
  (Merger.new ⟨true, .compact⟩ Sink.unlimited).run
    [.mergeBytes (Utf8.encode "<r><c id='1' name='é'/></r>".toList) "a"]

def accentedDocument : String :=
  "<?xml version=\"1.0\" encoding=\"utf-8\"?>\n<config><c id=\"1\" name=\"é\"/></config>\n"

/-- The first 64 bytes end inside that character. -/
theorem write_limited_accented :
    (Sink.quota 64).live (Sink.limited 64 false) ∧ (Sink.quota 64).bytes (Sink.limited 64 false) = [] ∧
      accented.ensureNoConflicts = .ok () ∧
      (accented.writeView .merged (Sink.limited 64 false)).1.bytes =
        (Utf8.encode accentedDocument.toList).take 64 ∧
      (∃ fault, (accented.writeView .merged (Sink.limited 64 false)).2 = .error (.output fault)) ∧
      let again := (accented.call (.write .merged (Sink.limited 64 false))).writeView .merged Sink.unlimited
      again.1.bytes = Utf8.encode accentedDocument.toList := by
  have hlive := Sink.fillsTo_limited 64 false
  have hclear : accented.ensureNoConflicts = .ok () := by
    apply Merger.ensureNoConflicts_eq_ok_iff.mpr
    decide +kernel
  have hdocument : ((accented.options.layout.parts (View.merged.project accented.changes)).map
      Utf8.encode).flatten = Utf8.encode accentedDocument.toList := by
    decide +kernel
  obtain ⟨⟨result, htruncates, hresult⟩, -, hagain⟩ :=
    (write_limited (Sink.quota 64) hlive rfl).2 Sink accented .merged hclear
  have hbytes := htruncates.bytes
  have hok := htruncates.ok_iff
  rw [hdocument] at hagain hbytes hok
  rw [hresult]
  refine ⟨hlive, rfl, hclear, hbytes, ?_, hagain⟩
  cases houtcome : result.2 with
  | error fault => exact ⟨fault, rfl⟩
  | ok _ =>
    have hfits := (hok.mp houtcome).1
    exact absurd hfits (by decide +kernel)

end CompatChanges
