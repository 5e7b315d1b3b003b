/-!
Byte sinks. Whatever is reported or written goes to one in parts, and after the first part that
fails nothing more is written. `Sink` is the sink of files and buffers, which may fill up.
-/

namespace CompatChanges

structure SinkFault where
  message : String
  deriving Repr, DecidableEq

/-- States of something that takes bytes. A write or a flush leads to another state, also if it
fails. -/
class ByteSink (σ : Type) where
  write : σ → List UInt8 → σ × Except SinkFault Unit
  flush : σ → σ × Except SinkFault Unit

namespace ByteSink

variable {σ : Type} [ByteSink σ]

/-- Writes the chunks in order, up to the first that fails. -/
def writeAll (sink : σ) : List (List UInt8) → σ × Except SinkFault Unit
  | [] => (sink, .ok ())
  | chunk :: rest =>
    match write sink chunk with
    | (sink, .ok ()) => writeAll sink rest
    | (sink, .error fault) => (sink, .error fault)

/-- Writes the chunks in order, and flushes if all were taken. -/
def writeAndFlush (sink : σ) (chunks : List (List UInt8)) : σ × Except SinkFault Unit :=
  match writeAll sink chunks with
  | (sink, .ok ()) => flush sink
  | (sink, .error fault) => (sink, .error fault)

/-- Whether whatever is written to the sink next is taken. -/
def AcceptsNext (sink : σ) : Prop := ∀ chunks, (writeAndFlush sink chunks).2 = .ok ()

end ByteSink

def SinkFault.full : SinkFault := ⟨"sink full"⟩

def SinkFault.flush : SinkFault := ⟨"flush failed"⟩

/-- A sink that takes what fits of each write; a write of which something does not fit fails. -/
structure Sink where
  received : Array UInt8
  /-- How many more bytes fit, if there is a limit. -/
  room : Option Nat
  flushFails : Bool

namespace Sink

def unlimited : Sink := ⟨#[], none, false⟩

def limited (limit : Nat) (flushFails : Bool) : Sink := ⟨#[], some limit, flushFails⟩

def bytes (sink : Sink) : List UInt8 := sink.received.toList

def size (sink : Sink) : Nat := sink.received.size

def bytesFrom (sink : Sink) (start : Nat) : List UInt8 := (sink.received.extract start sink.size).toList

@[simp] theorem length_bytes (sink : Sink) : sink.bytes.length = sink.size := rfl

def fitting (sink : Sink) (count : Nat) : Nat :=
  match sink.room with
  | none => count
  | some room => min room count

def take (sink : Sink) (chunk : List UInt8) : Sink :=
  let fit := chunk.take (sink.fitting chunk.length)
  { sink with received := sink.received ++ fit, room := sink.room.map (· - fit.length) }

def write (sink : Sink) (chunk : List UInt8) : Sink × Except SinkFault Unit :=
  let outcome := if sink.fitting chunk.length < chunk.length then .error .full else .ok ()
  (sink.take chunk, outcome)

/-- What a sink holds after a write is what it held, and as much of the chunk as fits. -/
theorem bytes_write (sink : Sink) (chunk : List UInt8) :
    (sink.write chunk).1.bytes = sink.bytes ++ chunk.take (sink.fitting chunk.length) := by
  simp [write, take, bytes]

def flush (sink : Sink) : Except SinkFault Unit :=
  if sink.flushFails then .error .flush else .ok ()

instance : ByteSink Sink where
  write := Sink.write
  flush := fun sink => (sink, sink.flush)

/-- Whether the sink takes everything and never fails. -/
def AcceptsAll (sink : Sink) : Prop := sink.room = none ∧ sink.flushFails = false

theorem acceptsAll_unlimited : unlimited.AcceptsAll := ⟨rfl, rfl⟩

theorem AcceptsAll.writeAll {sink : Sink} (accepts : sink.AcceptsAll) (chunks : List (List UInt8)) :
    (ByteSink.writeAll sink chunks).2 = .ok () ∧
      (ByteSink.writeAll sink chunks).1.bytes = sink.bytes ++ chunks.flatten ∧
      (ByteSink.writeAll sink chunks).1.AcceptsAll := by
  induction chunks generalizing sink with
  | nil => exact ⟨rfl, by simp [ByteSink.writeAll], accepts⟩
  | cons chunk rest ih =>
    have fits : sink.fitting chunk.length = chunk.length := by simp [fitting, accepts.1]
    have taken : ByteSink.write sink chunk = (sink.take chunk, .ok ()) := by
      change sink.write chunk = _
      simp [write, fits]
    have content : (sink.take chunk).bytes = sink.bytes ++ chunk := by simp [take, bytes, fits]
    obtain ⟨outcome, total, still⟩ := @ih (sink.take chunk) ⟨by simp [take, accepts.1], accepts.2⟩
    simp only [ByteSink.writeAll, taken]
    exact ⟨outcome, by rw [total, content, List.flatten_cons, List.append_assoc], still⟩

/-- What is written to a sink that takes everything is added at the end. -/
theorem AcceptsAll.writeAndFlush {sink : Sink} (accepts : sink.AcceptsAll)
    (chunks : List (List UInt8)) :
    (ByteSink.writeAndFlush sink chunks).2 = .ok () ∧
      (ByteSink.writeAndFlush sink chunks).1.bytes = sink.bytes ++ chunks.flatten ∧
      (ByteSink.writeAndFlush sink chunks).1.AcceptsAll := by
  obtain ⟨outcome, total, still⟩ := accepts.writeAll chunks
  unfold ByteSink.writeAndFlush
  cases written : ByteSink.writeAll sink chunks with
  | mk after result =>
    rw [written] at outcome total still
    subst outcome
    have flushes : after.flushFails = false := still.2
    exact ⟨by simp [ByteSink.flush, flush, flushes], total, still⟩

end Sink

end CompatChanges
