import ClpFfiGo.SerializerLockstep
import ClpFfiGo.Foundation.Fifo
import ClpFfiGo.Foundation.Pipe

namespace ClpFfiGo

variable {σ ε : Type}

-- The reading half: `NewReader` and `Read`, stopped between two turns of their loops.
inductive Consumer (σ ε : Type) where
  | created (r : σ) (size : ℕ)
  | opening (irr : ReadBuf σ)
  | reading (rd : Reader σ)
  | failed (err : GoError ε)

structure Pipeline (σ ε : Type) where
  writer : Writer
  consumer : Consumer σ ε

inductive PipelineOp (ε : Type) where
  | writer (op : WriterOp ε)
  | reader

inductive PipelineResult (ε : Type) where
  | writer (op : WriterOp ε) (result : WriterResult ε)
  | reader (result : Option (Except (GoError ε) LogEventView))

namespace Consumer

def turn (clp : IrReadApi) (json : JsonApi ε) (io : IoReader σ ε) :
    Consumer σ ε → Consumer σ ε × Option (Except (GoError ε) LogEventView)
  | .created r size => match ReadBuf.read io (ReadBuf.initial r size) with
    | (irr, _, none) => (.opening irr, none)
    | (_, _, some err) => (.failed err, some (.error err))
  | .opening irr => match newReaderTurn clp json io irr with
    | .inl irr => (.opening irr, none)
    | .inr (.ok rd) => (.reading rd, none)
    | .inr (.error err) => (.failed err, some (.error err))
  | .reading rd => match rd.readTurn clp io with
    | .inl rd => (.reading rd, none)
    | .inr (rd, result) => (.reading rd, some result)
  | .failed err => (.failed err, none)

def push (pipe : Pipe σ ε) (c : List UInt8) : Consumer σ ε → Consumer σ ε
  | .created r size => .created (pipe.push r c) size
  | .opening irr => .opening { irr with ioReader := pipe.push irr.ioReader c }
  | .reading rd => .reading { rd with ioReader := pipe.push rd.ioReader c }
  | .failed err => .failed err

def source : Consumer σ ε → Option σ
  | .created r _ => some r
  | .opening irr => some irr.ioReader
  | .reading rd => some rd.ioReader
  | .failed _ => none

end Consumer

namespace Pipeline

def step (clp : IrReadApi) (clpw : IrWriteApi) (json : JsonApi ε) (pipe : Pipe σ ε)
    (p : Pipeline σ ε) : PipelineOp ε → Pipeline σ ε × PipelineResult ε
  | .writer op => (⟨(op.exec clpw p.writer).1, p.consumer.push pipe (op.accepted p.writer)⟩,
      .writer op (op.exec clpw p.writer).2)
  | .reader => (⟨p.writer, (p.consumer.turn clp json pipe.toIoReader).1⟩,
      .reader (p.consumer.turn clp json pipe.toIoReader).2)

end Pipeline

def PipelineOp.resets : PipelineOp ε → Bool
  | .writer op => op.resets
  | .reader => false

namespace PipelineResult

def label : PipelineResult ε → Fifo.Label LogEventView
  | .writer (.write event) (.wrote _ none) => .send event.view
  | .writer op _ => if op.closes then .close else .silent
  | .reader (some (.ok event)) => .receive event
  | .reader (some (.error (.ir err))) => if err = .endOfIr then .finish else .silent
  | .reader _ => .silent

def IoOrEnd : PipelineResult ε → Prop
  | .reader (some (.error err)) => err = .ir .endOfIr ∨ ∃ e, err = .io e
  | _ => True

end PipelineResult

namespace Pipeline

variable (clp : IrReadApi) (clpw : IrWriteApi) (json : JsonApi ε) (pipe : Pipe σ ε)

def results (p : Pipeline σ ε) (ops : List (PipelineOp ε)) : List (PipelineResult ε) :=
  Fifo.outputs (step clp clpw json pipe) p ops

def after (p : Pipeline σ ε) (ops : List (PipelineOp ε)) : Pipeline σ ε :=
  Fifo.final (step clp clpw json pipe) p ops

def labels (p : Pipeline σ ε) (ops : List (PipelineOp ε)) : List (Fifo.Label LogEventView) :=
  (results clp clpw json pipe p ops).map PipelineResult.label

theorem labels_append (p : Pipeline σ ε) (ops more : List (PipelineOp ε)) :
    labels clp clpw json pipe p (ops ++ more) = labels clp clpw json pipe p ops ++
      labels clp clpw json pipe (after clp clpw json pipe p ops) more := by
  rw [labels, results, Fifo.outputs_append, List.map_append]
  rfl

end Pipeline

def lastTimestamp (t : EpochTimeMs) (events : List LogEvent) : EpochTimeMs :=
  events.foldl (fun _ event => event.timestamp) t

-- The bytes of the events still to be read, then the end-of-stream bytes of `z` closes.
def Body (clp : IrReadApi) (enc : Encoding) (prev : EpochTimeMs) (pending : List LogEvent) (z : ℕ)
    (b : List UInt8) : Prop :=
  ∃ ps, b = ps.flatten ++ List.replicate z 0 ∧
    List.Forall₂ (EventBytes clp enc) ps (encoded enc prev pending)

section body

variable {clp : IrReadApi} {enc : Encoding} {prev : EpochTimeMs} {pending : List LogEvent}
  {z : ℕ} {b : List UInt8}

theorem lastTimestamp_snoc (t : EpochTimeMs) (events : List LogEvent) (event : LogEvent) :
    lastTimestamp t (events ++ [event]) = event.timestamp := by
  simp [lastTimestamp]

theorem encoded_snoc (enc : Encoding) (t : EpochTimeMs) (events : List LogEvent)
    (event : LogEvent) : encoded enc t (events ++ [event]) = encoded enc t events ++
      [(event.logMessage, timestampOrDelta enc (lastTimestamp t events) event.timestamp)] := by
  induction events generalizing t with
  | nil => rfl
  | cons e es ih =>
    simp only [List.cons_append, encoded, ih]
    rfl

theorem Body.send (h : Body clp enc prev pending 0 b) {event : LogEvent} {irView : List UInt8}
    (hv : EventBytes clp enc irView (event.logMessage,
      timestampOrDelta enc (lastTimestamp prev pending) event.timestamp)) :
    Body clp enc prev (pending ++ [event]) 0 (b ++ irView) := by
  obtain ⟨ps, rfl, hps⟩ := h
  refine ⟨ps ++ [irView], by simp, ?_⟩
  rw [encoded_snoc]
  exact List.rel_append hps (.cons hv .nil)

theorem Body.close (h : Body clp enc prev pending z b) :
    Body clp enc prev pending (z + 1) (b ++ [0]) := by
  obtain ⟨ps, rfl, hps⟩ := h
  exact ⟨ps, by rw [List.append_assoc, List.replicate_succ'], hps⟩

theorem Body.receive {event : LogEvent} {events : List LogEvent}
    (h : Body clp enc prev (event :: events) z b) :
    ∃ p b', b = p ++ b' ∧ Body clp enc event.timestamp events z b' ∧
      (itemDecoder clp enc).Exact p
        (event.logMessage, timestampOrDelta enc prev event.timestamp) := by
  obtain ⟨ps, rfl, hps⟩ := h
  rw [encoded] at hps
  cases hps with
  | @cons p _ ps _ hp hps => exact ⟨p, _, by simp, ⟨ps, rfl, hps⟩, hp.exact⟩

theorem Body.drained (h : Body clp enc prev [] z b) {u : List UInt8} (hu : u <+: b) :
    u = [] ∨ 0 < z ∧ ∃ v, u = 0 :: v := by
  obtain ⟨ps, rfl, hps⟩ := h
  cases hps
  cases u with
  | nil => exact .inl rfl
  | cons x u =>
    cases z with
    | zero => simp at hu
    | succ z =>
      rw [List.flatten_nil, List.nil_append, List.replicate_succ, List.cons_prefix_cons] at hu
      exact .inr ⟨Nat.succ_pos z, u, by rw [hu.1]⟩

theorem Body.closed (h : Body clp enc prev pending z b) (hb : b = []) : ¬ 0 < z := by
  obtain ⟨ps, rfl, _⟩ := h
  rw [List.append_eq_nil_iff, List.replicate_eq_nil_iff] at hb
  omega

theorem Body.settled (heof : EofByte clp) (h : Body clp enc prev pending z b) :
    (itemDecoder clp enc).Settled b := by
  cases pending with
  | nil =>
    intro u p hu hp
    rcases h.drained (hu.trans hp) with rfl | ⟨_, v, rfl⟩
    · exact .inl itemDecoder_nil
    · obtain ⟨y, rfl⟩ := hu
      right
      rw [heof.dec, List.cons_append, heof.dec]
  | cons event events =>
    obtain ⟨p, b', rfl, _, hp⟩ := h.receive
    exact hp.settled b'

end body

-- Where the reading half stands in the stream, `out` being the bytes the writer still holds.
inductive Consumer.Stands (clp : IrReadApi) (json : JsonApi ε) (pipe : Pipe σ ε) (enc : Encoding)
    (metadata : Metadata) (out : List UInt8) : EpochTimeMs → List UInt8 → Consumer σ ε → Prop
  | created {r size pre body} : 0 < size → PreambleBytes clp json enc metadata pre →
      pipe.contents r ++ out = pre ++ body →
      Stands clp json pipe enc metadata out (initialTime enc metadata) body (.created r size)
  | opening {irr pre body a} : irr.Over pipe.holds a → irr.start = 0 →
      PreambleBytes clp json enc metadata pre → a ++ out = pre ++ body →
      Stands clp json pipe enc metadata out (initialTime enc metadata) body (.opening irr)
  | reading {rd prev body a} :
      rd.Holds pipe.holds (newDeserializer enc metadata ⟨0⟩) ⟨prev, a⟩ → a ++ out = body →
      Stands clp json pipe enc metadata out prev body (.reading rd)
  | failed {prev body e} : Stands clp json pipe enc metadata out prev body (.failed (.io e))

def Pipeline.Carries (clp : IrReadApi) (json : JsonApi ε) (pipe : Pipe σ ε) (enc : Encoding)
    (metadata : Metadata) (p : Pipeline σ ε) (q : Fifo LogEventView) : Prop :=
  ∃ prev pending z body, q = ⟨pending.map LogEvent.view, decide (0 < z)⟩ ∧
    Body clp enc prev pending z body ∧
    p.writer.serializer.Follows enc (lastTimestamp prev pending) ∧
    (0 < z → p.writer.serializer.cptr = none) ∧
    p.consumer.Stands clp json pipe enc metadata p.writer.bytes prev body

end ClpFfiGo
