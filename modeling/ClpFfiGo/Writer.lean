import ClpFfiGo.Serializer
import ClpFfiGo.Foundation.ByteBuffer

namespace ClpFfiGo

structure Writer where
  serializer : Serializer
  buf : ByteBuffer

variable {ε : Type}

def newWriterSize (clp : IrWriteApi) (enc : Encoding) (size : ℕ) (timeZoneId : GoString)
    (now : EpochTimeMs) : Except (GoError ε) Writer :=
  let created := match enc with
    | .eightByte => eightByteSerializer clp [] [] timeZoneId
    | .fourByte => fourByteSerializer clp [] [] timeZoneId now
  match created with
  | .error err => .error err
  | .ok (serializer, irView) =>
    .ok ⟨serializer, ((ByteBuffer.mk []).grow size |>.write irView).1⟩

def newWriter (clp : IrWriteApi) (timeLocal : GoString) (now : EpochTimeMs) :
    Except (GoError ε) Writer :=
  newWriterSize clp .fourByte (1024 * 1024) timeLocal now

theorem newWriterSize_eightByte {clp : IrWriteApi} {size : ℕ} {timeZoneId : GoString}
    {now : EpochTimeMs} {writer : Writer}
    (h : newWriterSize (ε := ε) clp .eightByte size timeZoneId now = .ok writer) :
    ∃ c, writer.serializer = .eightByte c ∧
      clp.eightByteSerializePreamble [] [] timeZoneId [] = (true, writer.buf.bytes) := by
  simp only [newWriterSize] at h
  split at h
  · cases h
  · rename_i hn
    obtain ⟨cptr, hs, hp⟩ := eightByteSerializer_ok hn
    cases h
    exact ⟨_, hs, hp⟩

theorem newWriterSize_fourByte {clp : IrWriteApi} {size : ℕ} {timeZoneId : GoString}
    {now : EpochTimeMs} {writer : Writer}
    (h : newWriterSize (ε := ε) clp .fourByte size timeZoneId now = .ok writer) :
    ∃ c, writer.serializer = .fourByte c now ∧
      clp.fourByteSerializePreamble [] [] timeZoneId now [] = (true, writer.buf.bytes) := by
  simp only [newWriterSize] at h
  split at h
  · cases h
  · rename_i hn
    obtain ⟨cptr, hs, hp⟩ := fourByteSerializer_ok hn
    cases h
    exact ⟨_, hs, hp⟩

namespace Writer

def close (writer : Writer) : Writer where
  serializer := writer.serializer.close
  buf := writer.buf.writeByte 0

def writeTo (writer : Writer) (w : Sink ε) : Writer × ℕ × Option (WriteError ε) :=
  match writer.buf.writeTo w with
  | (buf, n, none) => ({ writer with buf := buf.reset }, n, none)
  | (buf, n, some err) => ({ writer with buf }, n, some err)

def closeTo (writer : Writer) (w : Sink ε) : Writer × ℕ × Option (WriteError ε) :=
  writer.close.writeTo w

def bytes (writer : Writer) : List UInt8 := writer.buf.bytes

def reset (writer : Writer) : Writer := { writer with buf := writer.buf.reset }

def write (clp : IrWriteApi) (writer : Writer) (event : LogEvent) :
    Writer × ℕ × Option (GoError ε) :=
  match serializeLogEvent clp writer.serializer event with
  | (serializer, .error err) => ({ writer with serializer }, 0, some err)
  | (serializer, .ok irView) =>
    let (buf, n) := writer.buf.write irView
    (⟨serializer, buf⟩, n, none)

end Writer

inductive WriterOp (ε : Type) where
  | write (event : LogEvent)
  | writeTo (w : Sink ε)
  | close
  | closeTo (w : Sink ε)
  | reset

inductive WriterResult (ε : Type) where
  | wrote (n : ℕ) (err : Option (GoError ε))
  | drained (n : ℕ) (err : Option (WriteError ε))
  | done
  deriving DecidableEq

structure WriterRun (ε : Type) where
  writer : Writer
  accepted : List UInt8
  views : List BufView
  results : List (WriterResult ε)

namespace WriterOp

def closes : WriterOp ε → Bool
  | .close => true
  | .closeTo _ => true
  | _ => false

def resets : WriterOp ε → Bool
  | .reset => true
  | _ => false

def views (clp : IrWriteApi) (writer : Writer) : WriterOp ε → List BufView
  | .write event => match serializeLogEvent (ε := ε) clp writer.serializer event with
    | (_, .error _) => []
    | (_, .ok irView) => [irView]
  | _ => []

def accepted (writer : Writer) : WriterOp ε → List UInt8
  | .writeTo w => writer.buf.accepted w
  | .closeTo w => writer.close.buf.accepted w
  | _ => []

def exec (clp : IrWriteApi) (writer : Writer) : WriterOp ε → Writer × WriterResult ε
  | .write event =>
    let (writer, n, err) := writer.write clp event
    (writer, .wrote n err)
  | .writeTo w =>
    let (writer, n, err) := writer.writeTo w
    (writer, .drained n err)
  | .close => (writer.close, .done)
  | .closeTo w =>
    let (writer, n, err) := writer.closeTo w
    (writer, .drained n err)
  | .reset => (writer.reset, .done)

end WriterOp

-- `accepted` and `views` record what the sinks took and what the successful writes serialized.
def WriterRun.of (clp : IrWriteApi) (writer : Writer) : List (WriterOp ε) → WriterRun ε
  | [] => ⟨writer, [], [], []⟩
  | op :: ops =>
    let (next, result) := op.exec clp writer
    let run := WriterRun.of clp next ops
    ⟨run.writer, op.accepted writer ++ run.accepted, op.views clp writer ++ run.views,
      result :: run.results⟩

end ClpFfiGo
