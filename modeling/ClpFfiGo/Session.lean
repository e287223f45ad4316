import ClpFfiGo.Foundation.HandleTable
import ClpFfiGo.NativeObjects
import ClpFfiGo.Writer
import ClpFfiGo.Decoder

namespace ClpFfiGo.Heaped

variable {σ ε : Type}

structure Apis (σ ε : Type) where
  read : IrReadApi
  write : IrWriteApi
  message : MessageApi
  json : JsonApi ε
  io : IoReader σ ε
  cleanUpWildcardSearchString : GoString → GoString

-- The Go objects that hold a `cptr`; a Reader and a Writer hold the one of what they embed.
inductive Object (σ : Type) where
  | deserializer (deserializer : Deserializer)
  | serializer (serializer : Serializer)
  | reader (reader : Reader σ)
  | writer (writer : Writer)
  | encoder (enc : Encoding) (encoder : Encoder enc)
  | decoder (enc : Encoding) (decoder : Decoder enc)

namespace Object

def isOpen : Object σ → Bool
  | .deserializer d => d.cptr.isSome
  | .serializer s => s.cptr.isSome
  | .reader rd => rd.deserializer.cptr.isSome
  | .writer w => w.serializer.cptr.isSome
  | .encoder _ e => e.cptr.isSome
  | .decoder _ d => d.cptr.isSome

def close : Object σ → Object σ
  | .deserializer d => .deserializer d.close
  | .serializer s => .serializer s.close
  | .reader rd => .reader rd.close
  | .writer w => .writer w.close
  | .encoder enc e => .encoder enc e.close
  | .decoder enc d => .decoder enc d.close

end Object

inductive Method (ε : Type) where
  | deserializeLogEvent (irBuf : List UInt8)
  | deserializeWildcardMatchWithTimeInterval (irBuf : List UInt8)
      (mergedQuery : MergedWildcardQuery) (timeInterval : TimestampInterval)
  | serializeLogEvent (event : LogEvent)
  | read (op : ReaderOp) (fuel : ℕ)
  | write (op : WriterOp ε)
  | encodeLogMessage (logMessage : GoString)
  | decodeLogMessage (irMessage : (enc : Encoding) → LogMessage enc)
  | close

namespace Method

-- `none`: undefined behaviour of the encoder's packing loop, or a read that does not return. A
-- Reader and a Writer have the methods of what they embed; a method that the object's type does
-- not have changes nothing.
def exec (apis : Apis σ ε) : Method ε → Object σ → Option (Object σ)
  | .deserializeLogEvent irBuf, .deserializer d =>
    some (.deserializer (ClpFfiGo.deserializeLogEvent (ε := ε) apis.read d irBuf).1)
  | .deserializeLogEvent irBuf, .reader rd =>
    some (.reader { rd with
      deserializer := (ClpFfiGo.deserializeLogEvent (ε := ε) apis.read rd.deserializer irBuf).1 })
  | .deserializeWildcardMatchWithTimeInterval irBuf mergedQuery timeInterval, .deserializer d =>
    some (.deserializer
      (deserializeWildcardMatch (ε := ε) apis.read mergedQuery timeInterval d irBuf).1)
  | .deserializeWildcardMatchWithTimeInterval irBuf mergedQuery timeInterval, .reader rd =>
    some (.reader { rd with
      deserializer := (deserializeWildcardMatch (ε := ε) apis.read mergedQuery timeInterval
        rd.deserializer irBuf).1 })
  | .serializeLogEvent event, .serializer s =>
    some (.serializer (ClpFfiGo.serializeLogEvent (ε := ε) apis.write s event).1)
  | .serializeLogEvent event, .writer w =>
    some (.writer { w with
      serializer := (ClpFfiGo.serializeLogEvent (ε := ε) apis.write w.serializer event).1 })
  | .read op fuel, .reader rd =>
    (op.exec apis.read apis.io fuel rd).map (fun r => .reader r.1)
  | .write op, .writer w => some (.writer (op.exec apis.write w).1)
  | .encodeLogMessage logMessage, .encoder enc e =>
    (e.encodeLogMessage apis.message logMessage).map (fun r => .encoder enc r.1)
  | .decodeLogMessage irMessage, .decoder enc d =>
    some (.decoder enc (d.decodeLogMessage apis.message (irMessage enc)).1)
  | .close, object => some object.close
  | _, object => some object

def closes : Method ε → Object σ → Bool
  | .close, _ => true
  | .write op, .writer _ => op.closes
  | _, _ => false

end Method

def newWriterSize (clp : IrWriteApi) (heap : Heap) (enc : Encoding) (size : ℕ)
    (timeZoneId : GoString) (now : EpochTimeMs) : Heap × Except (GoError ε) (Owned Writer) :=
  let (heap, created) := match enc with
    | .eightByte => eightByteSerializer clp heap [] [] timeZoneId
    | .fourByte => fourByteSerializer clp heap [] [] timeZoneId now
  match created with
  | .error err => (heap, .error err)
  | .ok ⟨(serializer, irView), handle⟩ =>
    (heap, .ok ⟨⟨serializer, ((ByteBuffer.mk []).grow size |>.write irView).1⟩, handle⟩)

def newEncoder (heap : Heap) (enc : Encoding) : Heap × Owned (Encoder enc) :=
  (heap.alloc, ⟨ClpFfiGo.newEncoder enc, heap.next⟩)

def newDecoder (heap : Heap) (enc : Encoding) : Heap × Owned (Decoder enc) :=
  (heap.alloc, ⟨⟨some Native.newDecoder⟩, heap.next⟩)

-- The cleaned string lives until the deferred delete, after Go has cloned it.
def newWildcardQuery (apis : Apis σ ε) (heap : Heap) (query : GoString) (caseSensitive : Bool) :
    Heap × WildcardQuery :=
  let cptr := heap.next
  let heap := heap.alloc
  let cleanQuery := apis.cleanUpWildcardSearchString query
  (heap.free cptr, ⟨cleanQuery, caseSensitive⟩)

inductive Constructor (σ : Type) where
  | deserializePreamble (irBuf : List UInt8)
  | newReaderSize (r : σ) (size : ℕ) (fuel : ℕ)
  | eightByteSerializer (tsPattern tsPatternSyntax timeZoneId : GoString)
  | fourByteSerializer (tsPattern tsPatternSyntax timeZoneId : GoString)
      (referenceTs : EpochTimeMs)
  | newWriterSize (enc : Encoding) (size : ℕ) (timeZoneId : GoString) (now : EpochTimeMs)
  | newEncoder (enc : Encoding)
  | newDecoder (enc : Encoding)

abbrev Constructed (σ ε : Type) := Heap × Except (GoError ε) (Owned (Object σ))

def Owned.as {α β : Type} (f : α → β) (owned : Owned α) : Owned β := ⟨f owned.object, owned.handle⟩

def Constructor.exec (apis : Apis σ ε) (heap : Heap) : Constructor σ → Option (Constructed σ ε)
  | .deserializePreamble irBuf =>
    some ((Heaped.deserializePreamble apis.read apis.json heap irBuf).map id
      (Except.map (Owned.as fun r => .deserializer r.1)))
  | .newReaderSize r size fuel =>
    (Heaped.newReaderSize apis.read apis.json apis.io heap r size fuel).map
      (Prod.map id (Except.map (Owned.as .reader)))
  | .eightByteSerializer tsPattern tsPatternSyntax timeZoneId =>
    some ((Heaped.eightByteSerializer apis.write heap tsPattern tsPatternSyntax timeZoneId).map id
      (Except.map (Owned.as fun r => .serializer r.1)))
  | .fourByteSerializer tsPattern tsPatternSyntax timeZoneId referenceTs =>
    some ((Heaped.fourByteSerializer apis.write heap tsPattern tsPatternSyntax timeZoneId
      referenceTs).map id (Except.map (Owned.as fun r => .serializer r.1)))
  | .newWriterSize enc size timeZoneId now =>
    some ((Heaped.newWriterSize apis.write heap enc size timeZoneId now).map id
      (Except.map (Owned.as .writer)))
  | .newEncoder enc =>
    some ((Heaped.newEncoder heap enc).map id (fun owned => .ok (owned.as (.encoder enc))))
  | .newDecoder enc =>
    some ((Heaped.newDecoder heap enc).map id (fun owned => .ok (owned.as (.decoder enc))))

inductive SessionOp (σ ε : Type) where
  | construct (c : Constructor σ)
  | call (i : ℕ) (method : Method ε)
  | newWildcardQuery (query : GoString) (caseSensitive : Bool)

inductive Fault where
  | memory
  | undefined
  deriving DecidableEq

abbrev Session (σ : Type) := HandleTable (Object σ)

namespace Session

def step (apis : Apis σ ε) (session : Session σ) : SessionOp σ ε → Except Fault (Session σ)
  | .construct c => match c.exec apis session.heap with
    | none => .error .undefined
    | some (heap, .ok ⟨object, handle⟩) =>
      .ok { session with heap, objects := session.objects ++ [(object, handle)] }
    | some (heap, .error _) =>
      .ok { session with heap, leaked := session.leaked ∪ (heap.live \ session.heap.live) }
  | .call i method => match session.objects[i]? with
    | none => .ok session
    | some (object, _) => match method.exec apis object with
      | none => .error .undefined
      | some object' =>
        match session.call Object.isOpen i object' (method.closes object) with
        | none => .error .memory
        | some session => .ok session
  | .newWildcardQuery query caseSensitive =>
    .ok { session with heap := (newWildcardQuery apis session.heap query caseSensitive).1 }

def run (apis : Apis σ ε) : Session σ → List (SessionOp σ ε) → Except Fault (Session σ)
  | session, [] => .ok session
  | session, op :: ops => match session.step apis op with
    | .error fault => .error fault
    | .ok session => run apis session ops

def closeAll (session : Session σ) : List (SessionOp σ ε) :=
  (List.range session.objects.length).map (fun i => .call i .close)

end Session

-- No call of the constructor that fails keeps what it allocated.
def SessionOp.Clean (apis : Apis σ ε) : SessionOp σ ε → Prop
  | .construct c => ∀ heap built, c.exec apis heap = some built → Heaped.Clean heap built
  | _ => True

end ClpFfiGo.Heaped
