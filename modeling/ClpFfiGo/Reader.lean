import ClpFfiGo.Deserializer
import ClpFfiGo.Foundation.IoReader
import ClpFfiGo.Foundation.Loop

namespace ClpFfiGo

variable {σ ε β : Type}

-- The fields of `Reader` that `read` and `fillBuf` use; `stop` is the field `end`.
structure ReadBuf (σ : Type) where
  ioReader : σ
  buf : List UInt8
  start : ℕ
  stop : ℕ

structure Reader (σ : Type) extends ReadBuf σ where
  deserializer : Deserializer

namespace ReadBuf

def read (io : IoReader σ ε) (reader : ReadBuf σ) : ReadBuf σ × ℕ × Option (GoError ε) :=
  match Slice.slice? reader.buf reader.stop reader.buf.length with
  | none => (reader, 0, some .panic)
  | some p =>
    let r := io.read reader.ioReader p
    let reader := { reader with
      ioReader := r.next
      buf := reader.buf.take reader.stop ++ r.p
      stop := reader.stop + r.n }
    match r.err with
    | some (.other err) => (reader, r.n, some (.io err))
    | some .eof => (reader, r.n, none)
    | none => (reader, r.n, none)

def fillBuf (io : IoReader σ ε) (reader : ReadBuf σ) : ReadBuf σ × ℕ × Option (GoError ε) :=
  match Slice.slice? reader.buf reader.start reader.stop with
  | none => (reader, 0, some .panic)
  | some unread =>
    let buf := if reader.stop - reader.start > reader.buf.length / 2
      then Slice.copy (List.replicate (reader.buf.length * 2) 0) unread
      else Slice.copy reader.buf unread
    read io { reader with buf, start := 0, stop := reader.stop - reader.start }

end ReadBuf

def newReaderTurn (clp : IrReadApi) (json : JsonApi ε) (io : IoReader σ ε) (irr : ReadBuf σ) :
    ReadBuf σ ⊕ Except (GoError ε) (Reader σ) :=
  match Slice.slice? irr.buf irr.start irr.stop with
  | none => .inr (.error .panic)
  | some irBuf =>
    match deserializePreamble clp json irBuf with
    | .ok (deserializer, pos) => .inr (.ok ⟨{ irr with start := pos }, deserializer⟩)
    | .error err =>
      if err.isIncomplete then
        match ReadBuf.fillBuf io { irr with start := 0 } with
        | (irr, _, none) => .inl irr
        | (_, _, some err) => .inr (.error err)
      else .inr (.error err)

def newReaderSize (clp : IrReadApi) (json : JsonApi ε) (io : IoReader σ ε) (r : σ) (size : ℕ)
    (fuel : ℕ) : Option (Except (GoError ε) (Reader σ)) :=
  match ReadBuf.read io ⟨r, List.replicate size 0, 0, 0⟩ with
  | (irr, _, none) => Loop.run (newReaderTurn clp json io) fuel irr
  | (_, _, some err) => some (.error err)

def newReader (clp : IrReadApi) (json : JsonApi ε) (io : IoReader σ ε) (r : σ) (fuel : ℕ) :
    Option (Except (GoError ε) (Reader σ)) :=
  newReaderSize clp json io r (1024 * 1024) fuel

namespace Reader

-- One turn of the loop that `Read` and the wildcard reads share: `call` is the
-- deserializer method, and an incomplete item leads to a refill and another turn.
def turn (io : IoReader σ ε)
    (call : Deserializer → List UInt8 → Deserializer × Except (GoError ε) (β × ℕ))
    (reader : Reader σ) : Reader σ ⊕ (Reader σ × Except (GoError ε) β) :=
  match Slice.slice? reader.buf reader.start reader.stop with
  | none => .inr (reader, .error .panic)
  | some irBuf =>
    match call reader.deserializer irBuf with
    | (deserializer, .ok (event, pos)) =>
      .inr ({ reader with start := reader.start + pos, deserializer }, .ok event)
    | (deserializer, .error err) =>
      if err.isIncomplete then
        match reader.toReadBuf.fillBuf io with
        | (readBuf, _, none) => .inl ⟨readBuf, deserializer⟩
        | (readBuf, _, some err) => .inr (⟨readBuf, deserializer⟩, .error err)
      else .inr ({ reader with deserializer }, .error err)

def readTurn (clp : IrReadApi) (io : IoReader σ ε) :
    Reader σ → Reader σ ⊕ (Reader σ × Except (GoError ε) LogEventView) :=
  turn io (deserializeLogEvent clp)

def searchTurn (clp : IrReadApi) (io : IoReader σ ε) (queries : List WildcardQuery)
    (timeInterval : TimestampInterval) :
    Reader σ → Reader σ ⊕ (Reader σ × Except (GoError ε) (LogEventView × ℕ)) :=
  turn io (deserializeWildcardMatch clp (mergeWildcardQueries queries) timeInterval)

def read (clp : IrReadApi) (io : IoReader σ ε) (fuel : ℕ) (reader : Reader σ) :
    Option (Reader σ × Except (GoError ε) LogEventView) :=
  Loop.run (readTurn clp io) fuel reader

def readToWildcardMatchWithTimeInterval (clp : IrReadApi) (io : IoReader σ ε)
    (queries : List WildcardQuery) (timeInterval : TimestampInterval) (fuel : ℕ)
    (reader : Reader σ) : Option (Reader σ × Except (GoError ε) (LogEventView × ℕ)) :=
  Loop.run (searchTurn clp io queries timeInterval) fuel reader

def readToWildcardMatch (clp : IrReadApi) (io : IoReader σ ε) (queries : List WildcardQuery)
    (fuel : ℕ) (reader : Reader σ) :
    Option (Reader σ × Except (GoError ε) (LogEventView × ℕ)) :=
  readToWildcardMatchWithTimeInterval clp io queries ⟨0, Int64.maxValue⟩ fuel reader

def readToFunc (clp : IrReadApi) (io : IoReader σ ε) (f : LogEventView → Bool) :
    ℕ → Reader σ → Option (Reader σ × Except (GoError ε) LogEventView)
  | 0, _ => none
  | fuel + 1, reader => match read clp io (fuel + 1) reader with
    | none => none
    | some (reader, .error err) => some (reader, .error err)
    | some (reader, .ok event) =>
      if f event then some (reader, .ok event) else readToFunc clp io f fuel reader

def readToEpochTime (clp : IrReadApi) (io : IoReader σ ε) (time : EpochTimeMs) :
    ℕ → Reader σ → Option (Reader σ × Except (GoError ε) LogEventView) :=
  readToFunc clp io (fun event => event.timestamp ≥ time)

def readToContains (clp : IrReadApi) (io : IoReader σ ε) (substr : GoString) :
    ℕ → Reader σ → Option (Reader σ × Except (GoError ε) LogEventView) :=
  readToFunc clp io (fun event => decide (substr <:+: event.logMessageView))

def readToPrefix (clp : IrReadApi) (io : IoReader σ ε) (pre : GoString) :
    ℕ → Reader σ → Option (Reader σ × Except (GoError ε) LogEventView) :=
  readToFunc clp io (fun event => pre.isPrefixOf event.logMessageView)

def readToSuffix (clp : IrReadApi) (io : IoReader σ ε) (suffix : GoString) :
    ℕ → Reader σ → Option (Reader σ × Except (GoError ε) LogEventView) :=
  readToFunc clp io (fun event => suffix.isSuffixOf event.logMessageView)

def close (reader : Reader σ) : Reader σ :=
  { reader with deserializer := reader.deserializer.close }

end Reader

inductive ReaderOp where
  | read
  | readToFunc (f : LogEventView → Bool)
  | readToEpochTime (time : EpochTimeMs)
  | readToContains (substr : GoString)
  | readToPrefix (pre : GoString)
  | readToSuffix (suffix : GoString)
  | readToWildcardMatch (queries : List WildcardQuery)
  | readToWildcardMatchWithTimeInterval (queries : List WildcardQuery) (iv : TimestampInterval)

abbrev OpResult (ε : Type) := Except (GoError ε) (LogEventView × Option ℕ)

def plain : Except (GoError ε) LogEventView → OpResult ε := Except.map (fun event => (event, none))

def indexed : Except (GoError ε) (LogEventView × ℕ) → OpResult ε :=
  Except.map (fun r => (r.1, some r.2))

def ReaderOp.exec (clp : IrReadApi) (io : IoReader σ ε) (fuel : ℕ) (reader : Reader σ) :
    ReaderOp → Option (Reader σ × OpResult ε)
  | .read => (reader.read clp io fuel).map (Prod.map id plain)
  | .readToFunc f => (Reader.readToFunc clp io f fuel reader).map (Prod.map id plain)
  | .readToEpochTime time =>
    (Reader.readToEpochTime clp io time fuel reader).map (Prod.map id plain)
  | .readToContains s => (Reader.readToContains clp io s fuel reader).map (Prod.map id plain)
  | .readToPrefix s => (Reader.readToPrefix clp io s fuel reader).map (Prod.map id plain)
  | .readToSuffix s => (Reader.readToSuffix clp io s fuel reader).map (Prod.map id plain)
  | .readToWildcardMatch qs =>
    (reader.readToWildcardMatch clp io qs fuel).map (Prod.map id indexed)
  | .readToWildcardMatchWithTimeInterval qs iv =>
    (reader.readToWildcardMatchWithTimeInterval clp io qs iv fuel).map (Prod.map id indexed)

def execAll (clp : IrReadApi) (io : IoReader σ ε) (fuel : ℕ) :
    Reader σ → List ReaderOp → Option (Reader σ × List (OpResult ε))
  | reader, [] => some (reader, [])
  | reader, op :: ops => match op.exec clp io fuel reader with
    | none => none
    | some (reader, result) =>
      (execAll clp io fuel reader ops).map (Prod.map id (result :: ·))

end ClpFfiGo
