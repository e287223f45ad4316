import ClpFfiGo.WildcardQuery

namespace ClpFfiGo.Native

structure Deserializer where
  timestamp : EpochTimeMs
  deriving DecidableEq

structure NewDeserializer where
  pos : ℕ
  irEncoding : Encoding
  metadataType : Int8
  metadataPos : ℕ
  metadataSize : ℕ
  deserializer : Deserializer

variable (clp : IrReadApi)

-- The two C++ event functions open with this code: the tag, the test for `Eof`, the event.
def nextLogEvent (enc : Encoding) (irBuf : BufferReader) :
    Except IRErrorCode ((GoString × EpochTimeMs) × ℕ) :=
  match clp.deserializeTag irBuf with
  | .error err => .error err
  | .ok (tag, pos) =>
    if tag = clp.eof then .error .eof
    else clp.deserializeLogEvent enc ⟨irBuf.data, pos⟩ tag

def Deserializer.stamp (deserializer : Deserializer) (enc : Encoding) (value : EpochTimeMs) :
    EpochTimeMs :=
  match enc with
  | .eightByte => value
  | .fourByte => deserializer.timestamp + value

def newDeserializerWithPreamble (irView : List UInt8) : Except ℕ NewDeserializer :=
  match clp.getEncodingType ⟨irView, 0⟩ with
  | .error err => .error err.toInt
  | .ok (fourByteEncoding, encodingEnd) =>
    match clp.deserializePreamble ⟨irView, encodingEnd⟩ with
    | .error err => .error err.toInt
    | .ok (metadata, preambleEnd) =>
      match clp.tryGetPos ⟨irView, preambleEnd⟩ with
      | none => .error IRErrorCode.decodeError.toInt
      | some pos => .ok
        { pos := pos
          irEncoding := if fourByteEncoding then .fourByte else .eightByte
          metadataType := metadata.metadataType
          metadataPos := metadata.metadataPos
          metadataSize := metadata.metadataSize
          deserializer := ⟨0⟩ }

def deserializeLogEvent (enc : Encoding) (irView : List UInt8)
    (irDeserializer : Option Deserializer) :
    Option Deserializer × Except ℕ (ℕ × LogEventView) :=
  match irDeserializer with
  | none => (none, .error IRErrorCode.corruptedIr.toInt)
  | some deserializer =>
    match nextLogEvent clp enc ⟨irView, 0⟩ with
    | .error err => (some deserializer, .error err.toInt)
    | .ok ((message, value), eventEnd) =>
      let timestamp := deserializer.stamp enc value
      match clp.tryGetPos ⟨irView, eventEnd⟩ with
      | none => (some ⟨timestamp⟩, .error IRErrorCode.decodeError.toInt)
      | some pos => (some ⟨timestamp⟩, .ok (pos, ⟨message, timestamp⟩))

-- The `while (true)` of the search. The fuel is never used up: see `searchLoop_scan`.
def searchLoop (enc : Encoding) (irView : List UInt8) (timeInterval : TimestampInterval)
    (query : GoString → Option ℕ) :
    ℕ → ℕ → Deserializer → Deserializer × Except ℕ (ℕ × LogEventView × ℕ)
  | 0, _, deserializer => (deserializer, .error IRErrorCode.corruptedIr.toInt)
  | fuel + 1, pos, deserializer =>
    match nextLogEvent clp enc ⟨irView, pos⟩ with
    | .error err => (deserializer, .error err.toInt)
    | .ok ((message, value), eventEnd) =>
      let timestamp := deserializer.stamp enc value
      if timeInterval.upper ≤ timestamp then
        (⟨timestamp⟩, .error (IRErrorCode.incompleteIr.toInt + 1))
      else if timeInterval.lower > timestamp then
        searchLoop enc irView timeInterval query fuel eventEnd ⟨timestamp⟩
      else match query message with
        | none => searchLoop enc irView timeInterval query fuel eventEnd ⟨timestamp⟩
        | some matchingQuery =>
          match clp.tryGetPos ⟨irView, eventEnd⟩ with
          | none => (⟨timestamp⟩, .error IRErrorCode.decodeError.toInt)
          | some currIrPos => (⟨timestamp⟩, .ok (currIrPos, ⟨message, timestamp⟩, matchingQuery))

-- `none`: an exception leaves the C++ function.
def deserializeWildcardMatch (enc : Encoding) (irView : List UInt8)
    (irDeserializer : Option Deserializer) (timeInterval : TimestampInterval)
    (mergedQuery : MergedWildcardQueryView) :
    Option (Option Deserializer × Except ℕ (ℕ × LogEventView × ℕ)) :=
  match irDeserializer with
  | none => some (none, .error IRErrorCode.corruptedIr.toInt)
  | some deserializer =>
    match splitQueries mergedQuery.queries 0 mergedQuery.endOffsets
        mergedQuery.caseSensitivity with
    | none => none
    | some queries =>
      let (deserializer, result) := searchLoop clp enc irView timeInterval (queryFn clp queries)
        (irView.length + 1) 0 deserializer
      some (some deserializer, result)

end ClpFfiGo.Native
