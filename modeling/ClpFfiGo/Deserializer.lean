import ClpFfiGo.NativeDeserializer
import ClpFfiGo.Decimal
import ClpFfiGo.Foundation.Slice

namespace ClpFfiGo

def metadataReferenceTimestampKey : GoString := ascii "REFERENCE_TIMESTAMP"
def metadataTimestampPatternKey : GoString := ascii "TIMESTAMP_PATTERN"
def metadataTimestampPatternSyntaxKey : GoString := ascii "TIMESTAMP_PATTERN_SYNTAX"
def metadataTzIdKey : GoString := ascii "TZ_ID"

structure CommonDeserializer where
  tsInfo : TimestampInfo
  cptr : Option Native.Deserializer
  deriving DecidableEq

inductive Deserializer where
  | eightByte (common : CommonDeserializer)
  | fourByte (common : CommonDeserializer) (prevTimestamp : EpochTimeMs)
  deriving DecidableEq

namespace Deserializer

def encoding : Deserializer → Encoding
  | .eightByte _ => .eightByte
  | .fourByte _ _ => .fourByte

def common : Deserializer → CommonDeserializer
  | .eightByte c => c
  | .fourByte c _ => c

def cptr (d : Deserializer) : Option Native.Deserializer := d.common.cptr

def timestampInfo (d : Deserializer) : TimestampInfo := d.common.tsInfo

def setCptr (cptr : Option Native.Deserializer) : Deserializer → Deserializer
  | .eightByte c => .eightByte { c with cptr }
  | .fourByte c prev => .fourByte { c with cptr } prev

def close (d : Deserializer) : Deserializer := d.setCptr none

@[simp] theorem encoding_setCptr (d : Deserializer) (c : Option Native.Deserializer) :
    (d.setCptr c).encoding = d.encoding := by cases d <;> rfl

@[simp] theorem cptr_setCptr (d : Deserializer) (c : Option Native.Deserializer) :
    (d.setCptr c).cptr = c := by cases d <;> rfl

@[simp] theorem setCptr_setCptr (d : Deserializer) (b c : Option Native.Deserializer) :
    (d.setCptr b).setCptr c = d.setCptr c := by cases d <;> rfl

end Deserializer

def Metadata.field (metadata : Metadata) (key : GoString) : GoString :=
  match metadata key with
  | some (.str s) => s
  | _ => []

def Metadata.timestampInfo (metadata : Metadata) : TimestampInfo where
  pattern := metadata.field metadataTimestampPatternKey
  patternSyntax := metadata.field metadataTimestampPatternSyntaxKey
  timeZoneId := metadata.field metadataTzIdKey

def Metadata.refTs (metadata : Metadata) : EpochTimeMs :=
  match metadata metadataReferenceTimestampKey with
  | some (.str tsStr) => (parseInt tsStr).getD 0
  | _ => 0

def newDeserializer (irEncoding : Encoding) (metadata : Metadata) (native : Native.Deserializer) :
    Deserializer :=
  match irEncoding with
  | .fourByte =>
    .fourByte ⟨metadata.timestampInfo, some { native with timestamp := metadata.refTs }⟩
      metadata.refTs
  | .eightByte => .eightByte ⟨metadata.timestampInfo, some native⟩

variable {ε : Type} (clp : IrReadApi)

def deserializePreamble (json : JsonApi ε) (irBuf : List UInt8) :
    Except (GoError ε) (Deserializer × ℕ) :=
  if 0 ≥ irBuf.length then .error (.ir .incompleteIr)
  else match Native.newDeserializerWithPreamble clp irBuf with
    | .error err => .error (.ir ⟨err⟩)
    | .ok preamble =>
      if preamble.metadataType ≠ 1 then .error (.ir .unsupportedVersion)
      else match Slice.slice? irBuf preamble.metadataPos
          (preamble.metadataPos + preamble.metadataSize) with
        | none => .error .panic
        | some bytes => match json.unmarshal bytes with
          | .error err => .error (.json err)
          | .ok metadata =>
            .ok (newDeserializer preamble.irEncoding metadata preamble.deserializer, preamble.pos)

def deserializeLogEvent (deserializer : Deserializer) (irBuf : List UInt8) :
    Deserializer × Except (GoError ε) (LogEventView × ℕ) :=
  if 0 ≥ irBuf.length then (deserializer, .error (.ir .incompleteIr))
  else
    let (cptr, result) :=
      Native.deserializeLogEvent clp deserializer.encoding irBuf deserializer.cptr
    match result with
    | .error err => (deserializer.setCptr cptr, .error (.ir ⟨err⟩))
    | .ok (pos, event) => (deserializer.setCptr cptr, .ok (event, pos))

def deserializeWildcardMatch (mergedQuery : MergedWildcardQuery) (time : TimestampInterval)
    (deserializer : Deserializer) (irBuf : List UInt8) :
    Deserializer × Except (GoError ε) ((LogEventView × ℕ) × ℕ) :=
  if 0 ≥ irBuf.length then (deserializer, .error (.ir .incompleteIr))
  else match Native.deserializeWildcardMatch clp deserializer.encoding irBuf deserializer.cptr time
      (newMergedWildcardQueryView mergedQuery) with
    | none => (deserializer, .error .panic)
    | some (cptr, .error err) => (deserializer.setCptr cptr, .error (.ir ⟨err⟩))
    | some (cptr, .ok (pos, event, matchingQuery)) =>
      (deserializer.setCptr cptr, .ok ((event, matchingQuery), pos))

end ClpFfiGo
