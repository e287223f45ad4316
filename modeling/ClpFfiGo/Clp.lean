import ClpFfiGo.Types

namespace ClpFfiGo

structure BufferReader where
  data : List UInt8
  pos : ℕ

structure PreambleMetadata where
  metadataType : Int8
  metadataPos : ℕ
  metadataSize : ℕ

-- The decoding half of the CLP core: results carry the position the reader was left at.
structure IrReadApi where
  eof : UInt8
  getEncodingType : BufferReader → Except IRErrorCode (Bool × ℕ)
  deserializePreamble : BufferReader → Except IRErrorCode (PreambleMetadata × ℕ)
  deserializeTag : BufferReader → Except IRErrorCode (UInt8 × ℕ)
  deserializeLogEvent : Encoding → BufferReader → UInt8 →
    Except IRErrorCode ((GoString × EpochTimeMs) × ℕ)
  tryGetPos : BufferReader → Option ℕ
  wildcardMatchUnsafe : GoString → GoString → Bool → Bool
  preamble_bounds : ∀ {r m p}, deserializePreamble r = .ok (m, p) →
    m.metadataPos + m.metadataSize ≤ p ∧ p ≤ r.data.length
  tag_bounds : ∀ {r t p}, deserializeTag r = .ok (t, p) → r.pos < p ∧ p ≤ r.data.length
  tag_end : ∀ {r}, r.data.length ≤ r.pos → deserializeTag r = .error .incompleteIr
  event_bounds : ∀ {enc r t e p}, deserializeLogEvent enc r t = .ok (e, p) →
    r.pos ≤ p ∧ p ≤ r.data.length
  tryGetPos_eq : ∀ r, tryGetPos r = some r.pos

structure IrWriteApi where
  eightByteSerializePreamble : (tsPattern tsPatternSyntax timeZoneId : GoString) →
    (irBuf : BufView) → Bool × BufView
  fourByteSerializePreamble : (tsPattern tsPatternSyntax timeZoneId : GoString) →
    (referenceTs : EpochTimeMs) → (irBuf : BufView) → Bool × BufView
  serializeLogEvent : Encoding → (timestampOrDelta : EpochTimeMs) → (message logtype : GoString) →
    (irBuf : BufView) → Bool × GoString × BufView

structure MessageApi where
  encodeMessage : (enc : Encoding) → (message logtype : GoString) → (vars : List enc.Var) →
    (dictVarOffsets : List Int32) → Bool × GoString × List enc.Var × List Int32
  decodeMessage : (enc : Encoding) → (logtype : GoString) → (vars : List enc.Var) →
    (dictVars : GoString) → (dictVarEndOffsets : List Int32) → Option GoString

inductive JsonValue where
  | str (s : GoString)
  | other
  deriving DecidableEq

abbrev Metadata := GoString → Option JsonValue

structure JsonApi (ε : Type) where
  unmarshal : List UInt8 → Except ε Metadata

namespace IrReadApi

variable (clp : IrReadApi)

structure PositionIndependent : Prop where
  tag : ∀ pre b p, clp.deserializeTag ⟨pre ++ b, pre.length + p⟩ =
    (clp.deserializeTag ⟨b, p⟩).map (fun r => (r.1, pre.length + r.2))
  event : ∀ enc pre b p t, clp.deserializeLogEvent enc ⟨pre ++ b, pre.length + p⟩ t =
    (clp.deserializeLogEvent enc ⟨b, p⟩ t).map (fun r => (r.1, pre.length + r.2))

structure PrefixStable : Prop where
  encoding : ∀ b p x, clp.getEncodingType ⟨b, p⟩ ≠ .error .incompleteIr →
    clp.getEncodingType ⟨b ++ x, p⟩ = clp.getEncodingType ⟨b, p⟩
  preamble : ∀ b p x, clp.deserializePreamble ⟨b, p⟩ ≠ .error .incompleteIr →
    clp.deserializePreamble ⟨b ++ x, p⟩ = clp.deserializePreamble ⟨b, p⟩
  tag : ∀ b p x, clp.deserializeTag ⟨b, p⟩ ≠ .error .incompleteIr →
    clp.deserializeTag ⟨b ++ x, p⟩ = clp.deserializeTag ⟨b, p⟩
  event : ∀ enc b p x t, clp.deserializeLogEvent enc ⟨b, p⟩ t ≠ .error .incompleteIr →
    clp.deserializeLogEvent enc ⟨b ++ x, p⟩ t = clp.deserializeLogEvent enc ⟨b, p⟩ t

end IrReadApi

end ClpFfiGo
