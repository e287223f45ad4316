import ClpFfiGo.Encoder

namespace ClpFfiGo

namespace Native

structure Decoder where
  logMessage : GoString
  deriving DecidableEq

def newDecoder : Decoder := ⟨[]⟩

def decodeLogMessage (clp : MessageApi) (enc : Encoding) (logtype : GoString)
    (vars : List enc.Var) (dictVars : GoString) (dictVarEndOffsets : List Int32)
    (irDecoder : Option Decoder) : Option Decoder × Except ℕ GoString :=
  match irDecoder with
  | none => (none, .error IRErrorCode.corruptedIr.toInt)
  | some decoder =>
    match clp.decodeMessage enc logtype vars dictVars dictVarEndOffsets with
    | none => (some decoder, .error IRErrorCode.decodeError.toInt)
    | some logMsg => (some ⟨logMsg⟩, .ok logMsg)

end Native

structure Decoder (enc : Encoding) where
  cptr : Option Native.Decoder

namespace Decoder

variable {enc : Encoding}

def close (_ : Decoder enc) : Decoder enc := ⟨none⟩

def decodeLogMessage (clp : MessageApi) (decoder : Decoder enc) (irMessage : LogMessage enc) :
    Decoder enc × Except IrError GoString :=
  match Native.decodeLogMessage clp enc irMessage.logtype irMessage.vars irMessage.dictVars
      irMessage.dictVarEndOffsets decoder.cptr with
  | (cptr, .error _) => (⟨cptr⟩, .error .decodeError)
  | (cptr, .ok view) => (⟨cptr⟩, .ok view)

end Decoder

def eightByteDecoder : Decoder .eightByte := ⟨some Native.newDecoder⟩

def fourByteDecoder : Decoder .fourByte := ⟨some Native.newDecoder⟩

end ClpFfiGo
