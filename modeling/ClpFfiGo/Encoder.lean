import ClpFfiGo.Clp
import ClpFfiGo.Foundation.Slice

namespace ClpFfiGo

instance (enc : Encoding) : DecidableEq enc.Var :=
  match enc with
  | .eightByte => inferInstanceAs (DecidableEq Int64)
  | .fourByte => inferInstanceAs (DecidableEq Int32)

namespace Native

structure LogMessage (enc : Encoding) where
  logtype : GoString
  vars : List enc.Var
  dictVars : List UInt8
  dictVarEndOffsets : List Int32
  deriving DecidableEq

structure Encoder (enc : Encoding) where
  logMessage : LogMessage enc
  deriving DecidableEq

def newEncoder (enc : Encoding) : Encoder enc := ⟨⟨[], [], [], []⟩⟩

-- `none` is undefined behaviour: a missing end offset, a range outside its container or an
-- `int32_t` overflow.
def packDictVars (logMsgView : GoString) :
    List Int32 → (prevEndOff : Int) → (dictVars : List UInt8) → (endOffsets : List Int32) →
      Option (List UInt8 × List Int32)
  | [], _, dictVars, endOffsets => some (dictVars, endOffsets)
  | [_], _, _, _ => none
  | beginPos :: endPos :: rest, prevEndOff, dictVars, endOffsets =>
    let next := prevEndOff + (endPos.toInt - beginPos.toInt)
    if 0 ≤ beginPos.toInt ∧ beginPos.toInt ≤ endPos.toInt ∧
        endPos.toInt ≤ logMsgView.length ∧ 0 ≤ prevEndOff ∧ prevEndOff ≤ dictVars.length ∧
        next < 2 ^ 31 then
      packDictVars logMsgView rest next
        (dictVars.take prevEndOff.toNat ++
          Slice.between logMsgView beginPos.toInt.toNat endPos.toInt.toNat ++
          dictVars.drop prevEndOff.toNat)
        (endOffsets ++ [Int32.ofInt next])
    else none

def encodeLogMessage (clp : MessageApi) (enc : Encoding) (logMessage : GoString)
    (irEncoder : Option (Encoder enc)) :
    Option (Option (Encoder enc) × Except ℕ (LogMessage enc)) :=
  match irEncoder with
  | none => some (none, .error IRErrorCode.corruptedIr.toInt)
  | some ⟨irLogMsg⟩ =>
    let (success, logtype, vars, dictVarOffsets) :=
      clp.encodeMessage enc logMessage irLogMsg.logtype irLogMsg.vars []
    if success = false then
      some (some ⟨{ irLogMsg with logtype, vars }⟩, .error IRErrorCode.corruptedIr.toInt)
    else match packDictVars logMessage dictVarOffsets 0 irLogMsg.dictVars
        irLogMsg.dictVarEndOffsets with
      | none => none
      | some (dictVars, dictVarEndOffsets) =>
        some (some ⟨⟨logtype, vars, dictVars, dictVarEndOffsets⟩⟩,
          .ok ⟨logtype, vars, dictVars, dictVarEndOffsets⟩)

end Native

structure LogMessage (enc : Encoding) where
  logtype : GoString
  vars : List enc.Var
  dictVars : GoString
  dictVarEndOffsets : List Int32
  deriving DecidableEq

structure LogMessageView (enc : Encoding) extends LogMessage enc

-- The third assignment goes to the log type, as in the source.
def newLogMessageView {enc : Encoding} (logtype : GoString) (vars : List enc.Var)
    (dictVars : GoString) (dictVarEndOffsets : List Int32) : LogMessageView enc :=
  let msgView : LogMessageView enc := ⟨⟨logtype, [], [], []⟩⟩
  let msgView := if 0 < vars.length then { msgView with vars } else msgView
  let msgView := if 0 < dictVars.length then { msgView with logtype := dictVars } else msgView
  if 0 < dictVarEndOffsets.length then { msgView with dictVarEndOffsets } else msgView

structure Encoder (enc : Encoding) where
  cptr : Option (Native.Encoder enc)

namespace Encoder

variable {enc : Encoding}

def close (_ : Encoder enc) : Encoder enc := ⟨none⟩

def encodeLogMessage (clp : MessageApi) (encoder : Encoder enc) (logMessage : GoString) :
    Option (Encoder enc × Except IrError (LogMessageView enc)) :=
  match Native.encodeLogMessage clp enc logMessage encoder.cptr with
  | none => none
  | some (cptr, .error _) => some (⟨cptr⟩, .error .encodeError)
  | some (cptr, .ok msg) => some (⟨cptr⟩,
      .ok (newLogMessageView msg.logtype msg.vars msg.dictVars msg.dictVarEndOffsets))

end Encoder

def eightByteEncoder : Encoder .eightByte := ⟨some (Native.newEncoder .eightByte)⟩

def fourByteEncoder : Encoder .fourByte := ⟨some (Native.newEncoder .fourByte)⟩

def newEncoder (enc : Encoding) : Encoder enc :=
  match enc with
  | .eightByte => eightByteEncoder
  | .fourByte => fourByteEncoder

end ClpFfiGo
