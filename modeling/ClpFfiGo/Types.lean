import Mathlib.Algebra.Order.Ring.Nat

namespace ClpFfiGo

abbrev GoString := List UInt8
abbrev BufView := List UInt8
abbrev EpochTimeMs := Int64

def ascii (s : String) : GoString := s.toList.map (fun c => UInt8.ofNat c.toNat)

inductive Encoding where
  | eightByte
  | fourByte
  deriving DecidableEq, Repr

def Encoding.Var : Encoding → Type
  | .eightByte => Int64
  | .fourByte => Int32

structure LogEvent where
  logMessage : GoString
  timestamp : EpochTimeMs
  deriving DecidableEq

structure LogEventView where
  logMessageView : GoString
  timestamp : EpochTimeMs
  deriving DecidableEq

structure TimestampInfo where
  pattern : GoString
  patternSyntax : GoString
  timeZoneId : GoString
  deriving DecidableEq

structure TimestampInterval where
  lower : EpochTimeMs
  upper : EpochTimeMs

inductive IRErrorCode where
  | decodeError
  | eof
  | corruptedIr
  | incompleteIr
  deriving DecidableEq, Repr

def IRErrorCode.toInt : IRErrorCode → ℕ
  | .decodeError => 1
  | .eof => 2
  | .corruptedIr => 3
  | .incompleteIr => 4

structure IrError where
  code : ℕ
  deriving DecidableEq, Repr

namespace IrError

def success : IrError := ⟨0⟩
def decodeError : IrError := ⟨1⟩
def endOfIr : IrError := ⟨2⟩
def corruptedIr : IrError := ⟨3⟩
def incompleteIr : IrError := ⟨4⟩
def queryNotFound : IrError := ⟨5⟩
def encodeError : IrError := ⟨6⟩
def unsupportedVersion : IrError := ⟨7⟩

end IrError

theorem IRErrorCode.incomplete_iff (e : IRErrorCode) :
    IrError.mk e.toInt = .incompleteIr ↔ e = .incompleteIr := by
  cases e <;> decide

-- A run-time panic ends the call like an error does, so it has a constructor here.
inductive GoError (ε : Type) where
  | ir (err : IrError)
  | io (err : ε)
  | json (err : ε)
  | panic
  deriving DecidableEq

def GoError.isIncomplete {ε : Type} : GoError ε → Bool
  | .ir err => err = .incompleteIr
  | _ => false

end ClpFfiGo
