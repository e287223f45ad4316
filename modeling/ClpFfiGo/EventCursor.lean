import ClpFfiGo.Termination
import ClpFfiGo.SampleCodec

namespace ClpFfiGo

variable {σ ε : Type} {clp : IrReadApi} {json : JsonApi ε} {io : IoReader σ ε}

namespace EventCursor

def firstFrom (p : LogEventView → Bool) : ℕ → List LogEventView → Option (LogEventView × ℕ)
  | _, [] => none
  | i, e :: es => if p e then some (e, i) else firstFrom p (i + 1) es

def read (events : List LogEventView) (i : ℕ) : ℕ × OpResult ε :=
  match events[i]? with
  | some e => (i + 1, .ok (e, none))
  | none => (i, .error (.ir .endOfIr))

def readToFunc (f : LogEventView → Bool) (events : List LogEventView) (i : ℕ) : ℕ × OpResult ε :=
  match firstFrom f i (events.drop i) with
  | some (e, j) => (j + 1, .ok (e, none))
  | none => (events.length, .error (.ir .endOfIr))

def stops (query : GoString → Option ℕ) (iv : TimestampInterval) (e : LogEventView) : Bool :=
  iv.upper ≤ e.timestamp ∨ (iv.lower ≤ e.timestamp ∧ (query e.logMessageView).isSome)

def search (query : GoString → Option ℕ) (iv : TimestampInterval) (events : List LogEventView)
    (i : ℕ) : ℕ × OpResult ε :=
  match firstFrom (stops query iv) i (events.drop i) with
  | none => (i, .error (.ir .endOfIr))
  | some (e, j) =>
    if iv.upper ≤ e.timestamp then (i, .error (.ir .queryNotFound))
    else (j + 1, .ok (e, query e.logMessageView))

def exec (clp : IrReadApi) (events : List LogEventView) (i : ℕ) : ReaderOp → ℕ × OpResult ε
  | .read => read events i
  | .readToFunc f => readToFunc f events i
  | .readToEpochTime time => readToFunc (fun e => e.timestamp ≥ time) events i
  | .readToContains s => readToFunc (fun e => decide (s <:+: e.logMessageView)) events i
  | .readToPrefix s => readToFunc (fun e => s.isPrefixOf e.logMessageView) events i
  | .readToSuffix s => readToFunc (fun e => s.isSuffixOf e.logMessageView) events i
  | .readToWildcardMatch qs => search (matchingQuery clp qs) ⟨0, Int64.maxValue⟩ events i
  | .readToWildcardMatchWithTimeInterval qs iv => search (matchingQuery clp qs) iv events i

def run (clp : IrReadApi) (events : List LogEventView) : ℕ → List ReaderOp → List (OpResult ε)
  | _, [] => []
  | i, op :: ops =>
    (exec clp events i op).2 :: run clp events (exec (ε := ε) clp events i op).1 ops

end EventCursor

def view (i : GoString × EpochTimeMs) : LogEventView := ⟨i.1, i.2⟩

section simulation

variable {d : Deserializer} {events : List LogEventView} {i : ℕ} {rd : Reader σ}

end simulation

end ClpFfiGo
