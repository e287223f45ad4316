import ClpFfiGo.Clp

namespace ClpFfiGo

namespace Native

structure Serializer where
  logtype : GoString
  irBuf : BufView
  deriving DecidableEq

variable (clp : IrWriteApi)

def newSerializerWithPreamble (enc : Encoding) (tsPattern tsPatternSyntax timeZoneId : GoString)
    (referenceTs : EpochTimeMs) : Serializer × Except ℕ BufView :=
  let (success, irBuf) := match enc with
    | .eightByte => clp.eightByteSerializePreamble tsPattern tsPatternSyntax timeZoneId []
    | .fourByte => clp.fourByteSerializePreamble tsPattern tsPatternSyntax timeZoneId referenceTs []
  (⟨[], irBuf⟩, if success then .ok irBuf else .error IRErrorCode.corruptedIr.toInt)

def serializeLogEvent (enc : Encoding) (logMessage : GoString) (timestampOrDelta : EpochTimeMs)
    (irSerializer : Option Serializer) : Option Serializer × Except ℕ BufView :=
  match irSerializer with
  | none => (none, .error IRErrorCode.corruptedIr.toInt)
  | some serializer =>
    let (success, logtype, irBuf) :=
      clp.serializeLogEvent enc timestampOrDelta logMessage serializer.logtype []
    (some ⟨logtype, irBuf⟩,
      if success then .ok irBuf else .error IRErrorCode.corruptedIr.toInt)

variable {clp}

theorem newSerializerWithPreamble_eightByte {a b c : GoString} {ts : EpochTimeMs}
    {serializer : Serializer} {irView : BufView}
    (h : newSerializerWithPreamble clp .eightByte a b c ts = (serializer, .ok irView)) :
    clp.eightByteSerializePreamble a b c [] = (true, irView) := by
  unfold newSerializerWithPreamble at h
  generalize clp.eightByteSerializePreamble a b c [] = r at h ⊢
  obtain ⟨_ | _, p⟩ := r <;> cases h
  rfl

theorem newSerializerWithPreamble_fourByte {a b c : GoString} {ts : EpochTimeMs}
    {serializer : Serializer} {irView : BufView}
    (h : newSerializerWithPreamble clp .fourByte a b c ts = (serializer, .ok irView)) :
    clp.fourByteSerializePreamble a b c ts [] = (true, irView) := by
  rw [newSerializerWithPreamble] at h
  generalize clp.fourByteSerializePreamble a b c ts [] = r at h ⊢
  obtain ⟨_ | _, p⟩ := r <;> cases h
  rfl

theorem serializeLogEvent_ok {enc : Encoding} {logMessage : GoString} {ts : EpochTimeMs}
    {irSerializer next : Option Serializer} {irView : BufView}
    (h : serializeLogEvent clp enc logMessage ts irSerializer = (next, .ok irView)) :
    ∃ logtype logtype',
      clp.serializeLogEvent enc ts logMessage logtype [] = (true, logtype', irView) := by
  cases irSerializer with
  | none => cases h
  | some serializer =>
    refine ⟨serializer.logtype, ?_⟩
    change (match clp.serializeLogEvent enc ts logMessage serializer.logtype [] with
      | (success, logtype, irBuf) => (some (Serializer.mk logtype irBuf),
        if success then Except.ok irBuf else Except.error IRErrorCode.corruptedIr.toInt)) = _ at h
    generalize clp.serializeLogEvent enc ts logMessage serializer.logtype [] = r at h ⊢
    obtain ⟨_ | _, logtype, p⟩ := r <;> cases h
    exact ⟨_, rfl⟩

end Native

structure CommonSerializer where
  tsInfo : TimestampInfo
  cptr : Option Native.Serializer
  deriving DecidableEq

inductive Serializer where
  | eightByte (common : CommonSerializer)
  | fourByte (common : CommonSerializer) (prevTimestamp : EpochTimeMs)
  deriving DecidableEq

namespace Serializer

def encoding : Serializer → Encoding
  | .eightByte _ => .eightByte
  | .fourByte _ _ => .fourByte

def common : Serializer → CommonSerializer
  | .eightByte c => c
  | .fourByte c _ => c

def cptr (s : Serializer) : Option Native.Serializer := s.common.cptr

def timestampInfo (s : Serializer) : TimestampInfo := s.common.tsInfo

def close : Serializer → Serializer
  | .eightByte c => .eightByte { c with cptr := none }
  | .fourByte c prev => .fourByte { c with cptr := none } prev

@[simp] theorem cptr_close (s : Serializer) : s.close.cptr = none := by cases s <;> rfl

end Serializer

variable {ε : Type} (clp : IrWriteApi)

def eightByteSerializer (tsPattern tsPatternSyntax timeZoneId : GoString) :
    Except (GoError ε) (Serializer × BufView) :=
  match Native.newSerializerWithPreamble clp .eightByte tsPattern tsPatternSyntax timeZoneId 0 with
  | (_, .error err) => .error (.ir ⟨err⟩)
  | (cptr, .ok irView) =>
    .ok (.eightByte ⟨⟨tsPattern, tsPatternSyntax, timeZoneId⟩, some cptr⟩, irView)

def fourByteSerializer (tsPattern tsPatternSyntax timeZoneId : GoString)
    (referenceTs : EpochTimeMs) : Except (GoError ε) (Serializer × BufView) :=
  match Native.newSerializerWithPreamble clp .fourByte tsPattern tsPatternSyntax timeZoneId
      referenceTs with
  | (_, .error err) => .error (.ir ⟨err⟩)
  | (cptr, .ok irView) =>
    .ok (.fourByte ⟨⟨tsPattern, tsPatternSyntax, timeZoneId⟩, some cptr⟩ referenceTs, irView)

variable {clp} in
theorem eightByteSerializer_ok {a b c : GoString} {serializer : Serializer} {irView : BufView}
    (h : eightByteSerializer (ε := ε) clp a b c = .ok (serializer, irView)) :
    ∃ cptr, serializer = .eightByte ⟨⟨a, b, c⟩, some cptr⟩ ∧
      clp.eightByteSerializePreamble a b c [] = (true, irView) := by
  unfold eightByteSerializer at h
  rcases hn : Native.newSerializerWithPreamble clp .eightByte a b c 0 with ⟨cptr, err | view⟩
  · rw [hn] at h
    cases h
  · rw [hn] at h
    cases h
    exact ⟨cptr, rfl, Native.newSerializerWithPreamble_eightByte hn⟩

variable {clp} in
theorem fourByteSerializer_ok {a b c : GoString} {ts : EpochTimeMs} {serializer : Serializer}
    {irView : BufView}
    (h : fourByteSerializer (ε := ε) clp a b c ts = .ok (serializer, irView)) :
    ∃ cptr, serializer = .fourByte ⟨⟨a, b, c⟩, some cptr⟩ ts ∧
      clp.fourByteSerializePreamble a b c ts [] = (true, irView) := by
  unfold fourByteSerializer at h
  rcases hn : Native.newSerializerWithPreamble clp .fourByte a b c ts with ⟨cptr, err | view⟩
  · rw [hn] at h
    cases h
  · rw [hn] at h
    cases h
    exact ⟨cptr, rfl, Native.newSerializerWithPreamble_fourByte hn⟩

def serializeLogEvent (serializer : Serializer) (event : LogEvent) :
    Serializer × Except (GoError ε) BufView :=
  match serializer with
  | .eightByte c =>
    match Native.serializeLogEvent clp .eightByte event.logMessage event.timestamp c.cptr with
    | (cptr, .error err) => (.eightByte { c with cptr }, .error (.ir ⟨err⟩))
    | (cptr, .ok irView) => (.eightByte { c with cptr }, .ok irView)
  | .fourByte c prev =>
    match Native.serializeLogEvent clp .fourByte event.logMessage (event.timestamp - prev)
        c.cptr with
    | (cptr, .error err) => (.fourByte { c with cptr } prev, .error (.ir ⟨err⟩))
    | (cptr, .ok irView) => (.fourByte { c with cptr } event.timestamp, .ok irView)

theorem serializeLogEvent_closed {serializer : Serializer} (h : serializer.cptr = none)
    (event : LogEvent) : serializeLogEvent (ε := ε) clp serializer event =
      (serializer, .error (.ir .corruptedIr)) := by
  cases serializer with
  | eightByte c =>
    obtain ⟨tsInfo, cptr⟩ := c
    simp only [Serializer.cptr, Serializer.common] at h
    subst h
    rfl
  | fourByte c prev =>
    obtain ⟨tsInfo, cptr⟩ := c
    simp only [Serializer.cptr, Serializer.common] at h
    subst h
    rfl

end ClpFfiGo
