import ClpFfiGo.Writer
import ClpFfiGo.SampleCodec

namespace ClpFfiGo

variable {ε : Type} {clp : IrWriteApi}

section steps

theorem write_cases (clp : IrWriteApi) (writer : Writer) (event : LogEvent) :
    (∃ serializer err, serializeLogEvent (ε := ε) clp writer.serializer event =
        (serializer, .error err) ∧
      writer.write clp event = ({ writer with serializer }, 0, some err)) ∨
    ∃ serializer irView, serializeLogEvent (ε := ε) clp writer.serializer event =
        (serializer, .ok irView) ∧
      writer.write (ε := ε) clp event =
        (⟨serializer, ⟨writer.buf.bytes ++ irView⟩⟩, irView.length, none) := by
  rw [Writer.write]
  rcases serializeLogEvent (ε := ε) clp writer.serializer event with ⟨serializer, err | irView⟩
  · exact .inl ⟨serializer, err, rfl, rfl⟩
  · exact .inr ⟨serializer, irView, rfl, rfl⟩

theorem writeTo_eq (writer : Writer) (w : Sink ε) :
    writer.writeTo w = ({ writer with buf := (writer.buf.writeTo w).1 },
      (writer.buf.writeTo w).2) := by
  have hd := ByteBuffer.writeTo_drained (b := writer.buf) (w := w)
  rw [Writer.writeTo]
  rcases hw : writer.buf.writeTo w with ⟨buf, n, _ | err⟩
  · rw [hw] at hd
    have hb : buf = ⟨[]⟩ := congrArg ByteBuffer.mk (hd rfl)
    rw [hb]
    rfl
  · rfl

theorem step_conserves (clp : IrWriteApi) (writer : Writer) (op : WriterOp ε)
    (h : op.resets = false) :
    op.accepted writer ++ (op.exec clp writer).1.bytes =
      writer.bytes ++ (op.views clp writer).flatten ++ if op.closes then [0] else [] := by
  cases op with
  | write event =>
    rcases write_cases (ε := ε) clp writer event with
      ⟨serializer, err, hs, hw⟩ | ⟨serializer, irView, hs, hw⟩
    · simp [WriterOp.accepted, WriterOp.exec, WriterOp.views, WriterOp.closes, hs, hw,
        Writer.bytes]
    · simp [WriterOp.accepted, WriterOp.exec, WriterOp.views, WriterOp.closes, hs, hw,
        Writer.bytes]
  | writeTo w =>
    have hc := ByteBuffer.writeTo_conserves writer.buf w
    simpa [WriterOp.accepted, WriterOp.exec, WriterOp.views, WriterOp.closes, writeTo_eq,
      Writer.bytes] using hc
  | close =>
    simp [WriterOp.accepted, WriterOp.exec, WriterOp.views, WriterOp.closes, Writer.close,
      Writer.bytes, ByteBuffer.writeByte]
  | closeTo w =>
    have hc := ByteBuffer.writeTo_conserves writer.close.buf w
    simpa [WriterOp.accepted, WriterOp.exec, WriterOp.views, WriterOp.closes, writeTo_eq,
      Writer.bytes, Writer.closeTo, Writer.close, ByteBuffer.writeByte] using hc
  | reset => cases h

theorem closed_step (clp : IrWriteApi) {writer : Writer} (h : writer.serializer.cptr = none)
    (op : WriterOp ε) :
    op.views clp writer = [] ∧ (op.exec clp writer).1.serializer.cptr = none := by
  cases op with
  | write event =>
    have hs := serializeLogEvent_closed (ε := ε) clp h event
    simp [WriterOp.views, WriterOp.exec, Writer.write, hs, h]
  | writeTo w => simp [WriterOp.views, WriterOp.exec, writeTo_eq, h]
  | close => simp [WriterOp.views, WriterOp.exec, Writer.close]
  | closeTo w => simp [WriterOp.views, WriterOp.exec, Writer.closeTo, writeTo_eq, Writer.close]
  | reset => simp [WriterOp.views, WriterOp.exec, Writer.reset, h]

theorem closes_step (clp : IrWriteApi) (writer : Writer) {op : WriterOp ε} (h : op.closes = true) :
    op.views clp writer = [] ∧ (op.exec clp writer).1.serializer.cptr = none := by
  cases op with
  | close => simp [WriterOp.views, WriterOp.exec, Writer.close]
  | closeTo w => simp [WriterOp.views, WriterOp.exec, Writer.closeTo, writeTo_eq, Writer.close]
  | write event => cases h
  | writeTo w => cases h
  | reset => cases h

end steps

section runs

theorem closed_run (clp : IrWriteApi) {writer : Writer} (h : writer.serializer.cptr = none)
    (ops : List (WriterOp ε)) :
    (WriterRun.of clp writer ops).views = [] ∧
      (WriterRun.of clp writer ops).writer.serializer.cptr = none := by
  induction ops generalizing writer with
  | nil => exact ⟨rfl, h⟩
  | cons op ops ih =>
    obtain ⟨hv, hc⟩ := closed_step clp h op
    obtain ⟨hvs, hcs⟩ := ih hc
    refine ⟨?_, hcs⟩
    simp only [WriterRun.of, hv, hvs, List.nil_append]

theorem closing_run (clp : IrWriteApi) (writer : Writer) {ops : List (WriterOp ε)}
    (h : ops.any WriterOp.closes = true) :
    (WriterRun.of clp writer ops).writer.serializer.cptr = none := by
  induction ops generalizing writer with
  | nil => cases h
  | cons op ops ih =>
    rw [List.any_cons, Bool.or_eq_true] at h
    rcases h with h | h
    · exact (closed_run clp (closes_step clp writer h).2 ops).2
    · exact ih _ h

theorem run_stream (clp : IrWriteApi) (writer : Writer) (ops : List (WriterOp ε))
    (hr : ∀ op ∈ ops, op.resets = false) :
    (WriterRun.of clp writer ops).accepted ++ (WriterRun.of clp writer ops).writer.bytes =
      writer.bytes ++ (WriterRun.of clp writer ops).views.flatten ++
        List.replicate (ops.countP WriterOp.closes) 0 := by
  induction ops generalizing writer with
  | nil => simp [WriterRun.of]
  | cons op ops ih =>
    have hstep := step_conserves clp writer op (hr op (by simp))
    have hrest : ∀ op ∈ ops, op.resets = false := fun o ho => hr o (by simp [ho])
    have next := ih (op.exec clp writer).1 hrest
    simp only [WriterRun.of, List.append_assoc, List.flatten_append, List.countP_cons]
    rw [next, ← List.append_assoc, ← List.append_assoc, hstep]
    by_cases hop : op.closes = true
    · have hv := (closed_run clp (closes_step clp writer hop).2 ops).1
      simp [hop, hv, List.replicate_succ]
    · simp [hop]

theorem run_conserves (clp : IrWriteApi) (writer : Writer) (ops : List (WriterOp ε))
    (hr : ∀ op ∈ ops, op.resets = false) (hc : ops.countP WriterOp.closes ≤ 1) :
    (WriterRun.of clp writer ops).accepted ++ (WriterRun.of clp writer ops).writer.bytes =
      writer.bytes ++ (WriterRun.of clp writer ops).views.flatten ++
        if ops.any WriterOp.closes then [0] else [] := by
  rw [run_stream clp writer ops hr]
  congr 1
  cases hany : ops.any WriterOp.closes with
  | false =>
    have hzero : ops.countP WriterOp.closes = 0 :=
      List.countP_eq_zero.mpr (List.any_eq_false.mp hany)
    rw [hzero]
    rfl
  | true =>
    have hpos : 0 < ops.countP WriterOp.closes :=
      List.countP_pos_iff.mpr (List.any_eq_true.mp hany)
    have hone : ops.countP WriterOp.closes = 1 := by omega
    rw [hone]
    rfl

end runs

def serializePreamble (clp : IrWriteApi) (enc : Encoding) (timeZoneId : GoString)
    (now : EpochTimeMs) : Bool × BufView :=
  match enc with
  | .eightByte => clp.eightByteSerializePreamble [] [] timeZoneId []
  | .fourByte => clp.fourByteSerializePreamble [] [] timeZoneId now []

theorem newWriterSize_ok {enc : Encoding} {size : ℕ} {timeZoneId : GoString} {now : EpochTimeMs}
    {writer : Writer} (h : newWriterSize (ε := ε) clp enc size timeZoneId now = .ok writer) :
    serializePreamble clp enc timeZoneId now = (true, writer.bytes) := by
  cases enc with
  | eightByte =>
    obtain ⟨_, _, hw⟩ := newWriterSize_eightByte h
    exact hw
  | fourByte =>
    obtain ⟨_, _, hw⟩ := newWriterSize_fourByte h
    exact hw

def timestampOrDelta (enc : Encoding) (prev timestamp : EpochTimeMs) : EpochTimeMs :=
  match enc with
  | .eightByte => timestamp
  | .fourByte => timestamp - prev

-- The successful writes of a run and their bytes, as the core serializes them: `prev` is the
-- timestamp of the last success and `logtype` what the last call left in the core's argument.
def serializedWrites (clp : IrWriteApi) (enc : Encoding) :
    EpochTimeMs → GoString → List (WriterOp ε) → List (LogEvent × BufView)
  | _, _, [] => []
  | prev, logtype, .write event :: ops =>
    match clp.serializeLogEvent enc (timestampOrDelta enc prev event.timestamp)
        event.logMessage logtype [] with
    | (true, logtype, irView) =>
      (event, irView) :: serializedWrites clp enc event.timestamp logtype ops
    | (false, logtype, _) => serializedWrites clp enc prev logtype ops
  | prev, logtype, op :: ops => if op.closes then [] else serializedWrites clp enc prev logtype ops

-- A write that returned no error, with the count it returned.
def WriterOp.succeeded : WriterOp ε × WriterResult ε → Option (LogEvent × ℕ)
  | (.write event, .wrote n none) => some (event, n)
  | _ => none

def WriterRun.succeeded (ops : List (WriterOp ε)) (run : WriterRun ε) : List (LogEvent × ℕ) :=
  (ops.zip run.results).filterMap WriterOp.succeeded

def Serializer.Keeps (enc : Encoding) (prev : EpochTimeMs) (logtype : GoString) :
    Serializer → Prop
  | .eightByte c => enc = .eightByte ∧ c.cptr.map Native.Serializer.logtype = some logtype
  | .fourByte c prevTimestamp => enc = .fourByte ∧
      c.cptr.map Native.Serializer.logtype = some logtype ∧ prevTimestamp = prev

section serialized

variable {enc : Encoding} {prev : EpochTimeMs} {logtype : GoString} {serializer : Serializer}

theorem serialize_keeps (clp : IrWriteApi) (h : serializer.Keeps enc prev logtype)
    (event : LogEvent) {success : Bool} {logtype' : GoString} {irView : BufView}
    (hcore : clp.serializeLogEvent enc (timestampOrDelta enc prev event.timestamp)
      event.logMessage logtype [] = (success, logtype', irView)) :
    ∃ serializer', serializeLogEvent (ε := ε) clp serializer event =
        (serializer', if success then .ok irView else .error (.ir .corruptedIr)) ∧
      serializer'.Keeps enc (if success then event.timestamp else prev) logtype' := by
  cases serializer with
  | eightByte c =>
    obtain ⟨rfl, hc⟩ := h
    obtain ⟨native, hnative, rfl⟩ := Option.map_eq_some_iff.mp hc
    rw [timestampOrDelta] at hcore
    simp only [serializeLogEvent, hnative, Native.serializeLogEvent, hcore]
    cases success <;> exact ⟨_, rfl, rfl, rfl⟩
  | fourByte c prevTimestamp =>
    obtain ⟨rfl, hc, rfl⟩ := h
    obtain ⟨native, hnative, rfl⟩ := Option.map_eq_some_iff.mp hc
    rw [timestampOrDelta] at hcore
    simp only [serializeLogEvent, hnative, Native.serializeLogEvent, hcore]
    cases success <;> exact ⟨_, rfl, rfl, rfl, rfl⟩

theorem write_step (clp : IrWriteApi) {writer : Writer}
    (h : writer.serializer.Keeps enc prev logtype) (event : LogEvent) {success : Bool}
    {logtype' : GoString} {irView : BufView}
    (hcore : clp.serializeLogEvent enc (timestampOrDelta enc prev event.timestamp)
      event.logMessage logtype [] = (success, logtype', irView)) :
    WriterOp.views (ε := ε) clp writer (.write event) = (if success then [irView] else []) ∧
      WriterOp.succeeded (ε := ε) (.write event, (WriterOp.exec clp writer (.write event)).2) =
        (if success then some (event, irView.length) else none) ∧
      (WriterOp.exec (ε := ε) clp writer (.write event)).1.serializer.Keeps enc
        (if success then event.timestamp else prev) logtype' := by
  obtain ⟨serializer', hs, hkeeps⟩ := serialize_keeps (ε := ε) clp h event hcore
  simp only [WriterOp.views, WriterOp.exec, Writer.write, hs]
  cases success <;> exact ⟨rfl, rfl, hkeeps⟩

theorem succeeded_cons (clp : IrWriteApi) (writer : Writer) (op : WriterOp ε)
    (ops : List (WriterOp ε)) : (WriterRun.of clp writer (op :: ops)).succeeded (op :: ops) =
      (WriterOp.succeeded (op, (op.exec clp writer).2)).toList ++
        (WriterRun.of clp (op.exec clp writer).1 ops).succeeded ops := by
  rw [WriterRun.succeeded, WriterRun.of, List.zip_cons_cons, List.filterMap_cons]
  cases WriterOp.succeeded (op, (op.exec clp writer).2) <;> rfl

theorem closed_succeeded (clp : IrWriteApi) {writer : Writer}
    (h : writer.serializer.cptr = none) (ops : List (WriterOp ε)) :
    (WriterRun.of clp writer ops).succeeded ops = [] := by
  induction ops generalizing writer with
  | nil => rfl
  | cons op ops ih =>
    rw [succeeded_cons, ih (closed_step clp h op).2, List.append_nil]
    cases op with
    | write event =>
      have hs := serializeLogEvent_closed (ε := ε) clp h event
      simp [WriterOp.exec, Writer.write, hs, WriterOp.succeeded]
    | writeTo w => rfl
    | close => rfl
    | closeTo w => rfl
    | reset => rfl

theorem quiet_step (clp : IrWriteApi) (writer : Writer) {op : WriterOp ε}
    (hop : ∀ event, op ≠ .write event) : op.views clp writer = [] ∧
      WriterOp.succeeded (op, (op.exec clp writer).2) = none ∧
      (op.closes = false → (op.exec clp writer).1.serializer = writer.serializer) := by
  cases op with
  | write event => exact absurd rfl (hop event)
  | writeTo w => exact ⟨rfl, rfl, fun _ => by rw [WriterOp.exec, writeTo_eq]⟩
  | close => exact ⟨rfl, rfl, fun h => by cases h⟩
  | closeTo w => exact ⟨rfl, rfl, fun h => by cases h⟩
  | reset => exact ⟨rfl, rfl, fun _ => rfl⟩

theorem run_cons (clp : IrWriteApi) {writer : Writer} {op : WriterOp ε} {ops : List (WriterOp ε)}
    {vs vs' : List BufView} {first : Option (LogEvent × ℕ)} {rest : List (LogEvent × ℕ)}
    (hv : op.views clp writer = vs)
    (hfirst : WriterOp.succeeded (op, (op.exec clp writer).2) = first)
    (hrun : (WriterRun.of clp (op.exec clp writer).1 ops).views = vs' ∧
      (WriterRun.of clp (op.exec clp writer).1 ops).succeeded ops = rest) :
    (WriterRun.of clp writer (op :: ops)).views = vs ++ vs' ∧
      (WriterRun.of clp writer (op :: ops)).succeeded (op :: ops) = first.toList ++ rest := by
  obtain ⟨hvs, hrest⟩ := hrun
  constructor
  · simp only [WriterRun.of, hv, hvs]
  · rw [succeeded_cons, hfirst, hrest]

theorem run_serialized (clp : IrWriteApi) {writer : Writer}
    (h : writer.serializer.Keeps enc prev logtype) (ops : List (WriterOp ε)) :
    (WriterRun.of clp writer ops).views =
        (serializedWrites clp enc prev logtype ops).map Prod.snd ∧
      (WriterRun.of clp writer ops).succeeded ops =
        (serializedWrites clp enc prev logtype ops).map (fun w => (w.1, w.2.length)) := by
  fun_induction serializedWrites clp enc prev logtype ops generalizing writer with
  | case1 => exact ⟨rfl, rfl⟩
  | case2 prev logtype event ops logtype' irView hcore ih =>
    obtain ⟨hv, hr, hkeeps⟩ := write_step (ε := ε) clp h event hcore
    exact run_cons clp hv hr (ih hkeeps)
  | case3 prev logtype event ops logtype' irView hcore ih =>
    obtain ⟨hv, hr, hkeeps⟩ := write_step (ε := ε) clp h event hcore
    exact run_cons clp hv hr (ih hkeeps)
  | case4 prev logtype op ops hop hcloses =>
    obtain ⟨hv, hr, _⟩ := quiet_step clp writer hop
    have hclosed := (closes_step clp writer hcloses).2
    exact run_cons clp hv hr ⟨(closed_run clp hclosed ops).1, closed_succeeded clp hclosed ops⟩
  | case5 prev logtype op ops hop hcloses ih =>
    obtain ⟨hv, hr, hs⟩ := quiet_step clp writer hop
    have hkeeps : (op.exec clp writer).1.serializer.Keeps enc prev logtype := by
      rwa [hs (by simpa using hcloses)]
    exact run_cons clp hv hr (ih hkeeps)

theorem eightByteSerializer_keeps {a b c : GoString} {irView : BufView}
    (h : eightByteSerializer (ε := ε) clp a b c = .ok (serializer, irView)) :
    serializer.Keeps .eightByte prev [] := by
  rw [eightByteSerializer] at h
  split at h
  · cases h
  · rename_i hn
    cases h
    have hlogtype := congrArg (fun r => r.1.logtype) hn
    exact ⟨rfl, congrArg some hlogtype.symm⟩

theorem fourByteSerializer_keeps {a b c : GoString} {ts : EpochTimeMs} {irView : BufView}
    (h : fourByteSerializer (ε := ε) clp a b c ts = .ok (serializer, irView)) :
    serializer.Keeps .fourByte ts [] := by
  rw [fourByteSerializer] at h
  split at h
  · cases h
  · rename_i hn
    cases h
    have hlogtype := congrArg (fun r => r.1.logtype) hn
    exact ⟨rfl, congrArg some hlogtype.symm, rfl⟩

end serialized

theorem newWriterSize_keeps {enc : Encoding} {size : ℕ} {timeZoneId : GoString}
    {now : EpochTimeMs} {writer : Writer}
    (h : newWriterSize (ε := ε) clp enc size timeZoneId now = .ok writer) :
    writer.serializer.Keeps enc now [] := by
  cases enc with
  | eightByte =>
    simp only [newWriterSize] at h
    split at h
    · cases h
    · rename_i hs
      cases h
      exact eightByteSerializer_keeps hs
  | fourByte =>
    simp only [newWriterSize] at h
    split at h
    · cases h
    · rename_i hs
      cases h
      exact fourByteSerializer_keeps hs

theorem writer_conserves_stream {enc : Encoding} {size : ℕ} {timeZoneId : GoString}
    {now : EpochTimeMs} {writer : Writer}
    (hnew : newWriterSize (ε := ε) clp enc size timeZoneId now = .ok writer)
    {ops : List (WriterOp ε)} (hreset : ∀ op ∈ ops, op.resets = false)
    (hclose : ops.countP WriterOp.closes ≤ 1) :
    ∃ preamble, serializePreamble clp enc timeZoneId now = (true, preamble) ∧
      (WriterRun.of clp writer ops).accepted ++ (WriterRun.of clp writer ops).writer.bytes =
        preamble ++ ((serializedWrites clp enc now [] ops).map Prod.snd).flatten ++
          (if ops.any WriterOp.closes then [0] else []) ∧
      (WriterRun.of clp writer ops).succeeded ops =
        (serializedWrites clp enc now [] ops).map (fun w => (w.1, w.2.length)) ∧
      (ops.any WriterOp.closes = true → ∀ event, ∃ err,
        (WriterRun.of clp writer ops).writer.write (ε := ε) clp event =
          ((WriterRun.of clp writer ops).writer, 0, some err)) := by
  obtain ⟨hviews, hsucceeded⟩ := run_serialized clp (newWriterSize_keeps hnew) ops
  have hbytes := run_conserves clp writer ops hreset hclose
  rw [hviews] at hbytes
  refine ⟨writer.bytes, newWriterSize_ok hnew, hbytes, hsucceeded, ?_⟩
  intro hany event
  have hclosed := closing_run clp writer hany
  refine ⟨.ir .corruptedIr, ?_⟩
  rw [Writer.write, serializeLogEvent_closed clp hclosed]

open SampleCodec in
theorem sample_writer : ∃ writer,
    newWriterSize (ε := Unit) writeApi .fourByte 16 (ascii "UTC") 1000 = .ok writer := by
  have hopen : (newWriterSize (ε := Unit) writeApi .fourByte 16 (ascii "UTC") 1000).isOk := by
    decide +kernel
  cases hnew : newWriterSize (ε := Unit) writeApi .fourByte 16 (ascii "UTC") 1000 with
  | error err => simp [hnew, Except.isOk, Except.toBool] at hopen
  | ok writer => exact ⟨writer, rfl⟩

def SampleCodec.interrupted : List (WriterOp Unit) :=
  [.write ⟨ascii "hello", 1005⟩, .writeTo (.failAfter 3 ()), .write ⟨ascii "late", 9000⟩,
    .write ⟨ascii "bye", 1007⟩, .close]

-- The write of "late" fails: its delta does not fit the sample core's eight bits.
open SampleCodec in
theorem failing_sink_conserves_stream : ∃ writer,
    newWriterSize (ε := Unit) writeApi .fourByte 16 (ascii "UTC") 1000 = .ok writer ∧
    (WriterRun.of writeApi writer interrupted).accepted ++
      (WriterRun.of writeApi writer interrupted).writer.bytes =
      preamble .fourByte (text .fourByte (ascii "UTC") 1000) ++
        (event .fourByte (ascii "hello") 5 ++ event .fourByte (ascii "bye") 2) ++ [0] ∧
    (WriterRun.of writeApi writer interrupted).succeeded interrupted =
      [(⟨ascii "hello", 1005⟩, 9), (⟨ascii "bye", 1007⟩, 7)] := by
  obtain ⟨writer, hnew⟩ := sample_writer
  have hreset : ∀ op ∈ interrupted, op.resets = false := by simp [interrupted, WriterOp.resets]
  have hclose : interrupted.countP WriterOp.closes = 1 := rfl
  have hwrites : serializedWrites writeApi .fourByte 1000 [] interrupted =
      [(⟨ascii "hello", 1005⟩, event .fourByte (ascii "hello") 5),
        (⟨ascii "bye", 1007⟩, event .fourByte (ascii "bye") 2)] := by decide +kernel
  have hpreamble : serializePreamble writeApi .fourByte (ascii "UTC") 1000 =
      (true, preamble .fourByte (text .fourByte (ascii "UTC") 1000)) := by decide +kernel
  obtain ⟨_, hpre, hbytes, hsucceeded, _⟩ := writer_conserves_stream hnew hreset hclose.le
  cases hpre.symm.trans hpreamble
  rw [hwrites] at hbytes hsucceeded
  exact ⟨writer, hnew, hbytes.trans (by simp [interrupted, WriterOp.closes]),
    hsucceeded.trans (by decide +kernel)⟩

end ClpFfiGo
