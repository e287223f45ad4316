import ClpFfiGo.Session
import ClpFfiGo.WriterStream

namespace ClpFfiGo.Heaped

variable {σ ε : Type}

section methods

variable {apis : Apis σ ε}

theorem deserializeLogEvent_open (clp : IrReadApi) (d : Deserializer) (irBuf : List UInt8) :
    (ClpFfiGo.deserializeLogEvent (ε := ε) clp d irBuf).1.cptr.isSome = d.cptr.isSome := by
  rw [ClpFfiGo.deserializeLogEvent]
  split
  · rfl
  · cases hc : d.cptr with
    | none => simp [Native.deserializeLogEvent]
    | some n =>
      simp only [Native.deserializeLogEvent]
      cases Native.nextLogEvent clp d.encoding ⟨irBuf, 0⟩ with
      | error err => simp
      | ok r => simp [clp.tryGetPos_eq]

theorem deserializeWildcardMatch_open (clp : IrReadApi) (mergedQuery : MergedWildcardQuery)
    (timeInterval : TimestampInterval) (d : Deserializer) (irBuf : List UInt8) :
    (deserializeWildcardMatch (ε := ε) clp mergedQuery timeInterval d irBuf).1.cptr.isSome =
      d.cptr.isSome := by
  rw [deserializeWildcardMatch]
  split
  · rfl
  · cases hc : d.cptr with
    | none => simp [Native.deserializeWildcardMatch]
    | some n =>
      simp only [Native.deserializeWildcardMatch]
      cases Native.splitQueries (newMergedWildcardQueryView mergedQuery).queries 0
          (newMergedWildcardQueryView mergedQuery).endOffsets
          (newMergedWildcardQueryView mergedQuery).caseSensitivity with
      | none => simp [hc]
      | some queries =>
        dsimp only
        rcases Native.searchLoop clp d.encoding irBuf timeInterval (Native.queryFn clp queries)
          (irBuf.length + 1) 0 n with ⟨n', err | r⟩
        · simp
        · simp

theorem native_serializeLogEvent_open (clp : IrWriteApi) (enc : Encoding) (msg : GoString)
    (ts : EpochTimeMs) (cptr : Option Native.Serializer) :
    (Native.serializeLogEvent clp enc msg ts cptr).1.isSome = cptr.isSome := by
  cases cptr with
  | none => rfl
  | some serializer => rfl

theorem serializeLogEvent_open (clp : IrWriteApi) (s : Serializer) (event : LogEvent) :
    (ClpFfiGo.serializeLogEvent (ε := ε) clp s event).1.cptr.isSome = s.cptr.isSome := by
  cases s with
  | eightByte c =>
    have hopen := native_serializeLogEvent_open clp .eightByte event.logMessage event.timestamp
      c.cptr
    rw [ClpFfiGo.serializeLogEvent]
    split <;> rename_i hs <;> rw [hs] at hopen <;> exact hopen
  | fourByte c prev =>
    have hopen := native_serializeLogEvent_open clp .fourByte event.logMessage
      (event.timestamp - prev) c.cptr
    rw [ClpFfiGo.serializeLogEvent]
    split <;> rename_i hs <;> rw [hs] at hopen <;> exact hopen

theorem turn_open {β : Type} {io : IoReader σ ε} {call : Reader.Call ε β}
    (hcall : ∀ d b, (call d b).1.cptr.isSome = d.cptr.isSome) (rd : Reader σ) :
    (∀ rd', Reader.turn io call rd = .inl rd' →
      rd'.deserializer.cptr.isSome = rd.deserializer.cptr.isSome) ∧
    ∀ rd' res, Reader.turn io call rd = .inr (rd', res) →
      rd'.deserializer.cptr.isSome = rd.deserializer.cptr.isSome := by
  rw [Reader.turn]
  cases Slice.slice? rd.buf rd.start rd.stop with
  | none =>
    refine ⟨fun rd' h => (by cases h), fun rd' res h => ?_⟩
    cases h
    rfl
  | some irBuf =>
    have hd := hcall rd.deserializer irBuf
    dsimp only
    rcases hc : call rd.deserializer irBuf with ⟨d, err | ⟨event, pos⟩⟩ <;> rw [hc] at hd
    · dsimp only
      split
      · rcases rd.toReadBuf.fillBuf io with ⟨readBuf, n, _ | ioErr⟩
        · refine ⟨fun rd' h => ?_, fun rd' res h => (by cases h)⟩
          cases h
          exact hd
        · refine ⟨fun rd' h => (by cases h), fun rd' res h => ?_⟩
          cases h
          exact hd
      · refine ⟨fun rd' h => (by cases h), fun rd' res h => ?_⟩
        cases h
        exact hd
    · refine ⟨fun rd' h => (by cases h), fun rd' res h => ?_⟩
      cases h
      exact hd

theorem reader_open (clp : IrReadApi) (io : IoReader σ ε) (op : ReaderOp) {fuel : ℕ}
    {rd rd' : Reader σ} {res : OpResult ε} (h : op.exec clp io fuel rd = some (rd', res)) :
    rd'.deserializer.cptr.isSome = rd.deserializer.cptr.isSome := by
  have hkeeps : ∀ {β : Type} (call : Reader.Call ε β),
      (∀ d b, (call d b).1.cptr.isSome = d.cptr.isSome) →
      Loop.Keeps (fun r : Reader σ => r.deserializer.cptr.isSome = rd.deserializer.cptr.isSome)
        (fun _ => True) (Loop.run (Reader.turn io call)) := by
    intro β call hcall
    apply Loop.keeps_run
    · intro s t hs ht
      exact ((turn_open hcall s).1 t ht).trans hs
    · intro s s' r hs ht
      exact ⟨((turn_open hcall s).2 s' r ht).trans hs, fun _ _ => trivial⟩
  have hread := hkeeps (deserializeLogEvent clp) (deserializeLogEvent_open clp)
  exact (exec_keeps hread op (fun _ queries iv =>
    hkeeps _ (deserializeWildcardMatch_open clp _ iv)) fuel rd rd' res rfl h).1

theorem write_open (clp : IrWriteApi) (writer : Writer) (op : WriterOp ε) :
    (op.exec clp writer).1.serializer.cptr.isSome =
      (writer.serializer.cptr.isSome && !op.closes) := by
  cases op with
  | write event =>
    have hs := serializeLogEvent_open (ε := ε) clp writer.serializer event
    rcases write_cases (ε := ε) clp writer event with
      ⟨serializer, err, hr, hw⟩ | ⟨serializer, irView, hr, hw⟩
    · rw [hr] at hs
      simpa [WriterOp.exec, hw, WriterOp.closes] using hs
    · rw [hr] at hs
      simpa [WriterOp.exec, hw, WriterOp.closes] using hs
  | writeTo w => simp [WriterOp.exec, writeTo_eq, WriterOp.closes]
  | close => simp [WriterOp.exec, Writer.close, WriterOp.closes]
  | closeTo w => simp [WriterOp.exec, Writer.closeTo, writeTo_eq, Writer.close, WriterOp.closes]
  | reset => simp [WriterOp.exec, Writer.reset, WriterOp.closes]

theorem native_encodeLogMessage_open {clp : MessageApi} {enc : Encoding} {msg : GoString}
    {cptr cptr' : Option (Native.Encoder enc)} {res : Except ℕ (Native.LogMessage enc)}
    (h : Native.encodeLogMessage clp enc msg cptr = some (cptr', res)) :
    cptr'.isSome = cptr.isSome := by
  cases cptr with
  | none => cases h; rfl
  | some encoder =>
    simp only [Native.encodeLogMessage] at h
    split at h
    · cases h
      rfl
    · split at h
      · cases h
      · cases h
        rfl

theorem encodeLogMessage_open {clp : MessageApi} {enc : Encoding} {e e' : Encoder enc}
    {msg : GoString} {res : Except IrError (LogMessageView enc)}
    (h : e.encodeLogMessage clp msg = some (e', res)) : e'.cptr.isSome = e.cptr.isSome := by
  rw [Encoder.encodeLogMessage] at h
  split at h
  · cases h
  · rename_i hn
    cases h
    exact native_encodeLogMessage_open hn
  · rename_i hn
    cases h
    exact native_encodeLogMessage_open hn

theorem decodeLogMessage_open (clp : MessageApi) {enc : Encoding} (d : Decoder enc)
    (irMessage : LogMessage enc) : (d.decodeLogMessage clp irMessage).1.cptr.isSome =
      d.cptr.isSome := by
  rw [Decoder.decodeLogMessage]
  cases hc : d.cptr with
  | none => rfl
  | some decoder =>
    simp only [Native.decodeLogMessage]
    cases clp.decodeMessage enc irMessage.logtype irMessage.vars irMessage.dictVars
      irMessage.dictVarEndOffsets <;> rfl

theorem Object.close_open (object : Object σ) : object.close.isOpen = false := by
  cases object with
  | deserializer d => simp [Object.close, Object.isOpen, Deserializer.close]
  | serializer s => simp [Object.close, Object.isOpen]
  | reader rd => simp [Object.close, Object.isOpen, Reader.close, Deserializer.close]
  | writer w => simp [Object.close, Object.isOpen, Writer.close]
  | encoder enc e => rfl
  | decoder enc d => rfl

theorem Method.exec_open {method : Method ε} {object object' : Object σ}
    (h : method.exec apis object = some object') :
    object'.isOpen = (object.isOpen && !method.closes object) := by
  have hsame : ∀ {o o' : Object σ}, o'.isOpen = o.isOpen → o'.isOpen = (o.isOpen && !false) :=
    fun h => by rw [h, Bool.not_false, Bool.and_true]
  cases method with
  | deserializeLogEvent irBuf =>
    cases object <;> cases h <;> first
      | exact hsame rfl
      | exact hsame (deserializeLogEvent_open _ _ _)
  | deserializeWildcardMatchWithTimeInterval irBuf mergedQuery timeInterval =>
    cases object <;> cases h <;> first
      | exact hsame rfl
      | exact hsame (deserializeWildcardMatch_open _ _ _ _ _)
  | serializeLogEvent event =>
    cases object <;> cases h <;> first
      | exact hsame rfl
      | exact hsame (serializeLogEvent_open _ _ _)
  | read op fuel =>
    cases object with
    | reader rd =>
      obtain ⟨⟨rd', res⟩, hr, rfl⟩ := Option.map_eq_some_iff.mp h
      exact hsame (reader_open _ _ op hr)
    | _ => cases h; exact hsame rfl
  | write op =>
    cases object with
    | writer w => cases h; exact write_open _ w op
    | _ => cases h; exact hsame rfl
  | encodeLogMessage logMessage =>
    cases object with
    | encoder enc e =>
      obtain ⟨⟨e', res⟩, he, rfl⟩ := Option.map_eq_some_iff.mp h
      exact hsame (encodeLogMessage_open he)
    | _ => cases h; exact hsame rfl
  | decodeLogMessage irMessage =>
    cases object <;> cases h <;> first
      | exact hsame rfl
      | exact hsame (decodeLogMessage_open _ _ _)
  | close =>
    have hclosed : object' = object.close := by cases object <;> cases h <;> rfl
    rw [hclosed, object.close_open, Method.closes, Bool.not_true, Bool.and_false]

end methods

section constructors

variable {apis : Apis σ ε} {heap : Heap}

-- A constructor allocates at most once, and what it returns owns that allocation.
def Built (heap : Heap) (built : Constructed σ ε) : Prop :=
  ∃ allocated, built.1 = heap.allocIf allocated ∧ ∀ owned, built.2 = .ok owned →
    allocated = true ∧ owned.handle = heap.next ∧ owned.object.isOpen = true

theorem built_owning {α : Type} {r : Except (GoError ε) α} {f : α → Object σ} {allocated : Bool}
    (hok : r.isOk = true → allocated = true) (hopen : ∀ a, r = .ok a → (f a).isOpen = true) :
    Built heap ((heap.allocIf allocated, owning heap r).map id (Except.map (Owned.as f))) := by
  refine ⟨allocated, rfl, ?_⟩
  cases r with
  | error err =>
    intro owned h
    cases h
  | ok a =>
    intro owned h
    cases h
    exact ⟨hok rfl, rfl, hopen a rfl⟩

theorem preamble_open {clp : IrReadApi} {json : JsonApi ε} {irBuf : List UInt8}
    {r : Deserializer × ℕ} (h : ClpFfiGo.deserializePreamble clp json irBuf = .ok r) :
    r.1.cptr.isSome = true := by
  obtain ⟨_, t, hd⟩ := deserializePreamble_ok h
  rw [hd, Deserializer.cptr_at]
  rfl

theorem newWriterSize_eq (clp : IrWriteApi) (heap : Heap) (enc : Encoding) (size : ℕ)
    (timeZoneId : GoString) (now : EpochTimeMs) :
    Heaped.newWriterSize (ε := ε) clp heap enc size timeZoneId now =
      (heap.allocIf true, owning heap (ClpFfiGo.newWriterSize clp enc size timeZoneId now)) := by
  cases enc with
  | eightByte =>
    simp only [Heaped.newWriterSize, ClpFfiGo.newWriterSize, eightByteSerializer_eq]
    cases ClpFfiGo.eightByteSerializer (ε := ε) clp [] [] timeZoneId <;> rfl
  | fourByte =>
    simp only [Heaped.newWriterSize, ClpFfiGo.newWriterSize, fourByteSerializer_eq]
    cases ClpFfiGo.fourByteSerializer (ε := ε) clp [] [] timeZoneId now <;> rfl

theorem newWriterSize_open {clp : IrWriteApi} {enc : Encoding} {size : ℕ} {timeZoneId : GoString}
    {now : EpochTimeMs} {writer : Writer}
    (h : ClpFfiGo.newWriterSize (ε := ε) clp enc size timeZoneId now = .ok writer) :
    writer.serializer.cptr.isSome = true := by
  cases enc with
  | eightByte =>
    simp only [ClpFfiGo.newWriterSize] at h
    split at h
    · cases h
    · rename_i hn
      obtain ⟨cptr, hs, _⟩ := eightByteSerializer_ok hn
      cases h
      rw [hs]
      rfl
  | fourByte =>
    simp only [ClpFfiGo.newWriterSize] at h
    split at h
    · cases h
    · rename_i hn
      obtain ⟨cptr, hs, _⟩ := fourByteSerializer_ok hn
      cases h
      rw [hs]
      rfl

theorem Constructor.built {c : Constructor σ} {built : Constructed σ ε}
    (h : c.exec apis heap = some built) : Built heap built := by
  cases c with
  | deserializePreamble irBuf =>
    cases h
    rw [deserializePreamble_eq]
    exact built_owning allocates_of_isOk (fun _ hr => preamble_open hr)
  | newReaderSize r size fuel =>
    obtain ⟨result, hr, rfl⟩ := Option.map_eq_some_iff.mp h
    rcases newReaderSize_outcome heap hr with ⟨err, rfl⟩ | ⟨rb, res, hrb, hstop, rfl⟩
    · exact ⟨false, rfl, fun owned ho => (by cases ho)⟩
    · refine built_owning (fun hok => ?_) (fun rd hrd => ?_)
      · exact allocates_of_isOk ((isOk_newReaderTurn_iff hrb hstop).mp hok)
      · subst hrd
        have hcases := construct_cases apis.read apis.json apis.io hrb.wf hrb.start
        rw [hstop] at hcases
        cases hcases with
        | returned ha => exact preamble_open ha
  | eightByteSerializer a b c =>
    cases h
    rw [eightByteSerializer_eq]
    refine built_owning (fun _ => rfl) (fun r hr => ?_)
    obtain ⟨cptr, hs, _⟩ := eightByteSerializer_ok hr
    rw [hs]
    rfl
  | fourByteSerializer a b c ts =>
    cases h
    rw [fourByteSerializer_eq]
    refine built_owning (fun _ => rfl) (fun r hr => ?_)
    obtain ⟨cptr, hs, _⟩ := fourByteSerializer_ok hr
    rw [hs]
    rfl
  | newWriterSize enc size timeZoneId now =>
    cases h
    rw [newWriterSize_eq]
    exact built_owning (fun _ => rfl) (fun _ hw => newWriterSize_open hw)
  | newEncoder enc =>
    cases h
    refine ⟨true, rfl, fun owned ho => ?_⟩
    cases ho
    cases enc <;> exact ⟨rfl, rfl, rfl⟩
  | newDecoder enc =>
    cases h
    refine ⟨true, rfl, fun owned ho => ?_⟩
    cases ho
    exact ⟨rfl, rfl, rfl⟩

end constructors

end ClpFfiGo.Heaped
