import ClpFfiGo.RetriedCalls
import ClpFfiGo.RoundTrip

namespace ClpFfiGo

variable {ε : Type} {clp : IrReadApi} {json : JsonApi ε}

open Seek

theorem noError_never {σ : Type} (io : IoReader σ ε) (e : ε) :
    ¬ io.Fails (io.Delivers IoReader.NoError) e :=
  fun h => h.allowed

section readers

variable {σ₁ σ₂ : Type} {io₁ : IoReader σ₁ ε} {io₂ : IoReader σ₂ ε} {d₁ d₂ : Deserializer}
  {tail : IRErrorCode} {xs : List LogEventView} {rd₁ : Reader σ₁} {rd₂ : Reader σ₂}

theorem Reader.Before.agree (hpi : clp.PositionIndependent) (htail : tail ≠ .incompleteIr)
    (h₁ : rd₁.Before clp (io₁.Delivers IoReader.NoError) d₁ tail xs)
    (h₂ : rd₂.Before clp (io₂.Delivers IoReader.NoError) d₂ tail xs) {ops : List ReaderOp}
    (hsearch : ∀ op ∈ ops, op.searches = true →
      d₁.encoding = .eightByte ∧ d₂.encoding = .eightByte) :
    ∃ fuel₁ fuel₂ rd₁' rd₂' results, execAll clp io₁ fuel₁ rd₁ ops = some (rd₁', results) ∧
      execAll clp io₂ fuel₂ rd₂ ops = some (rd₂', results) := by
  have hs₁ : ∀ op ∈ ops, op.searches = true → d₁.encoding = .eightByte :=
    fun op hop hs => (hsearch op hop hs).1
  have hs₂ : ∀ op ∈ ops, op.searches = true → d₂.encoding = .eightByte :=
    fun op hop hs => (hsearch op hop hs).2
  obtain ⟨fuel₁, rd₁', results₁, hrun₁⟩ := execAll_returns hpi htail hs₁ h₁
  obtain ⟨fuel₂, rd₂', results₂, hrun₂⟩ := execAll_returns hpi htail hs₂ h₂
  obtain ⟨_, outcomes₁, _, hseek₁, hres₁, _⟩ :=
    execAll_run (io₁.delivers_conserves _) hpi hs₁ h₁ hrun₁
  obtain ⟨_, outcomes₂, _, hseek₂, hres₂, _⟩ :=
    execAll_run (io₂.delivers_conserves _) hpi hs₂ h₂ hrun₂
  obtain ⟨rfl, _⟩ := hseek₁.unique (noError_never io₁) (noError_never io₂) hseek₂
  rw [← hres₁] at hres₂
  exact ⟨fuel₁, fuel₂, rd₁', rd₂', results₁, hrun₁, hres₂ ▸ hrun₂⟩

end readers

theorem IrStream.before {σ : Type} {io : IoReader σ ε} {enc : Encoding} {metadata : Metadata}
    {is : List (GoString × EpochTimeMs)} {b : List UInt8}
    (h : IrStream clp json enc metadata is b) {s : σ} {size : ℕ} (hsize : 0 < size)
    (hs : io.Delivers IoReader.NoError s b) :
    ∃ fuel rd, newReaderSize clp json io s size fuel = some (.ok rd) ∧
      rd.Before clp (io.Delivers IoReader.NoError) (newDeserializer enc metadata ⟨0⟩) .eof
        (decoded enc (initialTime enc metadata) is) := by
  obtain ⟨pos, hf⟩ := h.facts
  obtain ⟨fuel, rd, hopen, hh⟩ := hf.opens hsize hs
  refine ⟨fuel, rd, hopen, _, hh, ?_, ?_, ?_⟩
  · rw [encoding_newDeserializer]
    exact hf.regular
  · rw [remaining, encoding_newDeserializer, hf.items]
  · rw [encoding_newDeserializer]
    exact hf.tail

theorem encoding_unobservable {clpw : IrWriteApi} (h : Codec clp clpw json)
    (hpi : clp.PositionIndependent) {enc₁ enc₂ : Encoding} {writerSize₁ writerSize₂ : ℕ}
    {timeZoneId₁ timeZoneId₂ : GoString} {now₁ now₂ : EpochTimeMs}
    {writer₁ writer₁' writer₂ writer₂' : Writer} {events : List LogEvent}
    (hnew₁ : newWriterSize (ε := ε) clpw enc₁ writerSize₁ timeZoneId₁ now₁ = .ok writer₁)
    (hnew₂ : newWriterSize (ε := ε) clpw enc₂ writerSize₂ timeZoneId₂ now₂ = .ok writer₂)
    (hw₁ : Writer.writeAll ε clpw writer₁ events = some writer₁')
    (hw₂ : Writer.writeAll ε clpw writer₂ events = some writer₂') {sink : Sink ε}
    (hsink : ∀ p, sink.write p = (p.length, none)) {σ₁ σ₂ : Type} {io₁ : IoReader σ₁ ε}
    {io₂ : IoReader σ₂ ε} {s₁ : σ₁} {s₂ : σ₂} {size₁ size₂ : ℕ} (hsize₁ : 0 < size₁)
    (hsize₂ : 0 < size₂)
    (hs₁ : io₁.Delivers IoReader.NoError s₁ (WriterOp.accepted writer₁' (.closeTo sink)))
    (hs₂ : io₂.Delivers IoReader.NoError s₂ (WriterOp.accepted writer₂' (.closeTo sink)))
    {ops : List ReaderOp}
    (hsearch : ∀ op ∈ ops, op.searches = true → enc₁ = .eightByte ∧ enc₂ = .eightByte) :
    ∃ fuel rd₁ rd₂ rd₁' rd₂' results,
      newReaderSize clp json io₁ s₁ size₁ fuel = some (.ok rd₁) ∧
      newReaderSize clp json io₂ s₂ size₂ fuel = some (.ok rd₂) ∧
      execAll clp io₁ fuel rd₁ ops = some (rd₁', results) ∧
      execAll clp io₂ fuel rd₂ ops = some (rd₂', results) := by
  obtain ⟨metadata₁, hstream₁⟩ := writer_stream h hnew₁ hw₁ hsink
  obtain ⟨metadata₂, hstream₂⟩ := writer_stream h hnew₂ hw₂ hsink
  obtain ⟨fuel₁, rd₁, hopen₁, hbefore₁⟩ := hstream₁.before hsize₁ hs₁
  obtain ⟨fuel₂, rd₂, hopen₂, hbefore₂⟩ := hstream₂.before hsize₂ hs₂
  rw [decoded_encoded] at hbefore₁ hbefore₂
  obtain ⟨n₁, n₂, rd₁', rd₂', results, hrun₁, hrun₂⟩ :=
    hbefore₁.agree hpi (by simp) hbefore₂ (by simpa using hsearch)
  exact ⟨fuel₁ + fuel₂ + n₁ + n₂, rd₁, rd₂, rd₁', rd₂', results,
    newReaderSize_mono hopen₁ (by omega), newReaderSize_mono hopen₂ (by omega),
    execAll_mono hrun₁ (by omega), execAll_mono hrun₂ (by omega)⟩

namespace SampleCodec

def greetings : List LogEvent := [⟨ascii "hello", 1005⟩, ⟨ascii "bye", 990⟩]

theorem replay_unique {chunks : List (List UInt8)} {size n m : ℕ} {ops : List ReaderOp}
    {results results' : List (OpResult Unit)} {rd rd' : Reader (List (List UInt8))}
    (h : replay chunks size n ops = some results)
    (hnew : newReaderSize readApi jsonApi source chunks size m = some (.ok rd))
    (hexec : execAll readApi source m rd ops = some (rd', results')) :
    results' = results := by
  obtain ⟨_, _, hnew', hexec'⟩ := replay_eq h
  have hrd := (newReaderSize_mono hnew (n.le_max_right m)).symm.trans
    (newReaderSize_mono hnew' (n.le_max_left m))
  cases hrd
  have hres := (execAll_mono hexec (n.le_max_right m)).symm.trans
    (execAll_mono hexec' (n.le_max_left m))
  cases hres
  rfl

theorem greetings_replayed (enc : Encoding) : ∃ writer writer' : Writer,
    newWriterSize (ε := Unit) writeApi enc 16 (ascii "UTC") 1000 = .ok writer ∧
      Writer.writeAll Unit writeApi writer greetings = some writer' ∧
      replay (IoReader.bytewise (WriterOp.accepted writer' (.closeTo (ε := Unit) Sink.discard))) 1
        512 [.readToContains (ascii "bye"), .read] =
          some [.ok (⟨ascii "bye", 990⟩, none), .error (.ir .endOfIr)] := by
  have hrun : ((newWriterSize (ε := Unit) writeApi enc 16 (ascii "UTC") 1000).toOption.bind
      (Writer.writeAll Unit writeApi · greetings)).map (fun writer' =>
        replay (IoReader.bytewise (WriterOp.accepted writer' (.closeTo (ε := Unit) Sink.discard)))
          1 512 [.readToContains (ascii "bye"), .read]) =
      some (some [.ok (⟨ascii "bye", 990⟩, none), .error (.ir .endOfIr)]) := by
    cases enc <;> decide +kernel
  obtain ⟨writer', hrun, hreplay⟩ := Option.map_eq_some_iff.mp hrun
  obtain ⟨writer, hnew, hw⟩ := Option.bind_eq_some_iff.mp hrun
  exact ⟨writer, writer', ok_of_toOption hnew, hw, hreplay⟩

open IoReader in
theorem greetings_read_alike : ∃ (writer₁ writer₂ writer₁' writer₂' : Writer) (fuel : ℕ)
    (rd₁ rd₂ rd₁' rd₂' : Reader (List (List UInt8))),
    newWriterSize (ε := Unit) writeApi .eightByte 16 (ascii "UTC") 1000 = .ok writer₁ ∧
    newWriterSize (ε := Unit) writeApi .fourByte 16 (ascii "UTC") 1000 = .ok writer₂ ∧
    Writer.writeAll Unit writeApi writer₁ greetings = some writer₁' ∧
    Writer.writeAll Unit writeApi writer₂ greetings = some writer₂' ∧
    newReaderSize readApi jsonApi source (bytewise (WriterOp.accepted writer₁'
      (.closeTo (ε := Unit) Sink.discard))) 1 fuel = some (.ok rd₁) ∧
    newReaderSize readApi jsonApi source (bytewise (WriterOp.accepted writer₂'
      (.closeTo (ε := Unit) Sink.discard))) 1 fuel = some (.ok rd₂) ∧
    execAll readApi source fuel rd₁ [.readToContains (ascii "bye"), .read] =
      some (rd₁', [.ok (⟨ascii "bye", 990⟩, none), .error (.ir .endOfIr)]) ∧
    execAll readApi source fuel rd₂ [.readToContains (ascii "bye"), .read] =
      some (rd₂', [.ok (⟨ascii "bye", 990⟩, none), .error (.ir .endOfIr)]) := by
  obtain ⟨writer₁, writer₁', hnew₁, hw₁, hreplay⟩ := greetings_replayed .eightByte
  obtain ⟨writer₂, writer₂', hnew₂, hw₂, _⟩ := greetings_replayed .fourByte
  have hsink : ∀ p, (Sink.discard (ε := Unit)).write p = (p.length, none) := fun _ => rfl
  have hsearch : ∀ op ∈ [ReaderOp.readToContains (ascii "bye"), .read], op.searches = true →
      Encoding.eightByte = .eightByte ∧ Encoding.fourByte = .eightByte := by
    simp [ReaderOp.searches]
  obtain ⟨fuel, rd₁, rd₂, rd₁', rd₂', results, hopen₁, hopen₂, hrun₁, hrun₂⟩ :=
    encoding_unobservable codec readApi_positionIndependent hnew₁ hnew₂ hw₁ hw₂ hsink Nat.one_pos
      Nat.one_pos (bytewise_delivers _ _) (bytewise_delivers _ _) hsearch
  have hresults := replay_unique hreplay hopen₁ hrun₁
  subst hresults
  exact ⟨writer₁, writer₂, writer₁', writer₂', fuel, rd₁, rd₂, rd₁', rd₂', hnew₁, hnew₂, hw₁, hw₂,
    hopen₁, hopen₂, hrun₁, hrun₂⟩

end SampleCodec

end ClpFfiGo
