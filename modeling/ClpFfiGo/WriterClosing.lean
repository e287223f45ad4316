import ClpFfiGo.WriterStream

namespace ClpFfiGo

variable {ε : Type} {clp : IrWriteApi}

-- The stream of a run: what the sinks took, then what the buffer still holds.
def WriterRun.stream (run : WriterRun ε) : List UInt8 := run.accepted ++ run.writer.bytes

def WriterRun.EndsOnce (preamble : List UInt8) (run : WriterRun ε) : Prop :=
  run.stream = preamble ++ run.views.flatten ++ [0]

variable (clp) in
theorem endsOnce_iff (writer : Writer) {ops : List (WriterOp ε)}
    (hreset : ∀ op ∈ ops, op.resets = false) :
    (WriterRun.of clp writer ops).EndsOnce writer.bytes ↔ ops.countP WriterOp.closes = 1 := by
  rw [WriterRun.EndsOnce, WriterRun.stream, run_stream clp writer ops hreset]
  constructor
  · intro h
    have hl := congrArg List.length (List.append_cancel_left h)
    rwa [List.length_replicate] at hl
  · intro h
    rw [h]
    rfl

theorem closed_stream_iff {enc : Encoding} {size : ℕ} {timeZoneId : GoString} {now : EpochTimeMs}
    {writer : Writer} (hnew : newWriterSize (ε := ε) clp enc size timeZoneId now = .ok writer)
    {ops : List (WriterOp ε)} (hreset : ∀ op ∈ ops, op.resets = false) :
    (∃ preamble, serializePreamble clp enc timeZoneId now = (true, preamble) ∧
      (WriterRun.of clp writer ops).EndsOnce preamble) ↔ ops.countP WriterOp.closes = 1 := by
  have hpre := newWriterSize_ok hnew
  rw [← endsOnce_iff clp writer hreset]
  constructor
  · rintro ⟨preamble, hp, hends⟩
    obtain rfl : writer.bytes = preamble := congrArg Prod.snd (hpre.symm.trans hp)
    exact hends
  · intro hends
    exact ⟨writer.bytes, hpre, hends⟩

open SampleCodec in
theorem failed_closeTo_drained : ∃ writer : Writer,
    newWriterSize (ε := Unit) writeApi .fourByte 16 (ascii "UTC") 1000 = .ok writer ∧
    ∃ preamble, serializePreamble writeApi .fourByte (ascii "UTC") 1000 = (true, preamble) ∧
      (WriterRun.of writeApi writer
        [.write ⟨ascii "hello", 1005⟩, .closeTo (.failAfter 3 ()), .writeTo .discard]).EndsOnce
          preamble := by
  obtain ⟨writer, hnew⟩ := sample_writer
  refine ⟨writer, hnew, (closed_stream_iff hnew ?_).mpr ?_⟩
  · simp [WriterOp.resets]
  · rfl

open SampleCodec in
theorem repeated_closeTo_ends_twice : ∃ (writer : Writer) (run : WriterRun Unit),
    newWriterSize (ε := Unit) writeApi .fourByte 16 (ascii "UTC") 1000 = .ok writer ∧
    run = WriterRun.of writeApi writer
      [.write ⟨ascii "hello", 1005⟩, .closeTo (.failAfter 3 ()), .closeTo .discard] ∧
    run.stream = writer.bytes ++ run.views.flatten ++ [0, 0] ∧
    ¬ ∃ preamble, serializePreamble writeApi .fourByte (ascii "UTC") 1000 = (true, preamble) ∧
      run.EndsOnce preamble := by
  obtain ⟨writer, hnew⟩ := sample_writer
  have hops : ∀ op ∈ [WriterOp.write ⟨ascii "hello", 1005⟩, .closeTo (.failAfter 3 ()),
      .closeTo .discard], op.resets = false := by simp [WriterOp.resets]
  refine ⟨writer, _, hnew, rfl, run_stream writeApi writer _ hops, ?_⟩
  rintro ⟨preamble, hp, hends⟩
  obtain rfl : writer.bytes = preamble :=
    congrArg Prod.snd ((newWriterSize_ok hnew).symm.trans hp)
  have hcount := (endsOnce_iff writeApi writer hops).mp hends
  exact absurd hcount (by decide)

end ClpFfiGo
