import ClpFfiGo.Pipeline

namespace ClpFfiGo

variable {σ ε : Type}

section writing

variable {clp : IrReadApi} {clpw : IrWriteApi} {json : JsonApi ε} {pipe : Pipe σ ε}
  {enc : Encoding} {metadata : Metadata} {prev : EpochTimeMs} {out out' body x acc : List UInt8}
  {c : Consumer σ ε}

theorem over_push {irr : ReadBuf σ} {a : List UInt8} (h : irr.Over pipe.holds a)
    (acc : List UInt8) :
    ReadBuf.Over pipe.holds (a ++ acc) { irr with ioReader := pipe.push irr.ioReader acc } := by
  obtain ⟨rest, rfl, hrest⟩ := h.source
  refine ⟨⟨h.wf.start_le, h.wf.stop_le⟩, h.room, rest ++ acc, ?_, ?_⟩
  · exact (List.append_assoc _ _ _).symm
  · rw [Pipe.holds, pipe.contents_push, hrest]

theorem Consumer.Stands.push (h : c.Stands clp json pipe enc metadata out prev body)
    (hacc : acc ++ out' = out ++ x) :
    (c.push pipe acc).Stands clp json pipe enc metadata out' prev (body ++ x) := by
  cases h with
  | created hsize hpre hb =>
    refine .created hsize hpre ?_
    rw [pipe.contents_push, List.append_assoc, hacc, ← List.append_assoc, hb, List.append_assoc]
  | opening ho h0 hpre hb =>
    refine .opening (over_push ho acc) h0 hpre ?_
    rw [List.append_assoc, hacc, ← List.append_assoc, hb, List.append_assoc]
  | reading hh hb =>
    refine .reading ⟨over_push hh.buffered acc, hh.deserializer⟩ ?_
    rw [List.append_assoc, hacc, ← List.append_assoc, hb]
  | failed => exact .failed

theorem Serializer.Follows.close {serializer : Serializer} (h : serializer.Follows enc prev) :
    serializer.close.Follows enc prev := by
  cases serializer <;> exact h

theorem exec_bytes (clpw : IrWriteApi) (writer : Writer) {op : WriterOp ε}
    (h : op.resets = false) :
    op.accepted writer ++ (op.exec clpw writer).1.bytes = writer.bytes ++
      ((op.views clpw writer).flatten ++ if op.closes then [0] else []) := by
  rw [step_conserves clpw writer op h, List.append_assoc]

theorem writer_silent {p : Pipeline σ ε} {q : Fifo LogEventView} {op : WriterOp ε}
    (h : p.Carries clp json pipe enc metadata q) (hr : op.resets = false)
    (hc : op.closes = false) (hv : op.views clpw p.writer = [])
    (hs : ∀ prev, p.writer.serializer.Follows enc prev →
      (op.exec clpw p.writer).1.serializer.Follows enc prev) :
    (p.step clp clpw json pipe (.writer op)).1.Carries clp json pipe enc metadata q := by
  obtain ⟨prev, pending, z, body, hq, hbody, hf, hclosed, hst⟩ := h
  have hbytes := exec_bytes clpw p.writer hr
  rw [hv, hc] at hbytes
  have hst' := hst.push hbytes
  rw [List.flatten_nil, List.nil_append, if_neg Bool.false_ne_true, List.append_nil] at hst'
  exact ⟨prev, pending, z, body, hq, hbody, hs _ hf,
    fun hz => (closed_step clpw (hclosed hz) op).2, hst'⟩

theorem writer_closes {p : Pipeline σ ε} {q : Fifo LogEventView} {op : WriterOp ε}
    (h : p.Carries clp json pipe enc metadata q) (hr : op.resets = false)
    (hc : op.closes = true)
    (hs : ∀ prev, p.writer.serializer.Follows enc prev →
      (op.exec clpw p.writer).1.serializer.Follows enc prev) :
    (p.step clp clpw json pipe (.writer op)).1.Carries clp json pipe enc metadata
      ⟨q.queue, true⟩ := by
  obtain ⟨prev, pending, z, body, rfl, hbody, hf, hclosed, hst⟩ := h
  obtain ⟨hv, hnone⟩ := closes_step clpw p.writer hc
  have hbytes := exec_bytes clpw p.writer hr
  rw [hv, hc] at hbytes
  refine ⟨prev, pending, z + 1, _, ?_, hbody.close, hs _ hf, fun _ => hnone, hst.push hbytes⟩
  simp

theorem writer_sends (hcodec : Codec clp clpw json) {p : Pipeline σ ε} {q : Fifo LogEventView}
    (h : p.Carries clp json pipe enc metadata q) {event : LogEvent} {serializer : Serializer}
    {irView : BufView} (hs : serializeLogEvent (ε := ε) clpw p.writer.serializer event =
      (serializer, .ok irView)) :
    q.closed = false ∧ (p.step clp clpw json pipe (.writer (.write event))).1.Carries clp json
      pipe enc metadata ⟨q.queue ++ [event.view], false⟩ := by
  obtain ⟨prev, pending, z, body, rfl, hbody, hf, hclosed, hst⟩ := h
  have hz : z = 0 := by
    by_contra hne
    rw [serializeLogEvent_closed clpw (hclosed (Nat.pos_of_ne_zero hne))] at hs
    cases hs
  subst hz
  obtain ⟨hf', hview⟩ := serialize_event hcodec.carriesEvents hf hs
  have hr : (WriterOp.write (ε := ε) event).resets = false := rfl
  have hbytes := exec_bytes clpw p.writer hr
  have hviews : WriterOp.views (ε := ε) clpw p.writer (.write event) = [irView] := by
    rw [WriterOp.views, hs]
  have hc : (WriterOp.write (ε := ε) event).closes = false := rfl
  rw [hviews, hc, List.flatten_singleton, if_neg Bool.false_ne_true, List.append_nil] at hbytes
  refine ⟨rfl, prev, pending ++ [event], 0, _, by simp, hbody.send hview, ?_, by simp,
    hst.push hbytes⟩
  rw [lastTimestamp_snoc]
  simpa [Pipeline.step, WriterOp.exec, Writer.write, hs] using hf'

theorem writer_moves (hcodec : Codec clp clpw json) {p : Pipeline σ ε} {q : Fifo LogEventView}
    (h : p.Carries clp json pipe enc metadata q) {op : WriterOp ε} (hr : op.resets = false) :
    ∃ q', Fifo.Step q (p.step clp clpw json pipe (.writer op)).2.label q' ∧
      (p.step clp clpw json pipe (.writer op)).1.Carries clp json pipe enc metadata q' := by
  cases op with
  | write event =>
    rcases write_cases (ε := ε) clpw p.writer event with
      ⟨serializer, err, hs, hw⟩ | ⟨serializer, irView, hs, hw⟩
    · refine ⟨q, ?_, writer_silent h rfl rfl ?_ ?_⟩
      · simp only [Pipeline.step, WriterOp.exec, hw]
        exact .silent
      · rw [WriterOp.views, hs]
      · intro prev hf
        simp only [WriterOp.exec, hw]
        exact serialize_failed hf hs
    · obtain ⟨hopen, hcarries⟩ := writer_sends hcodec h hs
      obtain ⟨queue, closed⟩ := q
      cases hopen
      refine ⟨_, ?_, hcarries⟩
      simp only [Pipeline.step, WriterOp.exec, hw]
      exact .send event.view
  | writeTo w =>
    refine ⟨q, .silent, writer_silent h rfl rfl rfl fun prev hf => ?_⟩
    simpa only [WriterOp.exec, writeTo_eq] using hf
  | close => exact ⟨_, .close, writer_closes h rfl rfl fun prev hf => hf.close⟩
  | closeTo w =>
    refine ⟨_, .close, writer_closes h rfl rfl fun prev hf => ?_⟩
    simp only [WriterOp.exec, Writer.closeTo, writeTo_eq]
    exact hf.close
  | reset => cases hr

end writing

section reading

variable {clp : IrReadApi} {json : JsonApi ε} {pipe : Pipe σ ε} {enc : Encoding}
  {metadata : Metadata} {prev : EpochTimeMs} {pending : List LogEvent} {z : ℕ}
  {out body : List UInt8}

theorem PreambleSettled.of_prefix {full a : List UInt8} (h : PreambleSettled clp json full)
    (ha : a <+: full) : PreambleSettled clp json a :=
  fun u p hu hp => h u p hu (hp.trans ha)

theorem at_initialTime {t : EpochTimeMs}
    (h : newDeserializer enc metadata ⟨0⟩ = (newDeserializer enc metadata ⟨0⟩).at t) :
    t = initialTime enc metadata := by
  have hcptr := congrArg Deserializer.cptr (h.symm.trans (newDeserializer_at enc metadata))
  simpa using hcptr

variable (clp json) in
theorem created_turn {r : σ} {size : ℕ} {pre : List UInt8} (hsize : 0 < size)
    (hpre : PreambleBytes clp json enc metadata pre) (hb : pipe.contents r ++ out = pre ++ body) :
    ((Consumer.created r size).turn clp json pipe.toIoReader).1.Stands clp json pipe enc metadata
        out (initialTime enc metadata) body ∧
      PipelineResult.label (.reader ((Consumer.created r size).turn clp json
        pipe.toIoReader).2) = .silent ∧
      PipelineResult.IoOrEnd (.reader ((Consumer.created r size).turn clp json
        pipe.toIoReader).2) := by
  obtain ⟨rb, p, hread, hr⟩ := initial_spec pipe.toIoReader r size
  have ho : (ReadBuf.initial r size).Over pipe.holds (pipe.contents r) :=
    ReadBuf.Over.initial hsize rfl
  simp only [Consumer.turn, hread]
  rcases (pipe.read r p).err with _ | _ | e
  · exact ⟨.opening (ho.refill pipe.holds_conserves hr) hr.start hpre hb, rfl, trivial⟩
  · exact ⟨.opening (ho.refill pipe.holds_conserves hr) hr.start hpre hb, rfl, trivial⟩
  · exact ⟨.failed, rfl, .inr ⟨e, rfl⟩⟩

theorem opening_turn {irr : ReadBuf σ} {pre a : List UInt8} (ho : irr.Over pipe.holds a)
    (h0 : irr.start = 0) (hpre : PreambleBytes clp json enc metadata pre)
    (hb : a ++ out = pre ++ body) :
    ((Consumer.opening irr).turn clp json pipe.toIoReader).1.Stands clp json pipe enc metadata
        out (initialTime enc metadata) body ∧
      PipelineResult.label (.reader ((Consumer.opening irr).turn clp json
        pipe.toIoReader).2) = .silent ∧
      PipelineResult.IoOrEnd (.reader ((Consumer.opening irr).turn clp json
        pipe.toIoReader).2) := by
  have hset := hpre.settled body
  rw [← hb] at hset
  have hseta := hset.of_prefix (List.prefix_append a out)
  have hanswer : Cut (deserializePreamble clp json a) ∨ deserializePreamble clp json a =
      .ok (newDeserializer enc metadata ⟨0⟩, pre.length) := by
    rcases hset a (a ++ out) (List.prefix_append a out) List.prefix_rfl with hcut | heq
    · exact .inl hcut
    · cases a with
      | nil => exact .inl ⟨.ir .incompleteIr, rfl, rfl⟩
      | cons x a =>
        right
        rw [heq, hb]
        exact hpre.answer body (by rw [← hb]; simp)
  cases ht : newReaderTurn clp json pipe.toIoReader irr with
  | inl irr' =>
    obtain ⟨ho', h0'⟩ := construct_keeps pipe.holds_conserves ho h0 ht
    simp only [Consumer.turn, ht]
    exact ⟨.opening ho' h0' hpre hb, rfl, trivial⟩
  | inr res =>
    have hbuilt := construct_built hseta ho h0 ht
    cases hbuilt with
    | sourceFailed _ =>
      simp only [Consumer.turn, ht]
      exact ⟨.failed, rfl, .inr ⟨_, rfl⟩⟩
    | rejected he hm =>
      rcases hanswer with ⟨err, he', hm'⟩ | ha
      · rw [he] at he'
        cases he'
        rw [hm] at hm'
        cases hm'
      · rw [he] at ha
        cases ha
    | @returned rd d t pos he hdt hh =>
      rcases hanswer with ⟨err, he', _⟩ | ha
      · rw [he] at he'
        cases he'
      · rw [he] at ha
        obtain ⟨rfl, rfl⟩ := Prod.mk.inj (Except.ok.inj ha)
        obtain rfl := at_initialTime hdt
        simp only [Consumer.turn, ht]
        refine ⟨.reading hh ?_, rfl, trivial⟩
        have hp := (deserializePreamble_ok he).1
        rw [← List.drop_append_of_le_length hp, hb, List.drop_left]

theorem EofByte.cursor (h : EofByte clp) (prev : EpochTimeMs) (rest : List UInt8) :
    Cursor.read (ε := ε) clp enc ⟨prev, 0 :: rest⟩ =
      some (⟨prev, 0 :: rest⟩, .error (.ir .endOfIr)) := by
  simp only [Cursor.read, h.dec]
  rfl

theorem exact_cursor {event : LogEvent} {p : List UInt8} (h : (itemDecoder clp enc).Exact p
    (event.logMessage, timestampOrDelta enc prev event.timestamp)) (rest : List UInt8) :
    Cursor.read (ε := ε) clp enc ⟨prev, p ++ rest⟩ =
      some (⟨event.timestamp, rest⟩, .ok event.view) := by
  rw [Cursor.read_of_ok (c := ⟨prev, p ++ rest⟩) (h.whole rest), List.drop_left]
  simp only [stamp_timestampOrDelta]
  rfl

theorem Body.cursor (heof : EofByte clp) (h : Body clp enc prev pending z body) {a : List UInt8}
    (hb : a ++ out = body) :
    Cursor.read (ε := ε) clp enc ⟨prev, a⟩ = none ∨
      (pending = [] ∧ 0 < z ∧ Cursor.read (ε := ε) clp enc ⟨prev, a⟩ =
        some (⟨prev, a⟩, .error (.ir .endOfIr))) ∨
      ∃ event events r b', pending = event :: events ∧ r ++ out = b' ∧
        Body clp enc event.timestamp events z b' ∧
        Cursor.read (ε := ε) clp enc ⟨prev, a⟩ = some (⟨event.timestamp, r⟩, .ok event.view) := by
  have ha : a <+: body := ⟨out, hb⟩
  cases pending with
  | nil =>
    rcases h.drained ha with rfl | ⟨hz, v, rfl⟩
    · exact .inl (by simp only [Cursor.read, itemDecoder_nil])
    · exact .inr (.inl ⟨rfl, hz, heof.cursor prev v⟩)
  | cons event events =>
    obtain ⟨p, b', rfl, hbody, hp⟩ := h.receive
    rcases hp.cases ha with hm | ⟨r, rfl, hr⟩
    · exact .inl (by simp only [Cursor.read, hm]; rfl)
    · rw [List.append_assoc] at hb
      exact .inr (.inr ⟨event, events, r, b', rfl, List.append_cancel_left hb, hbody,
        exact_cursor hp r⟩)

variable (json) in
theorem reading_turn (heof : EofByte clp) {rd : Reader σ} {a : List UInt8}
    (hbody : Body clp enc prev pending z body)
    (hh : rd.Holds pipe.holds (newDeserializer enc metadata ⟨0⟩) ⟨prev, a⟩)
    (hb : a ++ out = body) :
    PipelineResult.IoOrEnd (.reader ((Consumer.reading rd).turn clp json
        pipe.toIoReader).2) ∧
      ∃ prev' pending' body', Fifo.Step ⟨pending.map LogEvent.view, decide (0 < z)⟩
        (PipelineResult.label (.reader ((Consumer.reading rd).turn clp json pipe.toIoReader).2))
        ⟨pending'.map LogEvent.view, decide (0 < z)⟩ ∧
      Body clp enc prev' pending' z body' ∧
      lastTimestamp prev' pending' = lastTimestamp prev pending ∧
      ((Consumer.reading rd).turn clp json pipe.toIoReader).1.Stands clp json pipe enc metadata
        out prev' body' := by
  have hs : (itemDecoder clp (newDeserializer enc metadata ⟨0⟩).encoding).Settled a := by
    rw [encoding_newDeserializer]
    exact ItemDecoder.Settled.of_prefix (hbody.settled heof) ⟨out, hb⟩
  have hcursor := hbody.cursor (ε := ε) heof hb
  cases ht : rd.readTurn clp pipe.toIoReader with
  | inl rd' =>
    obtain ⟨ho, hd⟩ := Reader.turn_keeps pipe.holds_conserves (read_settles (t := prev) hs)
      hh.buffered hh.deserializer trivial ht
    simp only [Consumer.turn, ht]
    exact ⟨trivial, prev, pending, body, .silent, hbody, rfl, .reading ⟨ho, hd⟩ hb⟩
  | inr r =>
    have ho := Reader.turn_outcome pipe.holds_conserves (read_settles (t := prev) hs)
      hh.buffered hh.deserializer trivial ht
    simp only [Consumer.turn, ht]
    cases ho with
    | sourceFailed _ ho hd =>
      exact ⟨.inr ⟨_, rfl⟩, prev, pending, body, .silent, hbody, rfl, .reading ⟨ho, hd⟩ hb⟩
    | @rejected rd' err ho hm hpost =>
      obtain ⟨hd, hread⟩ := cursor_read_error hm hpost
      rw [encoding_newDeserializer] at hread
      rw [hread] at hcursor
      rcases hcursor with h | ⟨rfl, hz, h⟩ | ⟨_, _, _, _, _, _, _, h⟩
      · cases h
      · cases h
        refine ⟨.inl rfl, prev, [], body, ?_, hbody, rfl, .reading ⟨ho, hd⟩ hb⟩
        simp only [decide_eq_true hz]
        exact .finish
      · cases h
    | returned ho hpost =>
      obtain ⟨t', hd, hread⟩ := cursor_read_ok hpost
      rw [encoding_newDeserializer] at hread
      rw [hread] at hcursor
      rcases hcursor with h | ⟨_, _, h⟩ | ⟨event, events, r, b', rfl, hr, hbody', h⟩
      · cases h
      · cases (Prod.mk.inj (Option.some.inj h)).2
      · obtain ⟨hc, he⟩ := Prod.mk.inj (Option.some.inj h)
        obtain ⟨rfl, rfl⟩ := Cursor.mk.inj hc
        cases he
        exact ⟨trivial, _, events, b', .receive _, hbody', rfl, .reading ⟨ho, hd⟩ hr⟩

end reading

section runs

variable {clp : IrReadApi} {clpw : IrWriteApi} {json : JsonApi ε} {pipe : Pipe σ ε}
  {enc : Encoding} {metadata : Metadata}

variable (clpw) in
theorem reader_moves (heof : EofByte clp) {p : Pipeline σ ε} {q : Fifo LogEventView}
    (h : p.Carries clp json pipe enc metadata q) :
    (p.step clp clpw json pipe .reader).2.IoOrEnd ∧
      ∃ q', Fifo.Step q (p.step clp clpw json pipe .reader).2.label q' ∧
        (p.step clp clpw json pipe .reader).1.Carries clp json pipe enc metadata q' := by
  obtain ⟨writer, consumer⟩ := p
  obtain ⟨prev, pending, z, body, rfl, hbody, hf, hclosed, hst⟩ := h
  cases hst with
  | created hsize hpre hb =>
    obtain ⟨hst, hlabel, hgood⟩ := created_turn clp json hsize hpre hb
    refine ⟨hgood, _, ?_, _, pending, z, body, rfl, hbody, hf, hclosed, hst⟩
    simp only [Pipeline.step, hlabel]
    exact .silent
  | opening ho h0 hpre hb =>
    obtain ⟨hst, hlabel, hgood⟩ := opening_turn ho h0 hpre hb
    refine ⟨hgood, _, ?_, _, pending, z, body, rfl, hbody, hf, hclosed, hst⟩
    simp only [Pipeline.step, hlabel]
    exact .silent
  | reading hh hb =>
    obtain ⟨hgood, prev', pending', body', hstep, hbody', hlast, hst⟩ :=
      reading_turn json heof hbody hh hb
    exact ⟨hgood, _, hstep, prev', pending', z, body', rfl, hbody', hlast ▸ hf, hclosed, hst⟩
  | failed => exact ⟨trivial, _, .silent, prev, pending, z, body, rfl, hbody, hf, hclosed, .failed⟩

theorem pipeline_simulated (hcodec : Codec clp clpw json) :
    Fifo.Simulated (Pipeline.step clp clpw json pipe) PipelineResult.label
      (fun op => op.resets = false) PipelineResult.IoOrEnd
      (Pipeline.Carries clp json pipe enc metadata) where
  good p q op h _ := by
    cases op with
    | writer op => trivial
    | reader => exact (reader_moves clpw hcodec.eof h).1
  moves p q op h hr := by
    cases op with
    | writer op => exact writer_moves hcodec h hr
    | reader => exact (reader_moves clpw hcodec.eof h).2

theorem pipeline_run (hcodec : Codec clp clpw json) {p : Pipeline σ ε} {q : Fifo LogEventView}
    (h : p.Carries clp json pipe enc metadata q) {ops : List (PipelineOp ε)}
    (hreset : ∀ op ∈ ops, op.resets = false) :
    (∀ result ∈ Pipeline.results clp clpw json pipe p ops, result.IoOrEnd) ∧
      ∃ q', Fifo.Run q (Pipeline.labels clp clpw json pipe p ops) q' ∧
        (Pipeline.after clp clpw json pipe p ops).Carries clp json pipe enc metadata q' :=
  (pipeline_simulated hcodec).run h hreset

theorem pipeline_starts (hcodec : Codec clp clpw json) {writerSize : ℕ} {timeZoneId : GoString}
    {now : EpochTimeMs} {writer : Writer}
    (hnew : newWriterSize (ε := ε) clpw enc writerSize timeZoneId now = .ok writer) {r : σ}
    {size : ℕ} (hsize : 0 < size) (hr : pipe.contents r = []) :
    ∃ metadata, Pipeline.Carries clp json pipe enc metadata ⟨writer, .created r size⟩
      ⟨[], false⟩ := by
  obtain ⟨metadata, hpre, hf⟩ := newWriterSize_stream hcodec hnew
  refine ⟨metadata, initialTime enc metadata, [], 0, [], rfl, ⟨[], rfl, .nil⟩, hf, by simp, ?_⟩
  exact .created hsize hpre (by rw [hr, List.nil_append, List.append_nil])

theorem pipeline_refines_fifo (hcodec : Codec clp clpw json) {writerSize : ℕ}
    {timeZoneId : GoString} {now : EpochTimeMs} {writer : Writer}
    (hnew : newWriterSize (ε := ε) clpw enc writerSize timeZoneId now = .ok writer) {r : σ}
    {size : ℕ} (hsize : 0 < size) (hr : pipe.contents r = []) {ops : List (PipelineOp ε)}
    (hreset : ∀ op ∈ ops, op.resets = false) :
    ∃ ls q, ls = Pipeline.labels clp clpw json pipe ⟨writer, .created r size⟩ ops ∧
      Fifo.Run ⟨[], false⟩ ls q ∧ Fifo.received ls <+: Fifo.sent ls ∧
      (.finish ∈ ls → .close ∈ ls ∧ Fifo.received ls = Fifo.sent ls) ∧
      ∀ result ∈ Pipeline.results clp clpw json pipe ⟨writer, .created r size⟩ ops,
        result.IoOrEnd := by
  obtain ⟨metadata, hstart⟩ := pipeline_starts hcodec hnew hsize hr
  obtain ⟨hgood, q, hrun, _⟩ := pipeline_run hcodec hstart hreset
  refine ⟨_, q, rfl, hrun, hrun.received_prefix, fun hf => ?_, hgood⟩
  have hq := hrun.finished hf
  refine ⟨hrun.closing rfl (by rw [hq]), ?_⟩
  have haccount := hrun.account
  rw [hq, List.append_nil] at haccount
  exact haccount.symm

end runs

namespace SampleCodec

def followed : List (PipelineOp Unit) :=
  [.reader, .writer (.write ⟨ascii "hello", 1005⟩), .writer (.writeTo (.failAfter 3 ())),
    .reader, .writer (.writeTo .discard)] ++ List.replicate 9 .reader ++
  [.writer (.write ⟨ascii "bye", 990⟩), .reader, .writer (.closeTo .discard)] ++
  List.replicate 3 .reader

abbrev tailedLabels (writer : Writer) (ops : List (PipelineOp Unit)) :
    List (Fifo.Label LogEventView) :=
  Pipeline.labels readApi writeApi jsonApi Pipe.chunked ⟨writer, .created [] 4⟩ ops

end SampleCodec

open SampleCodec in
theorem followed_stream_refines_fifo : ∃ writer,
    newWriterSize (ε := Unit) writeApi .fourByte 16 (ascii "UTC") 1000 = .ok writer ∧
    ∃ ls q, ls = tailedLabels writer followed ∧ Fifo.Run ⟨[], false⟩ ls q ∧
      Fifo.received ls <+: Fifo.sent ls ∧
      ls.filter (· ≠ .silent) = [.send ⟨ascii "hello", 1005⟩, .receive ⟨ascii "hello", 1005⟩,
        .send ⟨ascii "bye", 990⟩, .close, .receive ⟨ascii "bye", 990⟩, .finish] := by
  have hlabels : ((newWriterSize (ε := Unit) writeApi .fourByte 16 (ascii "UTC") 1000).toOption.map
      fun writer => (tailedLabels writer followed).filter (· ≠ .silent)) =
        some [.send ⟨ascii "hello", 1005⟩, .receive ⟨ascii "hello", 1005⟩,
          .send ⟨ascii "bye", 990⟩, .close, .receive ⟨ascii "bye", 990⟩, .finish] := by
    decide +kernel
  obtain ⟨writer, hnew, hlabels⟩ := Option.map_eq_some_iff.mp hlabels
  have hempty : (Pipe.chunked (ε := Unit)).contents [] = [] := rfl
  have hreset : ∀ op ∈ followed, op.resets = false := by decide
  have hsize : 0 < 4 := by decide
  obtain ⟨ls, q, rfl, hrun, hprefix, _⟩ :=
    pipeline_refines_fifo codec (ok_of_toOption hnew) hsize hempty hreset
  exact ⟨writer, ok_of_toOption hnew, _, q, rfl, hrun, hprefix, hlabels⟩

end ClpFfiGo
