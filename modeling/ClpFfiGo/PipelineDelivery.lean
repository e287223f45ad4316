import ClpFfiGo.PipelineSafety

namespace ClpFfiGo

variable {σ ε : Type}

section draining

variable {clp : IrReadApi} {clpw : IrWriteApi} {json : JsonApi ε} {pipe : Pipe σ ε}
  {enc : Encoding} {metadata : Metadata} {prev : EpochTimeMs} {pending : List LogEvent} {z : ℕ}
  {b : List UInt8} {writer : Writer}

theorem over_delivers {irr : ReadBuf σ} {a : List UInt8} (h : irr.Over pipe.holds a)
    (hd : pipe.Delivers IoReader.NoError irr.ioReader (pipe.contents irr.ioReader)) :
    irr.Over (pipe.Delivers IoReader.NoError) a := by
  obtain ⟨rest, hu, hrest⟩ := h.source
  exact ⟨h.wf, h.room, rest, hu, hrest ▸ hd⟩

variable (clpw json writer) in
theorem read_steps {rd rd' : Reader σ} {res : Except (GoError ε) LogEventView}
    (h : Loop.Ends (Reader.readTurn clp pipe.toIoReader) rd (rd', res)) :
    ∃ n, Pipeline.after clp clpw json pipe ⟨writer, .reading rd⟩ (List.replicate n .reader) =
        ⟨writer, .reading rd'⟩ ∧
      Pipeline.labels clp clpw json pipe ⟨writer, .reading rd⟩ (List.replicate n .reader) =
        List.replicate (n - 1) .silent ++ [PipelineResult.label (.reader (some res))] := by
  obtain ⟨n, hfinal, houts⟩ := Fifo.final_loop (Pipeline.step clp clpw json pipe) .reader
    (fun rd => ⟨writer, .reading rd⟩) (fun r => ⟨writer, .reading r.1⟩) (.reader none)
    (fun r => .reader (some r.2)) (fun s t ht => by simp only [Pipeline.step, Consumer.turn, ht])
    (fun s r ht => by simp only [Pipeline.step, Consumer.turn, ht]) h
  refine ⟨n + 1, hfinal, ?_⟩
  rw [Pipeline.labels, Pipeline.results, houts]
  simp [PipelineResult.label]

variable (clpw json writer) in
theorem one_read {rd : Reader σ} {c' : Cursor} {res : Except (GoError ε) LogEventView}
    (hs : (itemDecoder clp enc).Settled b)
    (hc : Cursor.read clp enc ⟨prev, b⟩ = some (c', res))
    (hh : rd.Holds (pipe.Delivers IoReader.NoError) (newDeserializer enc metadata ⟨0⟩)
      ⟨prev, b⟩) :
    ∃ n rd', Pipeline.after clp clpw json pipe ⟨writer, .reading rd⟩ (List.replicate n .reader) =
        ⟨writer, .reading rd'⟩ ∧
      Pipeline.labels clp clpw json pipe ⟨writer, .reading rd⟩ (List.replicate n .reader) =
        List.replicate (n - 1) .silent ++ [PipelineResult.label (.reader (some res))] ∧
      rd'.Holds (pipe.Delivers IoReader.NoError) (newDeserializer enc metadata ⟨0⟩) c' := by
  rw [← encoding_newDeserializer enc metadata ⟨0⟩] at hs hc
  have hne : (itemDecoder clp (newDeserializer enc metadata ⟨0⟩).encoding).dec b ≠
      .error .incompleteIr := by
    intro hm
    simp only [Cursor.read, hm] at hc
    cases hc
  obtain ⟨fuel, rd', c₁, res₁, hrun, hc₁, hh'⟩ := read_run (c := ⟨prev, b⟩) hs hne hh
  rw [hc] at hc₁
  cases hc₁
  obtain ⟨n, hafter, hlabels⟩ := read_steps clpw json writer (Loop.ends_of_run hrun)
  exact ⟨n, rd', hafter, hlabels, hh'⟩

-- Some turns of the reader alone bring out all that the queue holds.
def Pipeline.Drains (clp : IrReadApi) (clpw : IrWriteApi) (json : JsonApi ε) (pipe : Pipe σ ε)
    (p : Pipeline σ ε) (q : Fifo LogEventView) : Prop :=
  ∃ n ls, ls = Pipeline.labels clp clpw json pipe p (List.replicate n .reader) ∧
    Fifo.received ls = q.queue ∧ (q.closed = true → .finish ∈ ls)

theorem Pipeline.Drains.later (event : Option LogEventView) {p p' : Pipeline σ ε}
    {q : Fifo LogEventView} {n : ℕ}
    (hafter : Pipeline.after clp clpw json pipe p (List.replicate n .reader) = p')
    (hreceived : Fifo.received (Pipeline.labels clp clpw json pipe p
      (List.replicate n .reader)) = event.toList)
    (h : p'.Drains clp clpw json pipe q) :
    p.Drains clp clpw json pipe ⟨event.toList ++ q.queue, q.closed⟩ := by
  obtain ⟨m, _, rfl, hrest, hfinish⟩ := h
  refine ⟨n + m, _, rfl, ?_, fun hc => ?_⟩
  · rw [List.replicate_add, Pipeline.labels_append, hafter, Fifo.received_append, hreceived, hrest]
  · rw [List.replicate_add, Pipeline.labels_append, hafter]
    exact List.mem_append_right _ (hfinish hc)

variable (clpw json writer) in
theorem reading_drains (heof : EofByte clp) (hbody : Body clp enc prev pending z b)
    {rd : Reader σ} (hh : rd.Holds (pipe.Delivers IoReader.NoError)
      (newDeserializer enc metadata ⟨0⟩) ⟨prev, b⟩) :
    Pipeline.Drains clp clpw json pipe ⟨writer, .reading rd⟩
      ⟨pending.map LogEvent.view, decide (0 < z)⟩ := by
  have hs := hbody.settled heof
  induction pending generalizing prev b rd with
  | nil =>
    rcases hbody.drained List.prefix_rfl with rfl | ⟨hz, v, rfl⟩
    · exact ⟨0, _, rfl, rfl, fun hz => absurd (of_decide_eq_true hz) (hbody.closed rfl)⟩
    · obtain ⟨n, rd', -, hlabels, -⟩ := one_read clpw json writer hs (heof.cursor prev v) hh
      refine ⟨n, _, rfl, ?_, fun _ => ?_⟩
      · rw [hlabels, Fifo.received_append, Fifo.received_silent]
        rfl
      · rw [hlabels]
        exact List.mem_append_right _ (List.mem_singleton.mpr rfl)
  | cons event events ih =>
    obtain ⟨p, b', rfl, hbody', hp⟩ := hbody.receive
    obtain ⟨n, rd', hafter, hlabels, hh'⟩ := one_read clpw json writer hs (exact_cursor hp b') hh
    refine Pipeline.Drains.later (some event.view) hafter ?_
      (ih hbody' hh' (hbody'.settled heof))
    rw [hlabels, Fifo.received_append, Fifo.received_silent]
    rfl

theorem opening_ends {irr : ReadBuf σ} {pre body : List UInt8}
    (hpre : PreambleBytes clp json enc metadata pre) (hne : 0 < (pre ++ body).length)
    (ho : irr.Over (pipe.Delivers IoReader.NoError) (pre ++ body)) (h0 : irr.start = 0) :
    ∃ rd, Loop.Ends (newReaderTurn clp json pipe.toIoReader) irr (.ok rd) ∧
      rd.Holds (pipe.Delivers IoReader.NoError) (newDeserializer enc metadata ⟨0⟩)
        ⟨initialTime enc metadata, body⟩ := by
  have hanswer := hpre.answer body hne
  have hcut : ¬ Cut (deserializePreamble clp json (pre ++ body)) := by
    rintro ⟨err, he, _⟩
    rw [hanswer] at he
    cases he
  obtain ⟨res, hends⟩ := construct_ends hcut ho h0
  have hbuilt := hends.post (P := fun rb => rb.Over (pipe.Delivers IoReader.NoError)
      (pre ++ body) ∧ rb.start = 0)
    (fun _ _ hp ht => construct_keeps (pipe.delivers_conserves _) hp.1 hp.2 ht)
    (fun _ _ hp ht => construct_built (hpre.settled body) hp.1 hp.2 ht) ⟨ho, h0⟩
  cases hbuilt with
  | sourceFailed hf => exact hf.allowed.elim
  | rejected he _ => rw [hanswer] at he; cases he
  | @returned rd d t pos he hdt hh =>
    rw [hanswer] at he
    obtain ⟨rfl, rfl⟩ := Prod.mk.inj (Except.ok.inj he)
    obtain rfl := at_initialTime hdt
    rw [List.drop_left] at hh
    exact ⟨rd, hends, hh⟩

variable (clpw writer) in
theorem opening_steps {irr : ReadBuf σ} {rd : Reader σ}
    (h : Loop.Ends (newReaderTurn clp json pipe.toIoReader) irr (.ok rd)) :
    ∃ n, Pipeline.after clp clpw json pipe ⟨writer, .opening irr⟩ (List.replicate n .reader) =
        ⟨writer, .reading rd⟩ ∧
      Pipeline.labels clp clpw json pipe ⟨writer, .opening irr⟩ (List.replicate n .reader) =
        List.replicate n .silent := by
  obtain ⟨n, hfinal, houts⟩ := Fifo.final_loop (Pipeline.step clp clpw json pipe) .reader
    (fun irr => ⟨writer, .opening irr⟩)
    (fun | .ok rd => ⟨writer, .reading rd⟩ | .error err => ⟨writer, .failed err⟩) (.reader none)
    (fun | .ok _ => .reader none | .error err => .reader (some (.error err)))
    (fun s t ht => by simp only [Pipeline.step, Consumer.turn, ht])
    (fun s r ht => by cases r <;> simp only [Pipeline.step, Consumer.turn, ht]) h
  refine ⟨n + 1, hfinal, ?_⟩
  rw [Pipeline.labels, Pipeline.results, houts, List.replicate_succ']
  simp [PipelineResult.label]

variable (clpw writer) in
theorem opening_drains (heof : EofByte clp) {irr : ReadBuf σ} {pre body : List UInt8}
    (hbody : Body clp enc (initialTime enc metadata) pending z body)
    (hpre : PreambleBytes clp json enc metadata pre)
    (ho : irr.Over (pipe.Delivers IoReader.NoError) (pre ++ body)) (h0 : irr.start = 0) :
    Pipeline.Drains clp clpw json pipe ⟨writer, .opening irr⟩
      ⟨pending.map LogEvent.view, decide (0 < z)⟩ := by
  by_cases hne : 0 < (pre ++ body).length
  · obtain ⟨rd, hends, hh⟩ := opening_ends hpre hne ho h0
    obtain ⟨n, hafter, hlabels⟩ := opening_steps clpw writer hends
    refine Pipeline.Drains.later none hafter ?_
      (reading_drains clpw json writer heof hbody hh)
    rw [hlabels, Fifo.received_silent]
    rfl
  · have hnil : body = [] := by
      rw [List.length_append] at hne
      exact List.length_eq_zero_iff.mp (by omega)
    cases pending with
    | nil => exact ⟨0, _, rfl, rfl, fun hz => absurd (of_decide_eq_true hz) (hbody.closed hnil)⟩
    | cons event events =>
      obtain ⟨p, b', hb, _, hp⟩ := hbody.receive
      have hpos := ((itemDecoder clp enc).advance (hp.whole b')).1
      rw [hnil] at hb
      rw [(List.append_eq_nil_iff.mp hb.symm).1] at hpos
      cases hpos

variable (clpw) in
theorem pipeline_drains (heof : EofByte clp) {p : Pipeline σ ε} {q : Fifo LogEventView}
    (h : p.Carries clp json pipe enc metadata q) (hflushed : p.writer.bytes = []) {s : σ}
    (hs : p.consumer.source = some s)
    (hd : pipe.Delivers IoReader.NoError s (pipe.contents s)) :
    p.Drains clp clpw json pipe q := by
  obtain ⟨writer, consumer⟩ := p
  obtain ⟨prev, pending, z, body, rfl, hbody, _, _, hst⟩ := h
  dsimp only at hflushed hst hs
  rw [hflushed] at hst
  cases hst with
  | @created r size pre body hsize hpre hb =>
    obtain rfl := Option.some.inj hs
    rw [List.append_nil] at hb
    have ho := ReadBuf.Over.initial hsize hd
    obtain ⟨rb, p, hread, hr⟩ := initial_spec pipe.toIoReader r size
    obtain ⟨_, _, _, hallowed⟩ := hd.read (hr.room ho.room)
    have hnone : ReadBuf.ioErr (pipe.read r p).err = none := by
      rcases he : (pipe.read r p).err with _ | _ | e
      · rfl
      · rfl
      · rw [he] at hallowed
        exact hallowed.elim
    rw [hnone] at hread
    have ho' := ho.refill (pipe.delivers_conserves _) hr
    rw [hb] at ho'
    have hdrains := opening_drains clpw writer heof hbody hpre ho' hr.start
    refine Pipeline.Drains.later none (n := 1) ?_ ?_ hdrains
    · simp [Pipeline.after, Fifo.final, Pipeline.step, Consumer.turn, hread]
    · simp [Pipeline.labels, Pipeline.results, Fifo.outputs, Pipeline.step, Consumer.turn, hread,
        Fifo.received, PipelineResult.label, Fifo.Label.received]
  | opening ho h0 hpre hb =>
    obtain rfl := Option.some.inj hs
    rw [List.append_nil] at hb
    subst hb
    exact opening_drains clpw writer heof hbody hpre (over_delivers ho hd) h0
  | reading hh hb =>
    obtain rfl := Option.some.inj hs
    rw [List.append_nil] at hb
    subst hb
    exact reading_drains clpw json writer heof hbody ⟨over_delivers hh.buffered hd, hh.deserializer⟩
  | failed => cases hs

end draining

theorem pipeline_delivers {clp : IrReadApi} {clpw : IrWriteApi} {json : JsonApi ε}
    {pipe : Pipe σ ε} {enc : Encoding} (hcodec : Codec clp clpw json) {writerSize : ℕ}
    {timeZoneId : GoString} {now : EpochTimeMs} {writer : Writer}
    (hnew : newWriterSize (ε := ε) clpw enc writerSize timeZoneId now = .ok writer) {r : σ}
    {size : ℕ} (hsize : 0 < size) (hr : pipe.contents r = []) {ops : List (PipelineOp ε)}
    (hreset : ∀ op ∈ ops, op.resets = false) {p : Pipeline σ ε}
    (hp : p = Pipeline.after clp clpw json pipe ⟨writer, .created r size⟩ ops)
    (hflushed : p.writer.bytes = []) {s : σ} (hs : p.consumer.source = some s)
    (hd : pipe.Delivers IoReader.NoError s (pipe.contents s)) :
    ∃ n ls, ls = Pipeline.labels clp clpw json pipe ⟨writer, .created r size⟩
        (ops ++ List.replicate n .reader) ∧
      Fifo.received ls = Fifo.sent
        (Pipeline.labels clp clpw json pipe ⟨writer, .created r size⟩ ops) ∧
      (.close ∈ Pipeline.labels clp clpw json pipe ⟨writer, .created r size⟩ ops →
        .finish ∈ ls) := by
  obtain ⟨metadata, hstart⟩ := pipeline_starts hcodec hnew hsize hr
  obtain ⟨_, q, hrun, hcarries⟩ := pipeline_run hcodec hstart hreset
  subst hp
  obtain ⟨n, _, rfl, hreceived, hfinish⟩ :=
    pipeline_drains clpw hcodec.eof hcarries hflushed hs hd
  refine ⟨n, _, rfl, ?_, fun hc => ?_⟩
  · rw [Pipeline.labels_append, Fifo.received_append, hreceived]
    exact hrun.account.symm
  · rw [Pipeline.labels_append]
    exact List.mem_append_right _ (hfinish (hrun.closes hc))

def SampleCodec.tailed : List (PipelineOp Unit) :=
  [.reader, .writer (.write ⟨ascii "hello", 1005⟩), .writer (.writeTo (.failAfter 3 ())),
    .reader, .writer (.writeTo .discard), .reader, .reader,
    .writer (.write ⟨ascii "bye", 990⟩), .reader, .writer (.closeTo .discard), .reader]

open SampleCodec in
theorem tailed_stream_delivered : ∃ writer,
    newWriterSize (ε := Unit) writeApi .fourByte 16 (ascii "UTC") 1000 = .ok writer ∧
    ∃ n ls, ls = tailedLabels writer (tailed ++ List.replicate n .reader) ∧
      Fifo.received ls = [⟨ascii "hello", 1005⟩, ⟨ascii "bye", 990⟩] ∧ .finish ∈ ls := by
  have hrun : ((newWriterSize (ε := Unit) writeApi .fourByte 16 (ascii "UTC") 1000).toOption.map
      fun writer => decide ((Pipeline.after readApi writeApi jsonApi Pipe.chunked
          ⟨writer, .created [] 4⟩ tailed).writer.bytes = [] ∧
        (Pipeline.after readApi writeApi jsonApi Pipe.chunked
          ⟨writer, .created [] 4⟩ tailed).consumer.source.isSome ∧
        Fifo.sent (tailedLabels writer tailed) = [⟨ascii "hello", 1005⟩, ⟨ascii "bye", 990⟩] ∧
        .close ∈ tailedLabels writer tailed)) = some true := by
    decide +kernel
  obtain ⟨writer, hnew, hfacts⟩ := Option.map_eq_some_iff.mp hrun
  obtain ⟨hflushed, hsource, hsent, hclose⟩ := of_decide_eq_true hfacts
  obtain ⟨s, hs⟩ := Option.isSome_iff_exists.mp hsource
  obtain ⟨n, ls, hls, hreceived, hfinish⟩ := pipeline_delivers codec (ok_of_toOption hnew)
    (by decide) rfl (by decide) rfl hflushed hs (IoReader.chunked_delivers _ s)
  exact ⟨writer, ok_of_toOption hnew, n, ls, hls, hreceived.trans hsent, hfinish hclose⟩

end ClpFfiGo
