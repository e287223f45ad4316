import ClpFfiGo.Operations

namespace ClpFfiGo

variable {σ ε β : Type} {clp : IrReadApi} {json : JsonApi ε}

inductive ReaderCall (clp : IrReadApi) : {β : Type} → Reader.Call ε β → Prop
  | event : ReaderCall clp (deserializeLogEvent clp)
  | search (queries iv) :
      ReaderCall clp (deserializeWildcardMatch clp (mergeWildcardQueries queries) iv)

def Constructing (clp : IrReadApi) (json : JsonApi ε) (io : IoReader σ ε) (r : σ) (size : ℕ)
    (rb : ReadBuf σ) : Prop :=
  ∃ rb₀ n, ReadBuf.read io (ReadBuf.initial r size) = (rb₀, n, none) ∧
    Loop.Turns (newReaderTurn clp json io) rb₀ rb

-- The states of the reader at the start of each turn of each loop, with the bytes consumed: those
-- up to the positions that the preamble and the successful calls reported.
inductive Reachable (clp : IrReadApi) (json : JsonApi ε) (io : IoReader σ ε) (r : σ) (size : ℕ) :
    Reader σ → List UInt8 → Prop
  | constructed {rb rd d pos} : Constructing clp json io r size rb →
      deserializePreamble clp json rb.unread = .ok (d, pos) →
      newReaderTurn clp json io rb = .inr (.ok rd) →
      Reachable clp json io r size rd (rb.unread.take pos)
  | refilled {β : Type} {call : Reader.Call ε β} {rd rd' c} : Reachable clp json io r size rd c →
      ReaderCall clp call → Reader.turn io call rd = .inl rd' →
      Reachable clp json io r size rd' c
  | failed {β : Type} {call : Reader.Call ε β} {rd rd' c err} :
      Reachable clp json io r size rd c → ReaderCall clp call →
      Reader.turn io call rd = .inr (rd', .error err) → Reachable clp json io r size rd' c
  | returned {β : Type} {call : Reader.Call ε β} {rd rd' c d event pos} :
      Reachable clp json io r size rd c → ReaderCall clp call →
      call rd.deserializer rd.unread = (d, .ok (event, pos)) →
      Reader.turn io call rd = .inr (rd', .ok event) →
      Reachable clp json io r size rd' (c ++ rd.unread.take pos)

section bounds

theorem ReaderCall.bounds {call : Reader.Call ε β} (h : ReaderCall clp call)
    {d d' : Deserializer} {b : List UInt8} {event : β} {pos : ℕ}
    (hc : call d b = (d', .ok (event, pos))) : pos ≤ b.length := by
  cases h with
  | event => exact deserializeLogEvent_bounds hc
  | search queries iv => exact deserializeWildcardMatch_bounds hc

theorem ReaderCall.no_panic {call : Reader.Call ε β} (h : ReaderCall clp call)
    {d d' : Deserializer} {b : List UInt8} {err : GoError ε} (hc : call d b = (d', .error err)) :
    err ≠ .panic := by
  cases h with
  | event =>
    rw [deserializeLogEvent] at hc
    split at hc
    · cases hc; simp
    · dsimp only at hc
      split at hc <;> cases hc
      simp
  | search queries iv =>
    rw [deserializeWildcardMatch] at hc
    split at hc
    · cases hc; simp
    · cases hn : d.cptr with
      | none => simp only [Native.deserializeWildcardMatch, hn] at hc; cases hc; simp
      | some n =>
        simp only [Native.deserializeWildcardMatch, hn, splitQueries_view] at hc
        split at hc <;> cases hc <;> simp_all

theorem deserializePreamble_no_panic (b : List UInt8) :
    deserializePreamble clp json b ≠ .error .panic := by
  intro h
  rw [deserializePreamble] at h
  split at h
  · cases h
  · cases hn : Native.newDeserializerWithPreamble clp b with
    | error err => simp [hn] at h
    | ok n =>
      have hb := newDeserializer_bounds hn
      simp only [hn] at h
      rw [Slice.slice?_eq_some (Nat.le_add_right _ _) (by omega)] at h
      split at h
      · cases h
      · dsimp only at h
        split at h <;> cases h

end bounds

theorem newReaderSize_constructed {io : IoReader σ ε} {r : σ} {size fuel : ℕ} {rd : Reader σ}
    (h : newReaderSize clp json io r size fuel = some (.ok rd)) :
    ∃ rb, Constructing clp json io r size rb ∧ newReaderTurn clp json io rb = .inr (.ok rd) := by
  obtain ⟨rb₀, p, hread, -, heq⟩ := newReaderSize_eq clp json io r size
  rw [heq] at h
  cases hio : ReadBuf.ioErr (io.read r p).err with
  | some err => rw [hio] at h; cases h
  | none =>
    rw [hio] at h hread
    obtain ⟨rb, ht, hstop⟩ := (Loop.ends_of_run h).last
    exact ⟨rb, ⟨rb₀, _, hread, ht⟩, hstop⟩

theorem Constructing.next {io : IoReader σ ε} {r : σ} {size : ℕ} {rb rb' : ReadBuf σ}
    (h : Constructing clp json io r size rb) (ht : newReaderTurn clp json io rb = .inl rb') :
    Constructing clp json io r size rb' := by
  obtain ⟨rb₀, n, hread, hturns⟩ := h
  exact ⟨rb₀, n, hread, hturns.tail ht⟩

section rule

-- What holds of the buffer and the consumed bytes from the first read on, whatever is refilled
-- and consumed.
structure ReadBuf.Kept (io : IoReader σ ε) (r : σ) (size : ℕ)
    (P : ReadBuf σ → List UInt8 → Prop) : Prop where
  wf : ∀ {rb c}, P rb c → rb.WF
  initial : ∀ {rb p}, ReadBuf.Refilled io (ReadBuf.initial r size) rb p → P rb []
  refill : ∀ {rb rb' p c}, P rb c → ReadBuf.Refilled io rb rb' p → P rb' c
  consume : ∀ {rb pos c}, P rb c → pos ≤ rb.unread.length →
    P { rb with start := rb.start + pos } (c ++ rb.unread.take pos)

variable {io : IoReader σ ε} {r : σ} {size : ℕ} {P : ReadBuf σ → List UInt8 → Prop}

theorem Constructing.kept (hP : ReadBuf.Kept io r size P) {rb : ReadBuf σ}
    (h : Constructing clp json io r size rb) : P rb [] ∧ rb.start = 0 := by
  obtain ⟨rb₀, n, hr, ht⟩ := h
  obtain ⟨rb₁, p, hi, hf⟩ := initial_spec io r size
  rw [hr] at hi
  simp only [Prod.mk.injEq] at hi
  obtain ⟨rfl, -, -⟩ := hi
  refine ht.invariant (P := fun rb => P rb [] ∧ rb.start = 0) ?_ ⟨hP.initial hf, hf.start⟩
  rintro rb rb' ⟨hp, h0⟩ hstep
  have hcases := construct_cases clp json io (hP.wf hp) h0
  rw [hstep] at hcases
  cases hcases with
  | refilled _ _ hf _ => exact ⟨hP.refill hp hf, hf.start⟩

theorem Reachable.kept (hP : ReadBuf.Kept io r size P) {rd : Reader σ} {c : List UInt8}
    (h : Reachable clp json io r size rd c) : P rd.toReadBuf c := by
  induction h with
  | @constructed rb rd d pos hr hpre hd =>
    obtain ⟨hp, h0⟩ := hr.kept hP
    have hcases := construct_cases clp json io (hP.wf hp) h0
    rw [hd] at hcases
    cases hcases with
    | returned ha =>
      cases hpre.symm.trans ha
      have hp' := hP.consume hp (deserializePreamble_ok hpre).1
      rwa [h0, Nat.zero_add] at hp'
  | @refilled β call rd rd' c _ _ ht ih =>
    have hcases := Reader.turn_cases io call (hP.wf ih)
    rw [ht] at hcases
    cases hcases with
    | refilled _ _ hf _ => exact hP.refill ih hf
  | @failed β call rd rd' c err _ _ ht ih =>
    have hcases := Reader.turn_cases io call (hP.wf ih)
    rw [ht] at hcases
    cases hcases with
    | rejected _ _ => exact ih
    | sourceFailed _ _ hf _ => exact hP.refill ih hf
  | @returned β call rd rd' c d event pos _ hcall hcalled ht ih =>
    have hcases := Reader.turn_cases io call (hP.wf ih)
    rw [ht] at hcases
    cases hcases with
    | returned hc =>
      cases hcalled.symm.trans hc
      exact hP.consume ih (hcall.bounds hcalled)

end rule

section invariant

variable {io : IoReader σ ε} {s : σ} {size : ℕ}

theorem refilled_log {rb rb' : ReadBuf (σ × List UInt8)} {p c : List UInt8}
    (h : ReadBuf.Refilled io.logged rb rb' p) (hc : c ++ rb.unread = rb.ioReader.2) :
    c ++ rb'.unread = rb'.ioReader.2 := by
  rw [h.unread, h.ioReader, IoReader.logged_next, ← List.append_assoc, hc]

theorem wf_kept (io : IoReader σ ε) (r : σ) (size : ℕ) :
    ReadBuf.Kept io r size (fun rb _ => rb.WF) where
  wf h := h
  initial h := h.wf
  refill _ hf := hf.wf
  consume h hp := h.consume hp

theorem Constructing.wf {io : IoReader σ ε} {r : σ} {size : ℕ} {rb : ReadBuf σ}
    (h : Constructing clp json io r size rb) : rb.WF := (h.kept (wf_kept io r size)).1

theorem Constructing.start {io : IoReader σ ε} {r : σ} {size : ℕ} {rb : ReadBuf σ}
    (h : Constructing clp json io r size rb) : rb.start = 0 := (h.kept (wf_kept io r size)).2

theorem Reachable.consumes {io : IoReader σ ε} {r : σ} {rd rd' : Reader σ} {c : List UInt8}
    (h : Reachable clp json io r size rd c) {call : Reader.Call ε β} (hcall : ReaderCall clp call)
    {event : β} (ht : Reader.turn io call rd = .inr (rd', .ok event)) :
    ∃ d pos, call rd.deserializer rd.unread = (d, .ok (event, pos)) ∧ pos ≤ rd.unread.length ∧
      Reachable clp json io r size rd' (c ++ rd.unread.take pos) := by
  have hcases := Reader.turn_cases io call (h.kept (wf_kept io r size))
  rw [ht] at hcases
  cases hcases with
  | @returned d event pos hc => exact ⟨d, pos, hc, hcall.bounds hc, .returned h hcall hc ht⟩

theorem consume_log {rb : ReadBuf (σ × List UInt8)} {c : List UInt8} {pos : ℕ}
    (hc : c ++ rb.unread = rb.ioReader.2) :
    c ++ rb.unread.take pos ++ ReadBuf.unread { rb with start := rb.start + pos } =
      rb.ioReader.2 := by
  rw [ReadBuf.unread_consume, List.append_assoc, List.take_append_drop, hc]

theorem log_kept (io : IoReader σ ε) (s : σ) (size : ℕ) : ReadBuf.Kept io.logged (s, []) size
    (fun rb c => rb.WF ∧ c ++ rb.unread = rb.ioReader.2) where
  wf h := h.1
  initial h := ⟨h.wf, refilled_log h (by simp [ReadBuf.initial, ReadBuf.unread])⟩
  refill h hf := ⟨hf.wf, refilled_log hf h.2⟩
  consume h hp := ⟨h.1.consume hp, consume_log h.2⟩

theorem constructing_invariant {rb : ReadBuf (σ × List UInt8)}
    (h : Constructing clp json io.logged (s, []) size rb) :
    rb.WF ∧ rb.start = 0 ∧ rb.unread = rb.ioReader.2 := by
  obtain ⟨⟨hw, hu⟩, h0⟩ := h.kept (log_kept io s size)
  exact ⟨hw, h0, by simpa using hu⟩

theorem reachable_invariant {rd : Reader (σ × List UInt8)} {c : List UInt8}
    (h : Reachable clp json io.logged (s, []) size rd c) :
    rd.WF ∧ c ++ rd.unread = rd.ioReader.2 := h.kept (log_kept io s size)

theorem call_reachable {call : Reader.Call ε β} (hcall : ReaderCall clp call) (c : List UInt8) :
    Loop.Keeps (fun rd => ∃ x, Reachable clp json io.logged (s, []) size rd (c ++ x))
      (fun err => err ≠ .panic) (Loop.run (Reader.turn io.logged call)) := by
  apply Loop.keeps_run
  · rintro rd rd' ⟨x, h⟩ ht
    exact ⟨x, .refilled h hcall ht⟩
  · rintro rd rd' res ⟨x, h⟩ ht
    have hcases := Reader.turn_cases io.logged call (reachable_invariant h).1
    rw [ht] at hcases
    cases res with
    | ok event =>
      obtain ⟨_, pos, _, _, hrd'⟩ := h.consumes hcall ht
      rw [List.append_assoc] at hrd'
      exact ⟨⟨_, hrd'⟩, by simp⟩
    | error err =>
      refine ⟨⟨x, .failed h hcall ht⟩, ?_⟩
      rintro _ ⟨⟩
      cases hcases with
      | rejected hc _ => exact hcall.no_panic hc
      | sourceFailed => simp

theorem execAll_reachable {ops : List ReaderOp} {fuel : ℕ} {rd rd' : Reader (σ × List UInt8)}
    {c : List UInt8} {results : List (OpResult ε)}
    (h : Reachable clp json io.logged (s, []) size rd c)
    (he : execAll clp io.logged fuel rd ops = some (rd', results)) :
    .error .panic ∉ results ∧ ∃ x, Reachable clp json io.logged (s, []) size rd' (c ++ x) := by
  have hstart : ∃ x, Reachable clp json io.logged (s, []) size rd (c ++ x) := ⟨[], by simpa using h⟩
  obtain ⟨hrd', herr⟩ := execAll_keeps (fun op _ => exec_keeps (call_reachable .event c) op
    (fun _ queries iv => call_reachable (.search queries iv) c)) hstart he
  exact ⟨fun hp => herr _ hp rfl, hrd'⟩

theorem construct_reachable {rb : ReadBuf (σ × List UInt8)}
    {res : Except (GoError ε) (Reader (σ × List UInt8))}
    (h : Constructing clp json io.logged (s, []) size rb)
    (he : newReaderTurn clp json io.logged rb = .inr res) :
    res ≠ .error .panic ∧
      ∀ rd, res = .ok rd → ∃ c, Reachable clp json io.logged (s, []) size rd c := by
  obtain ⟨hw, h0, _⟩ := constructing_invariant h
  have hcases := construct_cases clp json io.logged hw h0
  rw [he] at hcases
  cases hcases with
  | @returned d pos hp =>
    refine ⟨by simp, ?_⟩
    rintro rd ⟨⟩
    exact ⟨_, .constructed h hp he⟩
  | @rejected err hp _ =>
    refine ⟨?_, by simp⟩
    rintro ⟨⟩
    exact deserializePreamble_no_panic _ hp
  | sourceFailed => exact ⟨by simp, by simp⟩

theorem newReaderSize_reachable {fuel : ℕ} {res : Except (GoError ε) (Reader (σ × List UInt8))}
    (h : newReaderSize clp json io.logged (s, []) size fuel = some res) :
    res ≠ .error .panic ∧
      ∀ rd, res = .ok rd → ∃ c, Reachable clp json io.logged (s, []) size rd c := by
  obtain ⟨rb₀, p, hread, -, heq⟩ := newReaderSize_eq clp json io.logged (s, []) size
  rw [heq fuel] at h
  rcases hio : (io.logged.read (s, []) p).err with _ | ⟨⟩ | e
  case some.other =>
    rw [hio] at h
    cases h
    exact ⟨by simp, by simp⟩
  all_goals
    rw [hio] at h hread
    obtain ⟨rb, ht, hstop⟩ := (Loop.ends_of_run h).last
    exact construct_reachable ⟨rb₀, _, hread, ht⟩ hstop

theorem buffer_invariant (clp : IrReadApi) (json : JsonApi ε) (io : IoReader σ ε) (s : σ)
    (size : ℕ) :
    (∀ rb, Constructing clp json io.logged (s, []) size rb →
      rb.start ≤ rb.stop ∧ rb.stop ≤ rb.buf.length ∧ rb.unread = rb.ioReader.2) ∧
    (∀ rd c, Reachable clp json io.logged (s, []) size rd c →
      rd.start ≤ rd.stop ∧ rd.stop ≤ rd.buf.length ∧ c ++ rd.unread = rd.ioReader.2) ∧
    (∀ rd c, Reachable clp json io.logged (s, []) size rd c → ∀ {β : Type}
      (call : Reader.Call ε β), ReaderCall clp call → ∀ rd' event,
      Reader.turn io.logged call rd = .inr (rd', .ok event) →
      ∃ d pos, call rd.deserializer rd.unread = (d, .ok (event, pos)) ∧ pos ≤ rd.unread.length ∧
        Reachable clp json io.logged (s, []) size rd' (c ++ rd.unread.take pos)) ∧
    (∀ fuel res, newReaderSize clp json io.logged (s, []) size fuel = some res →
      res ≠ .error .panic ∧
      ∀ rd, res = .ok rd → ∃ c, Reachable clp json io.logged (s, []) size rd c) ∧
    (∀ rd c ops fuel rd' results, Reachable clp json io.logged (s, []) size rd c →
      execAll clp io.logged fuel rd ops = some (rd', results) →
      .error .panic ∉ results ∧
      ∃ x, Reachable clp json io.logged (s, []) size rd' (c ++ x)) := by
  refine ⟨?_, ?_, ?_, ?_, ?_⟩
  · intro rb h
    obtain ⟨hw, _, hu⟩ := constructing_invariant h
    exact ⟨hw.start_le, hw.stop_le, hu⟩
  · intro rd c h
    obtain ⟨hw, hu⟩ := reachable_invariant h
    exact ⟨hw.start_le, hw.stop_le, hu⟩
  · intro rd c h β call hcall rd' event ht
    exact h.consumes hcall ht
  · intro fuel res h
    exact newReaderSize_reachable h
  · intro rd c ops fuel rd' results h he
    exact execAll_reachable h he

end invariant

namespace SampleCodec

open IoReader

def single : List UInt8 := stream .eightByte (ascii "UTC") 0 [(ascii "a", 5)]

theorem single_run : ∃ rd rd',
    newReaderSize readApi jsonApi source.logged (bytewise single, []) 1 256 = some (.ok rd) ∧
    execAll readApi source.logged 256 rd [.read, .read] =
      some (rd', [.ok (⟨ascii "a", 5⟩, none), .error (.ir .endOfIr)]) ∧
    [rd.unread, rd.ioReader.2, rd'.unread, rd'.ioReader.2] =
      [[], preamble .eightByte (text .eightByte (ascii "UTC") 0), [0], single] := by
  have hrun : (newReaderSize readApi jsonApi source.logged (bytewise single, []) 1 256).bind
      (fun res => res.toOption.bind fun rd =>
        (execAll readApi source.logged 256 rd [.read, .read]).map fun out =>
          (out.2, [rd.unread, rd.ioReader.2, out.1.unread, out.1.ioReader.2])) =
      some ([.ok (⟨ascii "a", 5⟩, none), .error (.ir .endOfIr)],
        [[], preamble .eightByte (text .eightByte (ascii "UTC") 0), [0], single]) := by
    decide +kernel
  obtain ⟨res, hopen, hrun⟩ := Option.bind_eq_some_iff.mp hrun
  obtain ⟨rd, hrd, hrun⟩ := Option.bind_eq_some_iff.mp hrun
  obtain ⟨⟨rd', results⟩, hops, hrun⟩ := Option.map_eq_some_iff.mp hrun
  obtain ⟨rfl, hbytes⟩ := Prod.mk.inj hrun
  rw [ok_of_toOption hrd] at hopen
  exact ⟨rd, rd', hopen, hops, hbytes⟩

end SampleCodec

open SampleCodec IoReader in
theorem bytewise_buffer_invariant : ∃ rd rd' c x,
    newReaderSize readApi jsonApi source.logged (bytewise single, []) 1 256 = some (.ok rd) ∧
    execAll readApi source.logged 256 rd [.read, .read] =
      some (rd', [.ok (⟨ascii "a", 5⟩, none), .error (.ir .endOfIr)]) ∧
    Reachable readApi jsonApi source.logged (bytewise single, []) 1 rd c ∧
    Reachable readApi jsonApi source.logged (bytewise single, []) 1 rd' (c ++ x) ∧
    c = preamble .eightByte (text .eightByte (ascii "UTC") 0) ∧
    x = event .eightByte (ascii "a") 5 ∧ rd'.unread = [0] := by
  obtain ⟨rd, rd', hopen, hops, hrun⟩ := single_run
  simp only [List.cons.injEq, and_true] at hrun
  obtain ⟨hunread, hreceived, hunread', hreceived'⟩ := hrun
  obtain ⟨_, hbytes, _, hnew, hexec⟩ := buffer_invariant readApi jsonApi source (bytewise single) 1
  obtain ⟨c, hrd⟩ := (hnew 256 _ hopen).2 rd rfl
  obtain ⟨_, x, hrd'⟩ := hexec rd c _ 256 rd' _ hrd hops
  have hc := (hbytes rd c hrd).2.2
  have hx := (hbytes rd' (c ++ x) hrd').2.2
  rw [hunread, hreceived, List.append_nil] at hc
  have hsingle : single = c ++ (event .eightByte (ascii "a") 5 ++ [0]) := by
    rw [hc, single, stream]
    simp
  rw [hunread', hreceived', hsingle, List.append_assoc] at hx
  have htail := List.append_cancel_left hx
  exact ⟨rd, rd', c, x, hopen, hops, hrd, hrd', hc, List.append_cancel_right htail, hunread'⟩

end ClpFfiGo
