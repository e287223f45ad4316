import ClpFfiGo.ReaderBuffer

namespace ClpFfiGo

variable {σ ε S R : Type} {clp : IrReadApi} {json : JsonApi ε} {io : IoReader σ ε} {r : σ}
  {size : ℕ}

-- `buf s` is the buffer of the state `s` of a refill loop with the turns `step`.
structure Progress (io : IoReader σ ε) (step : S → S ⊕ R) (buf : S → ReadBuf σ) (s : S) :
    Prop where
  room : 0 < (buf s).passed.length
  enlarges : ∀ k t, Loop.Fed step (fun s => ((buf s).fillBuf io).2.1) k s t →
    (buf s).unread.length + k ≤ (buf t).unread.length
  holds : ∀ allowed rest, io.Delivers allowed (buf s).ioReader rest →
    ∀ n ≤ (buf s).unread.length + rest.length,
      ∃ t, Loop.Turns step s t ∧ (n ≤ (buf t).unread.length ∨ ∃ res, step t = .inr res)

structure RefillsProgress (clp : IrReadApi) (json : JsonApi ε) (io : IoReader σ ε) (r : σ)
    (size : ℕ) : Prop where
  constructing : ∀ rb, Constructing clp json io r size rb →
    Progress io (newReaderTurn clp json io) id rb
  reading : ∀ rd c, Reachable clp json io r size rd c → ∀ {β : Type} (call : Reader.Call ε β),
    ReaderCall clp call → Progress io (Reader.turn io call) Reader.toReadBuf rd

section loops

variable {step : S → S ⊕ R} {buf : S → ReadBuf σ} {P : S → Prop}

structure Refilling (io : IoReader σ ε) (step : S → S ⊕ R) (buf : S → ReadBuf σ)
    (P : S → Prop) : Prop where
  wf : ∀ {s}, P s → (buf s).WF
  room : ∀ {s}, P s → 0 < (buf s).buf.length
  turn : ∀ {s t}, P s → step s = .inl t → P t ∧ buf t = ((buf s).fillBuf io).1

namespace Refilling

theorem refilled (h : Refilling io step buf P) {s t : S} (hs : P s) (ht : step s = .inl t) :
    ReadBuf.Refilled io (buf s) (buf t) (buf s).passed := by
  rw [(h.turn hs ht).2]
  exact ReadBuf.fillBuf_refilled io (h.wf hs)

theorem length_unread (h : Refilling io step buf P) {s t : S} (hs : P s) (ht : step s = .inl t) :
    (buf t).unread.length = (buf s).unread.length + ((buf s).fillBuf io).2.1 := by
  rw [(h.refilled hs ht).unread, List.length_append, IoReader.length_data,
    ReadBuf.fillBuf_passed io (h.wf hs)]

theorem holds (h : Refilling io step buf P) {allowed : ε → Prop} {q : σ} {rest : List UInt8}
    (hd : io.Delivers allowed q rest) {s : S} (hs : P s) (hq : (buf s).ioReader = q) {n : ℕ}
    (hn : n ≤ (buf s).unread.length + rest.length) :
    ∃ t, Loop.Turns step s t ∧ (n ≤ (buf t).unread.length ∨ ∃ res, step t = .inr res) := by
  induction hd generalizing s with
  | drained _ => exact ⟨s, .refl, .inl hn⟩
  | @chunk q b hdata _ _ ih =>
    cases ht : step s with
    | inr res => exact ⟨s, .refl, .inr ⟨res, ht⟩⟩
    | inl t =>
      have hr := h.refilled hs ht
      have hp := hr.room (h.room hs)
      have hlen := congrArg List.length (IoReader.data_append_drop (hdata _ hp))
      have hu := congrArg List.length hr.unread
      rw [hq] at hu
      rw [List.length_append] at hlen hu
      obtain ⟨u, hturns, hstop⟩ := ih _ hp (h.turn hs ht).1 (by rw [hr.ioReader, hq]) (by omega)
      exact ⟨u, .head ht hturns, hstop⟩

theorem progress (h : Refilling io step buf P) {s : S} (hs : P s) : Progress io step buf s where
  room := ReadBuf.passed_room (h.wf hs) (h.room hs)
  enlarges _ _ hfed := hfed.grows (P := P) (m := fun s => (buf s).unread.length)
    (fun _ _ hp ht => ⟨(h.turn hp ht).1, h.length_unread hp ht⟩) hs
  holds _ _ hd _ hn := h.holds hd hs rfl hn

end Refilling

end loops

theorem room_kept (io : IoReader σ ε) (r : σ) (hsize : 0 < size) :
    ReadBuf.Kept io r size (fun rb _ => rb.WF ∧ 0 < rb.buf.length) where
  wf h := h.1
  initial h := ⟨h.wf, lt_of_lt_of_le (by simpa [ReadBuf.initial] using hsize) h.length⟩
  refill h hf := ⟨hf.wf, lt_of_lt_of_le h.2 hf.length⟩
  consume h hp := ⟨h.1.consume hp, h.2⟩

theorem constructing_refilling (clp : IrReadApi) (json : JsonApi ε) (io : IoReader σ ε) :
    Refilling io (newReaderTurn clp json io) id
      (fun rb => (rb.WF ∧ 0 < rb.buf.length) ∧ rb.start = 0) where
  wf h := h.1.1
  room h := h.1.2
  turn {rb rb'} h ht := by
    have heq := newReaderTurn_inl h.2 ht
    have hr := ReadBuf.fillBuf_refilled io h.1.1
    rw [← heq] at hr
    exact ⟨⟨⟨hr.wf, lt_of_lt_of_le h.1.2 hr.length⟩, hr.start⟩, heq⟩

theorem reading_refilling {β : Type} (io : IoReader σ ε) (call : Reader.Call ε β) :
    Refilling io (Reader.turn io call) Reader.toReadBuf
      (fun rd => rd.WF ∧ 0 < rd.buf.length) where
  wf h := h.1
  room h := h.2
  turn {rd rd'} h ht := by
    have heq := Reader.turn_inl ht
    have hr := ReadBuf.fillBuf_refilled io h.1
    rw [← heq] at hr
    exact ⟨⟨hr.wf, lt_of_lt_of_le h.2 hr.length⟩, heq⟩

variable (clp json) in
theorem empty_constructing (hr : ReadBuf.ioErr (io.read r []).err = none) :
    ∃ rb, Constructing clp json io r 0 rb ∧ rb.passed.length = 0 := by
  have hw : (ReadBuf.initial r 0).WF := ⟨le_refl _, Nat.zero_le _⟩
  have hread : ReadBuf.read io (ReadBuf.initial r 0) = _ := ReadBuf.read_eq hw
  have hp := io.length_p r []
  simp only [ReadBuf.initial, List.replicate_zero, List.drop_nil, hr] at hread
  refine ⟨_, ⟨_, _, hread, .refl⟩, ?_⟩
  rw [ReadBuf.length_passed, ReadBuf.length_compacted]
  simp [ReadBuf.afterRead, hp]

theorem Constructing.first_read {rb : ReadBuf σ} (h : Constructing clp json io r size rb) :
    ReadBuf.ioErr (io.read r (List.replicate size 0)).err = none := by
  obtain ⟨rb₀, n, hread, -⟩ := h
  rw [ReadBuf.read_eq ⟨le_refl _, Nat.zero_le _⟩] at hread
  exact congrArg (fun x => x.2.2) hread

theorem Reachable.first_read {rd : Reader σ} {c : List UInt8}
    (h : Reachable clp json io r size rd c) :
    ReadBuf.ioErr (io.read r (List.replicate size 0)).err = none := by
  induction h with
  | constructed hr _ _ => exact hr.first_read
  | refilled _ _ _ ih => exact ih
  | failed _ _ _ ih => exact ih
  | returned _ _ _ _ ih => exact ih

theorem refills_progress_iff (clp : IrReadApi) (json : JsonApi ε) (io : IoReader σ ε) (r : σ)
    (size : ℕ) : RefillsProgress clp json io r size ↔
      0 < size ∨ ∃ e, (io.read r (List.replicate size 0)).err = some (.other e) := by
  constructor
  · intro h
    by_contra hno
    rw [not_or, Nat.not_lt, Nat.le_zero] at hno
    obtain ⟨rfl, herr⟩ := hno
    have hio : ReadBuf.ioErr (io.read r []).err = none := by
      rcases he : (io.read r []).err with _ | ⟨⟩ | e
      · rfl
      · rfl
      · exact absurd ⟨e, he⟩ herr
    obtain ⟨rb, hrb, hzero⟩ := empty_constructing clp json hio
    have hroom := (h.constructing rb hrb).room
    exact absurd hzero (Nat.ne_of_gt hroom)
  · rintro (hsize | ⟨e, he⟩)
    · constructor
      · intro rb hrb
        exact (constructing_refilling clp json io).progress (hrb.kept (room_kept io r hsize))
      · intro rd c hrd β call _
        exact (reading_refilling io call).progress (hrd.kept (room_kept io r hsize))
    · constructor
      · intro rb hrb
        have hfirst := hrb.first_read
        rw [he] at hfirst
        cases hfirst
      · intro rd c hrd
        have hfirst := hrd.first_read
        rw [he] at hfirst
        cases hfirst

section stuck

variable {c : List UInt8} {cs : List (List UInt8)}

theorem chunked_read_empty (hc : 0 < c.length) :
    (IoReader.chunked (ε := ε)).read (c :: cs) [] = ⟨0, [], none, c :: cs⟩ := by
  have hne : ¬ c.length ≤ ([] : List UInt8).length := Nat.not_le.mpr hc
  simp only [IoReader.chunked]
  rw [if_neg hne]
  simp

theorem empty_buffer_turn (clp : IrReadApi) (json : JsonApi ε) (hc : 0 < c.length) :
    newReaderTurn clp json IoReader.chunked ⟨c :: cs, [], 0, 0⟩ = .inl ⟨c :: cs, [], 0, 0⟩ := by
  have hread : (IoReader.chunked (ε := ε)).read (c :: cs) [] = _ := chunked_read_empty hc
  simp [newReaderTurn, Slice.slice?, deserializePreamble, GoError.isIncomplete,
    ReadBuf.fillBuf, ReadBuf.read, Slice.copy, hread]

theorem empty_buffer_read (hc : 0 < c.length) :
    ReadBuf.read (IoReader.chunked (ε := ε)) ⟨c :: cs, List.replicate 0 0, 0, 0⟩ =
      (⟨c :: cs, [], 0, 0⟩, 0, none) := by
  simp [ReadBuf.read, Slice.slice?, chunked_read_empty hc]

theorem empty_buffer_none (clp : IrReadApi) (json : JsonApi ε) (hc : 0 < c.length) (fuel : ℕ) :
    newReaderSize clp json IoReader.chunked (c :: cs) 0 fuel = none := by
  rw [newReaderSize, empty_buffer_read hc, Option.eq_none_iff_forall_ne_some]
  intro res hrun
  refine Loop.not_ends (P := fun rb => rb = ⟨c :: cs, [], 0, 0⟩) ?_ rfl (Loop.ends_of_run hrun)
  rintro _ rfl
  exact ⟨_, empty_buffer_turn clp json hc, rfl⟩

end stuck

open SampleCodec IoReader in
theorem empty_buffer_spins : ∃ b rb,
    b = stream .eightByte (ascii "UTC") 0 [(ascii "a", 5)] ∧
    Constructing readApi jsonApi source (bytewise b) 0 rb ∧ rb.passed = [] ∧
    ¬ RefillsProgress readApi jsonApi source (bytewise b) 0 ∧
    ∀ fuel, newReaderSize readApi jsonApi source (bytewise b) 0 fuel = none := by
  obtain ⟨x, xs, hb⟩ : ∃ x xs, stream .eightByte (ascii "UTC") 0 [(ascii "a", 5)] = x :: xs :=
    List.exists_cons_of_ne_nil (by decide +kernel)
  have hc : 0 < [x].length := Nat.one_pos
  have hrb : Constructing readApi jsonApi source (bytewise (x :: xs)) 0
      ⟨bytewise (x :: xs), [], 0, 0⟩ := ⟨_, _, empty_buffer_read hc, .refl⟩
  refine ⟨x :: xs, _, hb.symm, hrb, rfl, ?_, empty_buffer_none readApi jsonApi hc⟩
  intro h
  have hroom := (h.constructing _ hrb).room
  exact absurd hroom (Nat.lt_irrefl 0)

end ClpFfiGo
