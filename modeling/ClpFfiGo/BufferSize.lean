import ClpFfiGo.Operations
import ClpFfiGo.ReaderBuffer
import ClpFfiGo.SampleCodec

namespace ClpFfiGo

variable {σ ε β : Type} {clp : IrReadApi} {json : JsonApi ε} {io : IoReader σ ε} {enc : Encoding}
  {metadata : Metadata} {pre : List UInt8} {ps : List (List UInt8)}
  {is : List (GoString × EpochTimeMs)}

def largest (items : List (List UInt8)) : ℕ := (items.map List.length).foldr max 0

-- The states of the reader at the start of each turn of the loop in `Read`.
inductive Reading (clp : IrReadApi) (json : JsonApi ε) (io : IoReader σ ε) (r : σ) (size : ℕ) :
    Reader σ → Prop
  | constructed {rb rd} : Constructing clp json io r size rb →
      newReaderTurn clp json io rb = .inr (.ok rd) → Reading clp json io r size rd
  | refilled {rd rd'} : Reading clp json io r size rd → Reader.readTurn clp io rd = .inl rd' →
      Reading clp json io r size rd'
  | returned {rd rd' res} : Reading clp json io r size rd →
      Reader.readTurn clp io rd = .inr (rd', res) → Reading clp json io r size rd'

theorem length_le_largest {items : List (List UInt8)} {p : List UInt8} (h : p ∈ items) :
    p.length ≤ largest items := by
  induction items with
  | nil => cases h
  | cons q items ih =>
    rw [largest, List.map_cons, List.foldr_cons]
    rcases List.mem_cons.mp h with rfl | h
    · exact Nat.le_max_left _ _
    · exact (ih h).trans (Nat.le_max_right _ _)

section growth

-- The buffer only doubles when more than half of it is unread, and the unread part is short.
theorem length_grown {rb : ReadBuf σ} {size M : ℕ} (h : rb.WF) (hu : rb.unread.length ≤ M - 1)
    (hb : rb.buf.length ≤ max size (4 * M)) : rb.compacted.buf.length ≤ max size (4 * M) := by
  rw [h.length_unread] at hu
  rw [ReadBuf.length_compacted]
  split
  · rename_i hgt
    have hdouble : rb.buf.length * 2 ≤ 4 * M := by omega
    exact hdouble.trans (Nat.le_max_right _ _)
  · exact hb

theorem turn_length (io : IoReader σ ε) (call : Reader.Call ε β) {rd : Reader σ} (h : rd.WF) :
    ((Reader.turn io call rd).elim id Prod.fst).buf.length = rd.buf.length ∨
      (∃ d err, call rd.deserializer rd.unread = (d, .error err) ∧ err.isIncomplete = true) ∧
      ((Reader.turn io call rd).elim id Prod.fst).buf.length = rd.compacted.buf.length := by
  have hfill := ReadBuf.length_fillBuf io h
  rw [Reader.turn, h.slice]
  dsimp only
  split
  · exact .inl rfl
  · rename_i d err hc
    split
    · rename_i hm
      right
      refine ⟨⟨d, err, hc, hm⟩, ?_⟩
      split
      · rename_i hf
        rw [hf] at hfill
        exact hfill
      · rename_i hf
        rw [hf] at hfill
        exact hfill
    · exact .inl rfl

end growth

section stream

theorem EofByte.within (h : EofByte clp) (M : ℕ) : (itemDecoder clp enc).Within M [0] := by
  intro c u hc hu he
  have hdec : (itemDecoder clp enc).dec [0] = .error .eof := h.dec []
  cases hc with
  | item hd _ => rw [hdec] at hd; cases hd
  | refl =>
    rcases List.eq_nil_or_concat u with rfl | ⟨_, _, rfl⟩
    · exact Nat.zero_le _
    · have hk := hu.length_le
      rw [hu.eq_of_length_le (by simp at hk ⊢), hdec] at he
      cases he

theorem PreambleBytes.short (h : PreambleBytes clp json enc metadata pre) {M : ℕ}
    (hM : pre.length ≤ M) {rest u : List UInt8} (hu : u <+: pre ++ rest) {err : GoError ε}
    (he : deserializePreamble clp json u = .error err) : u.length ≤ M - 1 := by
  by_cases hp : pre <+: u
  · obtain ⟨r, rfl⟩ := hp
    by_cases h0 : 0 < (pre ++ r).length
    · rw [h.answer r h0] at he
      cases he
    · omega
  · have hs := (List.prefix_or_prefix_of_prefix hu (List.prefix_append pre rest)).resolve_right hp
    have hne : u.length ≠ pre.length := by
      intro hl
      exact hp (hs.eq_of_length hl ▸ List.prefix_rfl)
    have hlt := hs.length_le.lt_of_ne hne
    omega

variable {M size : ℕ} {s : σ} {d : Deserializer}

theorem constructing_bounded (hpre : PreambleBytes clp json enc metadata pre)
    (hM : pre.length ≤ M) {src : σ → List UInt8 → Prop} (hsrc : io.Conserves src)
    {rest : List UInt8} (hsize : 0 < size) (hs : src s (pre ++ rest)) {rb : ReadBuf σ}
    (h : Constructing clp json io s size rb) :
    rb.Over src (pre ++ rest) ∧ rb.start = 0 ∧ rb.buf.length ≤ max size (4 * M) := by
  obtain ⟨rb₀, n, hread, hturns⟩ := h
  have hw : (ReadBuf.initial s size).WF := ⟨le_refl _, Nat.zero_le _⟩
  have hr := ReadBuf.refilled_of_read io hw rfl id
  have hlen := io.length_p s (List.replicate size 0)
  rw [ReadBuf.read_eq hw] at hread
  obtain ⟨rfl, -⟩ := Prod.mk.inj hread
  refine hturns.invariant (P := fun rb => rb.Over src (pre ++ rest) ∧ rb.start = 0 ∧
    rb.buf.length ≤ max size (4 * M)) ?_ ⟨?_, hr.start, ?_⟩
  · rintro rb rb' ⟨ho, h0, hb⟩ ht
    obtain ⟨ho', h0'⟩ := construct_keeps hsrc ho h0 ht
    refine ⟨ho', h0', ?_⟩
    rw [newReaderTurn_inl h0 ht, ReadBuf.length_fillBuf io ho.wf]
    have hcases := construct_cases clp json io ho.wf h0
    rw [ht] at hcases
    cases hcases with
    | refilled ha _ _ _ => exact length_grown ho.wf (hpre.short hM ho.unread_prefix ha) hb
  · exact (ReadBuf.Over.initial hsize hs).refill hsrc hr
  · simp [ReadBuf.afterRead, ReadBuf.initial, hlen]

structure Reader.Bounded (clp : IrReadApi) (io : IoReader σ ε) (d : Deserializer) (M bound : ℕ)
    (rd : Reader σ) : Prop where
  size : rd.buf.length ≤ bound
  place : ∃ t b, rd.Holds io.Feeds d ⟨t, b⟩ ∧ (itemDecoder clp d.encoding).Regular b ∧
    (itemDecoder clp d.encoding).Within M b

theorem readTurn_bounded {rd : Reader σ} (h : rd.Bounded clp io d M (max size (4 * M))) :
    ((Reader.readTurn clp io rd).elim id Prod.fst).Bounded clp io d M (max size (4 * M)) := by
  obtain ⟨hb, t, b, hh, hr, hw⟩ := h
  have hlength : ((Reader.readTurn clp io rd).elim id Prod.fst).buf.length ≤ max size (4 * M) := by
    rcases turn_length io (deserializeLogEvent clp) hh.buffered.wf with
      hl | ⟨⟨d', err, hc, hm⟩, hl⟩
    · exact hl.le.trans hb
    · rw [hh.deserializer, deserializeLogEvent_at] at hc
      have hdec := (readAnswer_incomplete hc).2.mp hm
      have hshort := hw b _ .refl hh.buffered.unread_prefix hdec
      exact hl.le.trans (length_grown hh.buffered.wf hshort hb)
  refine ⟨hlength, ?_⟩
  cases ht : Reader.readTurn clp io rd with
  | inl rd' =>
    obtain ⟨ho, hd⟩ := Reader.turn_keeps IoReader.feeds_conserves
      (read_settles (ε := ε) (t := t) hr.settled) hh.buffered hh.deserializer trivial ht
    exact ⟨t, b, ⟨ho, hd⟩, hr, hw⟩
  | inr r =>
    obtain ⟨rd', res⟩ := r
    rcases read_refines IoReader.feeds_conserves hr.settled hh (.stop ht) with
      ⟨_, _, _, h'⟩ | ⟨c', hc, h'⟩
    · exact ⟨t, b, h', hr, hw⟩
    · have hafter := Cursor.read_after hc
      exact ⟨_, _, h', hafter.regular hr, hw.after hafter⟩

theorem reading_bounded (heof : EofByte clp) (hpre : PreambleBytes clp json enc metadata pre)
    (hps : List.Forall₂ (EventBytes clp enc) ps is) (hM : ∀ p ∈ pre :: ps, p.length ≤ M)
    (hsize : 0 < size) (hs : io.Feeds s (pre ++ (ps.flatten ++ [0]))) {rd : Reader σ}
    (h : Reading clp json io s size rd) :
    rd.Bounded clp io (newDeserializer enc metadata ⟨0⟩) M (max size (4 * M)) := by
  rw [List.forall_mem_cons] at hM
  induction h with
  | @constructed rb rd hrb hd =>
    obtain ⟨ho, h0, hb⟩ := constructing_bounded hpre hM.1 IoReader.feeds_conserves hsize hs hrb
    have hbuilt := construct_built (hpre.settled _) ho h0 hd
    have hbuf : rd.buf = rb.buf := by
      have hcases := construct_cases clp json io ho.wf h0
      rw [hd] at hcases
      cases hcases
      rfl
    have hlen : 0 < (pre ++ (ps.flatten ++ [0])).length := by
      simp only [List.length_append, List.length_singleton]
      omega
    have hexact : List.Forall₂ (itemDecoder clp enc).Exact ps is := hps.imp fun _ _ hp => hp.exact
    cases hbuilt with
    | @returned rd d t pos he hdt hh =>
      rw [hpre.answer _ hlen] at he
      obtain ⟨rfl, rfl⟩ := Prod.mk.inj (Except.ok.inj he)
      rw [List.drop_left] at hh
      refine ⟨?_, t, _, hh, ?_, ?_⟩
      · rwa [hbuf]
      · rw [encoding_newDeserializer]
        exact ItemDecoder.regular_items hexact heof.regular
      · rw [encoding_newDeserializer]
        exact ItemDecoder.within_items hexact hM.2 (heof.within M)
  | refilled _ ht ih =>
    have hb := readTurn_bounded ih
    rwa [ht] at hb
  | returned _ ht ih =>
    have hb := readTurn_bounded ih
    rwa [ht] at hb

theorem read_keeps_reading :
    Loop.Keeps (Reading clp json io s size) (fun _ => True) (Reader.read clp io) :=
  Loop.keeps_run (fun _ _ hp ht => .refilled hp ht)
    (fun _ _ _ hp ht => ⟨.returned hp ht, fun _ _ => trivial⟩)

theorem newReaderSize_reading {fuel : ℕ} {rd : Reader σ}
    (h : newReaderSize clp json io s size fuel = some (.ok rd)) :
    Reading clp json io s size rd := by
  obtain ⟨rb, hrb, hstop⟩ := newReaderSize_constructed h
  exact .constructed hrb hstop

theorem buffer_proportional (heof : EofByte clp)
    (hpre : PreambleBytes clp json enc metadata pre)
    (hps : List.Forall₂ (EventBytes clp enc) ps is) (hsize : 0 < size)
    (hs : io.Feeds s (pre ++ (ps.flatten ++ [0]))) :
    (∀ rb, Constructing clp json io s size rb →
      rb.buf.length ≤ max size (4 * largest (pre :: ps))) ∧
    (∀ rd, Reading clp json io s size rd →
      rd.buf.length ≤ max size (4 * largest (pre :: ps))) ∧
    (∀ fuel rd, newReaderSize clp json io s size fuel = some (.ok rd) →
      Reading clp json io s size rd) ∧
    ∀ rd ops fuel rd' results, Reading clp json io s size rd →
      (∀ op ∈ ops, op.searches = false) →
      execAll clp io fuel rd ops = some (rd', results) → Reading clp json io s size rd' := by
  refine ⟨?_, ?_, ?_, ?_⟩
  · intro rb hrb
    exact (constructing_bounded hpre (length_le_largest (by simp)) IoReader.feeds_conserves hsize hs
      hrb).2.2
  · intro rd hrd
    exact (reading_bounded heof hpre hps (fun _ => length_le_largest) hsize hs hrd).size
  · intro fuel rd h
    exact newReaderSize_reading h
  · intro rd ops fuel rd' results hrd hops he
    have hexec : ∀ op ∈ ops, Loop.Keeps (Reading clp json io s size) (fun _ => True)
        (fun fuel rd => ReaderOp.exec clp io fuel rd op) := by
      intro op hop
      apply exec_keeps read_keeps_reading
      intro hsearch
      rw [hops op hop] at hsearch
      cases hsearch
    exact (execAll_keeps hexec hrd he).1

end stream

open SampleCodec IoReader in
theorem bytewise_buffer_proportional : ∃ (pre : List UInt8) (ps : List (List UInt8))
    (rd rd' : Reader (List (List UInt8))) (results : List (OpResult Unit)),
    newReaderSize readApi jsonApi source (bytewise (pre ++ (ps.flatten ++ [0]))) 1 256 =
      some (.ok rd) ∧
    execAll readApi source 256 rd [.readToContains (ascii "b"), .read] = some (rd', results) ∧
    rd.buf.length ≤ max 1 (4 * largest (pre :: ps)) ∧
    rd'.buf.length ≤ max 1 (4 * largest (pre :: ps)) := by
  obtain ⟨metadata, hpre, hps⟩ := streamParts .fourByte (ascii "UTC") 0
    [(ascii "a", 5), (ascii "b", 10)] (by decide +kernel) (by decide +kernel)
  obtain ⟨-, hsize, hnew, hexec⟩ := buffer_proportional codec.eof hpre hps Nat.one_pos
    (show source.Feeds _ _ from (bytewise_delivers NoError _).feeds)
  have hrun : ((newReaderSize readApi jsonApi source
      (bytewise (stream .fourByte (ascii "UTC") 0 [(ascii "a", 5), (ascii "b", 10)])) 1 256).bind
        (fun res => res.toOption.bind
          (execAll readApi source 256 · [.readToContains (ascii "b"), .read]))).isSome := by
    decide +kernel
  obtain ⟨⟨rd', results⟩, hrun⟩ := Option.isSome_iff_exists.mp hrun
  obtain ⟨_ | rd, hopen, hrun⟩ := Option.bind_eq_some_iff.mp hrun
  · cases hrun
  · have hrd := hnew 256 rd hopen
    have hrd' := hexec rd _ 256 rd' results hrd (by simp [ReaderOp.searches]) hrun
    exact ⟨_, _, rd, rd', results, hopen, hrun, hsize rd hrd, hsize rd' hrd'⟩

end ClpFfiGo
