import ClpFfiGo.Reader

namespace ClpFfiGo

variable {σ ε β : Type} {io : IoReader σ ε}

namespace ReadBuf

structure WF (rb : ReadBuf σ) : Prop where
  start_le : rb.start ≤ rb.stop
  stop_le : rb.stop ≤ rb.buf.length

def unread (rb : ReadBuf σ) : List UInt8 := Slice.between rb.buf rb.start rb.stop

def ioErr : Option (IoError ε) → Option (GoError ε)
  | some (.other err) => some (.io err)
  | some .eof => none
  | none => none

structure Refilled (io : IoReader σ ε) (rb rb' : ReadBuf σ) (p : List UInt8) : Prop where
  room : 0 < rb.buf.length → 0 < p.length
  wf : rb'.WF
  ioReader : rb'.ioReader = (io.read rb.ioReader p).next
  start : rb'.start = 0
  unread : rb'.unread = rb.unread ++ (io.read rb.ioReader p).data
  length : rb.buf.length ≤ rb'.buf.length

theorem WF.slice {rb : ReadBuf σ} (h : rb.WF) :
    Slice.slice? rb.buf rb.start rb.stop = some rb.unread :=
  Slice.slice?_eq_some h.start_le h.stop_le

theorem WF.length_unread {rb : ReadBuf σ} (h : rb.WF) :
    rb.unread.length = rb.stop - rb.start :=
  Slice.length_between h.stop_le

theorem WF.consume {rb : ReadBuf σ} {pos : ℕ} (h : rb.WF) (hp : pos ≤ rb.unread.length) :
    WF { rb with start := rb.start + pos } := by
  have hl := h.length_unread
  have hs := h.start_le
  exact ⟨by dsimp only; omega, h.stop_le⟩

theorem unread_consume (rb : ReadBuf σ) (pos : ℕ) :
    unread { rb with start := rb.start + pos } = rb.unread.drop pos :=
  Slice.between_advance _ _ _ _

def afterRead (rb : ReadBuf σ) (r : ReadResult σ ε) : ReadBuf σ where
  ioReader := r.next
  buf := rb.buf.take rb.stop ++ r.p
  start := rb.start
  stop := rb.stop + r.n

theorem read_eq {rb : ReadBuf σ} (h : rb.WF) :
    read io rb = (rb.afterRead (io.read rb.ioReader (rb.buf.drop rb.stop)),
      (io.read rb.ioReader (rb.buf.drop rb.stop)).n,
      ioErr (io.read rb.ioReader (rb.buf.drop rb.stop)).err) := by
  rw [read]
  rw [Slice.slice?_eq_some h.stop_le (le_refl _), Slice.between_length]
  dsimp only
  split <;> rename_i he <;> rw [he] <;> rfl

theorem refilled_of_read (io : IoReader σ ε) {rb : ReadBuf σ} (h : rb.WF) (h0 : rb.start = 0)
    (hroom : 0 < rb.buf.length → rb.stop < rb.buf.length) :
    Refilled io rb (rb.afterRead (io.read rb.ioReader (rb.buf.drop rb.stop)))
      (rb.buf.drop rb.stop) := by
  have hn := io.n_le rb.ioReader (rb.buf.drop rb.stop)
  have hp := io.length_p rb.ioReader (rb.buf.drop rb.stop)
  have hs := h.start_le
  have hl := h.stop_le
  simp only [List.length_drop] at hn hp
  refine ⟨fun hb => ?_, ⟨?_, ?_⟩, rfl, h0, ?_, ?_⟩
  · have := hroom hb
    simp only [List.length_drop]
    omega
  · simp only [afterRead]
    omega
  · simp only [afterRead, List.length_append, List.length_take, hp]
    omega
  · exact Slice.between_extend h.start_le h.stop_le
  · simp only [afterRead, List.length_append, List.length_take, hp]
    omega

def compacted (rb : ReadBuf σ) : ReadBuf σ where
  ioReader := rb.ioReader
  buf := if rb.stop - rb.start > rb.buf.length / 2
    then Slice.copy (List.replicate (rb.buf.length * 2) 0) rb.unread
    else Slice.copy rb.buf rb.unread
  start := 0
  stop := rb.stop - rb.start

theorem fillBuf_eq {rb : ReadBuf σ} (h : rb.WF) : fillBuf io rb = read io rb.compacted := by
  simp only [fillBuf, h.slice]
  rfl

theorem length_compacted (rb : ReadBuf σ) :
    rb.compacted.buf.length =
      if rb.stop - rb.start > rb.buf.length / 2 then rb.buf.length * 2 else rb.buf.length := by
  simp only [compacted]
  split <;> simp

theorem compacted_wf {rb : ReadBuf σ} (h : rb.WF) : rb.compacted.WF := by
  have hl := h.stop_le
  refine ⟨Nat.zero_le _, ?_⟩
  rw [length_compacted]
  simp only [compacted]
  split <;> omega

theorem unread_compacted {rb : ReadBuf σ} (h : rb.WF) : rb.compacted.unread = rb.unread := by
  have hu := h.length_unread
  have hl := h.stop_le
  simp only [compacted, ReadBuf.unread] at hu ⊢
  split
  · exact Slice.between_copy hu (by simp; omega)
  · exact Slice.between_copy hu (by omega)

-- The slice `buf[end:]` that `fillBuf` hands to the io.Reader.
def passed (rb : ReadBuf σ) : List UInt8 := rb.compacted.buf.drop rb.compacted.stop

theorem length_passed (rb : ReadBuf σ) :
    rb.passed.length = rb.compacted.buf.length - (rb.stop - rb.start) :=
  List.length_drop

theorem fillBuf_passed (io : IoReader σ ε) {rb : ReadBuf σ} (h : rb.WF) :
    fillBuf io rb = (rb.compacted.afterRead (io.read rb.ioReader rb.passed),
      (io.read rb.ioReader rb.passed).n, ioErr (io.read rb.ioReader rb.passed).err) :=
  (fillBuf_eq h).trans (read_eq (compacted_wf h))

theorem passed_room {rb : ReadBuf σ} (h : rb.WF) (hb : 0 < rb.buf.length) :
    0 < rb.passed.length := by
  have hs := h.stop_le
  rw [length_passed, length_compacted]
  split <;> omega

theorem length_fillBuf (io : IoReader σ ε) {rb : ReadBuf σ} (h : rb.WF) :
    (fillBuf io rb).1.buf.length = rb.compacted.buf.length := by
  have hp := io.length_p rb.ioReader rb.passed
  have hs := (compacted_wf h).stop_le
  rw [fillBuf_passed io h]
  have hl := length_passed rb
  simp only [afterRead, List.length_append, List.length_take, hp]
  simp only [compacted] at hs hl ⊢
  omega

theorem fillBuf_refilled (io : IoReader σ ε) {rb : ReadBuf σ} (h : rb.WF) :
    Refilled io rb (fillBuf io rb).1 rb.passed := by
  have hc := compacted_wf h
  have hl := length_compacted rb
  have hs := h.stop_le
  have hr := refilled_of_read io hc rfl (by
    intro hb
    rw [hl] at hb ⊢
    simp only [compacted]
    split <;> split at hb <;> omega)
  rw [fillBuf_passed io h]
  refine ⟨passed_room h, hr.wf, hr.ioReader, hr.start, ?_, ?_⟩
  · rw [← unread_compacted h]
    exact hr.unread
  · refine le_trans ?_ hr.length
    rw [hl]
    split <;> omega

theorem fillBuf_spec (io : IoReader σ ε) {rb : ReadBuf σ} (h : rb.WF) :
    ∃ rb' p, fillBuf io rb =
        (rb', (io.read rb.ioReader p).n, ioErr (io.read rb.ioReader p).err) ∧
      Refilled io rb rb' p := by
  have hr := fillBuf_refilled io h
  rw [fillBuf_passed io h] at hr
  exact ⟨_, _, fillBuf_passed io h, hr⟩

end ReadBuf

namespace Reader

abbrev Call (ε β : Type) :=
  Deserializer → List UInt8 → Deserializer × Except (GoError ε) (β × ℕ)

inductive Turned (io : IoReader σ ε) (call : Call ε β) (rd : Reader σ) :
    Reader σ ⊕ (Reader σ × Except (GoError ε) β) → Prop
  | returned {d event pos} : call rd.deserializer rd.unread = (d, .ok (event, pos)) →
      Turned io call rd (.inr (⟨{ rd.toReadBuf with start := rd.start + pos }, d⟩, .ok event))
  | rejected {d err} : call rd.deserializer rd.unread = (d, .error err) →
      err.isIncomplete = false → Turned io call rd (.inr (⟨rd.toReadBuf, d⟩, .error err))
  | refilled {d err rb p} : call rd.deserializer rd.unread = (d, .error err) →
      err.isIncomplete = true → ReadBuf.Refilled io rd.toReadBuf rb p →
      ReadBuf.ioErr (io.read rd.ioReader p).err = none → Turned io call rd (.inl ⟨rb, d⟩)
  | sourceFailed {d err rb p e} : call rd.deserializer rd.unread = (d, .error err) →
      err.isIncomplete = true → ReadBuf.Refilled io rd.toReadBuf rb p →
      (io.read rd.ioReader p).err = some (.other e) →
      Turned io call rd (.inr (⟨rb, d⟩, .error (.io e)))

theorem turn_cases (io : IoReader σ ε) (call : Call ε β) {rd : Reader σ} (h : rd.WF) :
    Turned io call rd (turn io call rd) := by
  rw [turn]
  rw [h.slice]
  dsimp only
  rcases hc : call rd.deserializer rd.unread with ⟨d, _ | ⟨event, pos⟩⟩
  case error err =>
    dsimp only
    split
    · rename_i hi
      obtain ⟨rb, p, hf, hr⟩ := ReadBuf.fillBuf_spec io h
      rw [hf]
      cases he : (io.read rd.ioReader p).err with
      | none => exact .refilled hc hi hr (by simp [he, ReadBuf.ioErr])
      | some e =>
        cases e with
        | eof => exact .refilled hc hi hr (by simp [he, ReadBuf.ioErr])
        | other e => exact .sourceFailed hc hi hr he
    · rename_i hi
      exact .rejected hc (by simpa using hi)
  case ok => exact .returned hc

theorem turn_inl {call : Call ε β} {rd rd' : Reader σ} (h : turn io call rd = .inl rd') :
    rd'.toReadBuf = (rd.toReadBuf.fillBuf io).1 := by
  rw [turn] at h
  split at h
  · cases h
  · split at h
    · cases h
    · split at h
      · split at h
        · rename_i hf
          cases h
          rw [hf]
        · cases h
      · cases h

end Reader

inductive Constructed (clp : IrReadApi) (json : JsonApi ε) (io : IoReader σ ε) (rb : ReadBuf σ) :
    ReadBuf σ ⊕ Except (GoError ε) (Reader σ) → Prop
  | returned {d pos} : deserializePreamble clp json rb.unread = .ok (d, pos) →
      Constructed clp json io rb (.inr (.ok ⟨{ rb with start := pos }, d⟩))
  | rejected {err} : deserializePreamble clp json rb.unread = .error err →
      err.isIncomplete = false → Constructed clp json io rb (.inr (.error err))
  | refilled {err rb' p} : deserializePreamble clp json rb.unread = .error err →
      err.isIncomplete = true → ReadBuf.Refilled io rb rb' p →
      ReadBuf.ioErr (io.read rb.ioReader p).err = none → Constructed clp json io rb (.inl rb')
  | sourceFailed {err rb' p e} : deserializePreamble clp json rb.unread = .error err →
      err.isIncomplete = true → ReadBuf.Refilled io rb rb' p →
      (io.read rb.ioReader p).err = some (.other e) →
      Constructed clp json io rb (.inr (.error (.io e)))

theorem construct_cases (clp : IrReadApi) (json : JsonApi ε) (io : IoReader σ ε)
    {rb : ReadBuf σ} (h : rb.WF) (h0 : rb.start = 0) :
    Constructed clp json io rb (newReaderTurn clp json io rb) := by
  rw [newReaderTurn]
  rw [h.slice]
  have hrb : { rb with start := 0 } = rb := by rw [← h0]
  dsimp only
  rcases hc : deserializePreamble clp json rb.unread with err | ⟨d, pos⟩
  case error =>
    dsimp only
    split
    · rename_i hi
      obtain ⟨rb', p, hf, hr⟩ := ReadBuf.fillBuf_spec io h
      rw [hrb, hf]
      cases he : (io.read rb.ioReader p).err with
      | none => exact .refilled hc hi hr (by simp [he, ReadBuf.ioErr])
      | some e =>
        cases e with
        | eof => exact .refilled hc hi hr (by simp [he, ReadBuf.ioErr])
        | other e => exact .sourceFailed hc hi hr he
    · rename_i hi
      exact .rejected hc (by simpa using hi)
  case ok => exact .returned hc

theorem newReaderTurn_inl {clp : IrReadApi} {json : JsonApi ε} {rb rb' : ReadBuf σ}
    (h0 : rb.start = 0) (h : newReaderTurn clp json io rb = .inl rb') :
    rb' = (rb.fillBuf io).1 := by
  have hrb : { rb with start := 0 } = rb := by rw [← h0]
  rw [newReaderTurn, hrb] at h
  split at h
  · cases h
  · split at h
    · cases h
    · split at h
      · split at h
        · rename_i hf
          cases h
          rw [hf]
        · cases h
      · cases h

def ReadBuf.initial (r : σ) (size : ℕ) : ReadBuf σ := ⟨r, List.replicate size 0, 0, 0⟩

theorem initial_spec (io : IoReader σ ε) (r : σ) (size : ℕ) :
    ∃ rb p, ReadBuf.read io (ReadBuf.initial r size) =
        (rb, (io.read r p).n, ReadBuf.ioErr (io.read r p).err) ∧
      ReadBuf.Refilled io (ReadBuf.initial r size) rb p := by
  have hw : (ReadBuf.initial r size).WF := ⟨le_refl _, Nat.zero_le _⟩
  exact ⟨_, _, ReadBuf.read_eq hw, ReadBuf.refilled_of_read io hw rfl id⟩

theorem newReaderSize_eq (clp : IrReadApi) (json : JsonApi ε) (io : IoReader σ ε) (r : σ)
    (size : ℕ) :
    ∃ rb p, ReadBuf.read io (ReadBuf.initial r size) =
        (rb, (io.read r p).n, ReadBuf.ioErr (io.read r p).err) ∧
      ReadBuf.Refilled io (ReadBuf.initial r size) rb p ∧
      ∀ fuel, newReaderSize clp json io r size fuel =
        (ReadBuf.ioErr (io.read r p).err).elim (Loop.run (newReaderTurn clp json io) fuel rb)
          (fun err => some (.error err)) := by
  obtain ⟨rb, p, hread, hf⟩ := initial_spec io r size
  refine ⟨rb, p, hread, hf, fun fuel => ?_⟩
  rw [ReadBuf.initial] at hread
  rw [newReaderSize, hread]
  cases ReadBuf.ioErr (io.read r p).err <;> rfl

theorem newReaderSize_mono {clp : IrReadApi} {json : JsonApi ε} {r : σ} {size n m : ℕ}
    {res : Except (GoError ε) (Reader σ)} (h : newReaderSize clp json io r size n = some res)
    (hnm : n ≤ m) : newReaderSize clp json io r size m = some res := by
  obtain ⟨rb, p, -, -, heq⟩ := newReaderSize_eq clp json io r size
  rw [heq] at h ⊢
  cases hio : ReadBuf.ioErr (io.read r p).err with
  | some err => rwa [hio] at h
  | none =>
    rw [hio] at h
    exact Loop.run_mono h hnm

end ClpFfiGo
