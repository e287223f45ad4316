import ClpFfiGo.RefillLoop
import ClpFfiGo.ItemReading

namespace ClpFfiGo

structure Cursor where
  timestamp : EpochTimeMs
  bytes : List UInt8

variable {σ ε : Type} {clp : IrReadApi} {io : IoReader σ ε} {src : σ → List UInt8 → Prop}

def Cursor.read (clp : IrReadApi) (enc : Encoding) (c : Cursor) :
    Option (Cursor × Except (GoError ε) LogEventView) :=
  match (itemDecoder clp enc).dec c.bytes with
  | .error .incompleteIr => none
  | .error err => some (c, .error (.ir ⟨err.toInt⟩))
  | .ok ((m, v), n) =>
    some (⟨stamp enc c.timestamp v, c.bytes.drop n⟩, .ok ⟨m, stamp enc c.timestamp v⟩)

def Cursor.search (clp : IrReadApi) (enc : Encoding) (iv : TimestampInterval)
    (query : GoString → Option ℕ) (c : Cursor) :
    Option (Cursor × Except (GoError ε) (LogEventView × ℕ)) :=
  match scan enc iv query 0 c.timestamp ((itemDecoder clp enc).parse c.bytes).1,
      ((itemDecoder clp enc).parse c.bytes).2 with
  | (last, some (.found event k pos)), _ => some (⟨last, c.bytes.drop pos⟩, .ok (event, k))
  | (last, some .reached), _ => some (⟨last, c.bytes⟩, .error (.ir .queryNotFound))
  | (_, none), .incompleteIr => none
  | (last, none), err => some (⟨last, c.bytes⟩, .error (.ir ⟨err.toInt⟩))

theorem Cursor.read_of_ok {enc : Encoding} {c : Cursor} {i : GoString × EpochTimeMs} {n : ℕ}
    (h : (itemDecoder clp enc).dec c.bytes = .ok (i, n)) :
    Cursor.read (ε := ε) clp enc c = some (⟨stamp enc c.timestamp i.2, c.bytes.drop n⟩,
      .ok ⟨i.1, stamp enc c.timestamp i.2⟩) := by
  simp [Cursor.read, h]

theorem Cursor.read_not_ok {enc : Encoding} {c c' : Cursor} {err : IRErrorCode}
    {event : LogEventView} (h : (itemDecoder clp enc).dec c.bytes = .error err) :
    Cursor.read (ε := ε) clp enc c ≠ some (c', .ok event) := by
  cases err <;> simp [Cursor.read, h]

structure Reader.Holds (src : σ → List UInt8 → Prop) (d : Deserializer) (c : Cursor)
    (rd : Reader σ) : Prop where
  buffered : rd.toReadBuf.Over src c.bytes
  deserializer : rd.deserializer = d.at c.timestamp

section reading

variable {d : Deserializer} {t : EpochTimeMs} {full u : List UInt8}

theorem readAnswer_incomplete {d' : Deserializer} {err : GoError ε}
    (h : readAnswer d t u clp = (d', .error err)) :
    d' = d.at t ∧ (err.isIncomplete = true ↔
      (itemDecoder clp d.encoding).dec u = .error .incompleteIr) := by
  unfold readAnswer at h
  split at h
  · rename_i e he
    cases h
    refine ⟨rfl, ?_⟩
    rw [he]
    simp [GoError.isIncomplete, IRErrorCode.incomplete_iff]
  · cases h

theorem readAnswer_bounds {d' : Deserializer} {event : LogEventView} {pos : ℕ}
    (h : readAnswer (ε := ε) d t u clp = (d', .ok (event, pos))) :
    pos ≤ u.length ∧ (itemDecoder clp d.encoding).dec u ≠ .error .incompleteIr := by
  rw [readAnswer] at h
  split at h
  · cases h
  · rename_i hd
    cases h
    exact ⟨((itemDecoder clp d.encoding).advance hd).2, by simp [hd]⟩

theorem readAnswer_congr
    (h : (itemDecoder clp d.encoding).dec u = (itemDecoder clp d.encoding).dec full) :
    readAnswer (ε := ε) d t u clp = readAnswer d t full clp := by
  unfold readAnswer
  rw [h]

theorem read_settles (hs : (itemDecoder clp d.encoding).Settled full) :
    Reader.Settles (ε := ε) (deserializeLogEvent clp) full (fun d' => d' = d.at t)
      (fun _ _ => True) (fun d' r => readAnswer d t full clp = (d', r)) := by
  have hsettle : ∀ u, u <+: full →
      (itemDecoder clp d.encoding).dec u ≠ .error .incompleteIr →
      readAnswer (ε := ε) d t u clp = readAnswer d t full clp := by
    intro u hu hne
    rcases hs.cases hu with hm | hm
    · exact absurd hm hne
    · exact readAnswer_congr hm
  refine ⟨?_, ?_, ?_⟩
  · rintro _ u d' err rfl _ _ ha _
    rw [deserializeLogEvent_at] at ha
    exact (readAnswer_incomplete ha).1
  · rintro _ u d' err rfl hu _ ha hm
    rw [deserializeLogEvent_at] at ha
    rw [← hsettle u hu, ha]
    intro hne
    rw [(readAnswer_incomplete ha).2.mpr hne] at hm
    cases hm
  · rintro _ u d' event pos rfl hu _ ha
    rw [deserializeLogEvent_at] at ha
    obtain ⟨hp, hne⟩ := readAnswer_bounds ha
    exact ⟨hp, by rw [← hsettle u hu hne, ha]⟩

theorem cursor_read_error {d' : Deserializer} {err : GoError ε} (hm : err.isIncomplete = false)
    (h : readAnswer d t full clp = (d', .error err)) :
    d' = d.at t ∧ Cursor.read clp d.encoding ⟨t, full⟩ = some (⟨t, full⟩, .error err) := by
  refine ⟨(readAnswer_incomplete h).1, ?_⟩
  rw [readAnswer] at h
  rw [Cursor.read]
  split at h
  · rename_i e he
    cases h
    dsimp only
    rw [he]
    cases e <;> first | rfl | cases hm
  · cases h

theorem cursor_read_ok {d' : Deserializer} {event : LogEventView} {pos : ℕ}
    (h : readAnswer (ε := ε) d t full clp = (d', .ok (event, pos))) :
    ∃ t', d' = d.at t' ∧
      Cursor.read (ε := ε) clp d.encoding ⟨t, full⟩ = some (⟨t', full.drop pos⟩, .ok event) := by
  rw [readAnswer] at h
  split at h
  · cases h
  · rename_i hd
    cases h
    exact ⟨_, rfl, Cursor.read_of_ok (c := ⟨t, full⟩) hd⟩

theorem read_refines (hsrc : io.Conserves src) {c : Cursor} {rd rd' : Reader σ}
    {res : Except (GoError ε) LogEventView}
    (hs : (itemDecoder clp d.encoding).Settled c.bytes) (h : rd.Holds src d c)
    (he : Loop.Ends (Reader.readTurn clp io) rd (rd', res)) :
    (∃ e, io.Fails src e ∧ res = .error (.io e) ∧ rd'.Holds src d c) ∨
      ∃ c', c.read clp d.encoding = some (c', res) ∧ rd'.Holds src d c' := by
  have ho := Reader.loop_outcome hsrc (read_settles (ε := ε) (t := c.timestamp) hs) h.buffered
    h.deserializer (fun _ _ => trivial) he
  cases ho with
  | sourceFailed hf hb hd => exact .inl ⟨_, hf, rfl, hb, hd⟩
  | rejected hb hm hp =>
    obtain ⟨hd, hc⟩ := cursor_read_error hm hp
    exact .inr ⟨c, hc, hb, hd⟩
  | returned hb hp =>
    obtain ⟨t', hd, hc⟩ := cursor_read_ok hp
    exact .inr ⟨_, hc, hb, hd⟩

theorem read_ends {allowed : ε → Prop} {c : Cursor} {rd : Reader σ}
    (hne : (itemDecoder clp d.encoding).dec c.bytes ≠ .error .incompleteIr)
    (h : rd.Holds (io.Delivers allowed) d c) :
    ∃ r, Loop.Ends (Reader.readTurn clp io) rd r := by
  refine Reader.loop_ends (I := fun d' => d' = d.at c.timestamp) ?_ ?_ h.deserializer h.buffered
  · rintro _ u d' err rfl _ ha _
    rw [deserializeLogEvent_at] at ha
    exact (readAnswer_incomplete ha).1
  · rintro _ d' err rfl ha
    rw [deserializeLogEvent_at] at ha
    cases hm : err.isIncomplete with
    | false => rfl
    | true => exact absurd ((readAnswer_incomplete ha).2.mp hm) hne

theorem read_run {c : Cursor} {rd : Reader σ}
    (hs : (itemDecoder clp d.encoding).Settled c.bytes)
    (hne : (itemDecoder clp d.encoding).dec c.bytes ≠ .error .incompleteIr)
    (h : rd.Holds (io.Delivers IoReader.NoError) d c) :
    ∃ fuel rd' c' res, rd.read clp io fuel = some (rd', res) ∧
      c.read clp d.encoding = some (c', res) ∧ rd'.Holds (io.Delivers IoReader.NoError) d c' := by
  obtain ⟨⟨rd', res⟩, he⟩ := read_ends hne h
  obtain ⟨fuel, hrun⟩ := Loop.run_of_ends he
  rcases read_refines (io.delivers_conserves _) hs h he with ⟨e, hf, _⟩ | ⟨c', hc, h'⟩
  · exact hf.allowed.elim
  · exact ⟨fuel, rd', c', res, hrun, hc, h'⟩

end reading

end ClpFfiGo
