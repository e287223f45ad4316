import ClpFfiGo.ReadSequence

namespace ClpFfiGo

variable {σ ε : Type} {clp : IrReadApi} {io : IoReader σ ε} {src : σ → List UInt8 → Prop}
  {d : Deserializer} {t : EpochTimeMs} {full : List UInt8}

def eventOf : Except (GoError ε) LogEventView → Option LogEventView
  | .ok event => some event
  | .error _ => none

def events (l : ReadResults ε) : List LogEventView := l.filterMap eventOf

@[simp] theorem events_ok (event : LogEventView) (l : ReadResults ε) :
    events (.ok event :: l) = event :: events l := rfl

@[simp] theorem events_error (err : GoError ε) (l : ReadResults ε) :
    events (.error err :: l) = events l := rfl

theorem events_append (l l' : ReadResults ε) : events (l ++ l') = events l ++ events l' :=
  List.filterMap_append

def ReadEvents (clp : IrReadApi) (io : IoReader σ ε) (rd : Reader σ) (l : List LogEventView) :
    Prop :=
  ∃ results rd', Reads clp io rd results rd' ∧ events results = l

def remaining (clp : IrReadApi) (enc : Encoding) (c : Cursor) : List LogEventView :=
  decoded enc c.timestamp (((itemDecoder clp enc).parse c.bytes).1.map Prod.fst)

theorem events_settled (l : ReadResults ε) : events (l.filter settled) = events l := by
  induction l with
  | nil => rfl
  | cons r l ih =>
    rcases r with err | event
    · cases hs : settled (.error err : Except (GoError ε) LogEventView) with
      | true => rw [List.filter_cons_of_pos hs, events_error, events_error, ih]
      | false => rw [List.filter_cons_of_neg (by simp [hs]), events_error, ih]
    · rw [List.filter_cons_of_pos rfl, events_ok, events_ok, ih]

theorem Cursor.Yields.events_prefix {enc : Encoding} {c c' : Cursor} {l : ReadResults ε}
    (h : c.Yields clp enc l c') : events l <+: remaining clp enc c := by
  induction h with
  | nil => exact List.nil_prefix
  | @cons c₀ c₁ c₂ res rest hread _ ih =>
    cases hd : (itemDecoder clp enc).dec c₀.bytes with
    | error err =>
      cases res with
      | ok event => exact absurd hread (Cursor.read_not_ok hd)
      | error e =>
        have hc : c₁ = c₀ := by
          cases err <;> simp only [Cursor.read, hd] at hread <;> cases hread <;> rfl
        rw [hc] at ih
        exact ih
    | ok r =>
      obtain ⟨⟨m, v⟩, n⟩ := r
      rw [Cursor.read_of_ok hd] at hread
      cases hread
      rw [remaining, ItemDecoder.parse_ok hd]
      exact List.cons_prefix_cons.mpr ⟨rfl, ih⟩

theorem Reads.append {rd₀ rd₁ rd₂ : Reader σ} {l₁ l₂ : ReadResults ε}
    (h₁ : Reads clp io rd₀ l₁ rd₁) (h₂ : Reads clp io rd₁ l₂ rd₂) :
    Reads clp io rd₀ (l₁ ++ l₂) rd₂ := by
  induction h₁ with
  | nil => exact h₂
  | cons hread _ ih => exact .cons hread (ih h₂)

theorem Reads.turn {rd₀ rd₁ rd₂ : Reader σ} {l : ReadResults ε}
    (ht : Reader.readTurn clp io rd₀ = .inl rd₁) (hl : l ≠ []) (h : Reads clp io rd₁ l rd₂) :
    Reads clp io rd₀ l rd₂ := by
  cases h with
  | nil => exact absurd rfl hl
  | @cons _ rd' _ fuel res rest hread hrest =>
    have hread' : rd₀.read clp io (fuel + 1) = some (rd', res) := by
      rw [Reader.read, Loop.run, ht]
      exact hread
    exact .cons hread' hrest

theorem read_turn {i : GoString × EpochTimeMs} {n : ℕ} {rd : Reader σ} {allowed : ε → Prop}
    (hs : (itemDecoder clp d.encoding).Settled full)
    (hdec : (itemDecoder clp d.encoding).dec full = .ok (i, n))
    (h : rd.Holds (io.Delivers allowed) d ⟨t, full⟩) :
    (∃ rd', Reader.readTurn clp io rd = .inr (rd', .ok ⟨i.1, stamp d.encoding t i.2⟩) ∧
      rd'.Holds (io.Delivers allowed) d ⟨stamp d.encoding t i.2, full.drop n⟩) ∨
    ∃ p rd', 0 < p.length ∧ rd.unread ≠ full ∧ rd'.Holds (io.Delivers allowed) d ⟨t, full⟩ ∧
      rd'.ioReader = (io.read rd.ioReader p).next ∧
      rd'.unread = rd.unread ++ (io.read rd.ioReader p).data ∧
      (Reader.readTurn clp io rd = .inl rd' ∨
        ∃ e, Reader.readTurn clp io rd = .inr (rd', .error (.io e))) := by
  have hsrc := io.delivers_conserves allowed
  have hcut : ∀ {d' err}, deserializeLogEvent (ε := ε) clp rd.deserializer rd.unread =
      (d', .error err) → err.isIncomplete = true → d' = d.at t ∧ rd.unread ≠ full := by
    intro d' err ha hi
    rw [h.deserializer, deserializeLogEvent_at] at ha
    obtain ⟨hd', hinc⟩ := readAnswer_incomplete ha
    refine ⟨hd', fun hu => ?_⟩
    have := hinc.mp hi
    rw [hu, hdec] at this
    cases this
  have hcases := Reader.turn_cases io (deserializeLogEvent clp) h.buffered.wf
  cases hout : Reader.readTurn clp io rd with
  | inl rd' =>
    rw [show Reader.turn io (deserializeLogEvent clp) rd = .inl rd' from hout] at hcases
    cases hcases with
    | refilled ha hi hr _ =>
      obtain ⟨hd', hne⟩ := hcut ha hi
      exact .inr ⟨_, _, hr.room h.buffered.room, hne, ⟨h.buffered.refill hsrc hr, hd'⟩, hr.ioReader,
        hr.unread, .inl rfl⟩
  | inr r =>
    obtain ⟨rd', res⟩ := r
    rcases read_refines hsrc hs h (.stop hout) with ⟨e, _, rfl, h'⟩ | ⟨c', hc, h'⟩
    · rw [show Reader.turn io (deserializeLogEvent clp) rd = .inr (rd', .error (.io e))
        from hout] at hcases
      cases hcases with
      | rejected ha _ =>
        rw [h.deserializer, deserializeLogEvent_at, readAnswer] at ha
        split at ha <;> cases ha
      | sourceFailed ha hi hr he =>
        obtain ⟨hd', hne⟩ := hcut ha hi
        exact .inr ⟨_, _, hr.room h.buffered.room, hne, h', hr.ioReader, hr.unread, .inr ⟨e, rfl⟩⟩
    · rw [Cursor.read_of_ok (c := ⟨t, full⟩) hdec] at hc
      cases hc
      exact .inl ⟨rd', rfl, h'⟩

theorem read_next {allowed : ε → Prop} {i : GoString × EpochTimeMs} {n : ℕ} {rd : Reader σ}
    (hs : (itemDecoder clp d.encoding).Settled full)
    (hdec : (itemDecoder clp d.encoding).dec full = .ok (i, n))
    (h : rd.Holds (io.Delivers allowed) d ⟨t, full⟩) :
    ∃ results rd', results ≠ [] ∧ Reads clp io rd results rd' ∧
      events results = [⟨i.1, stamp d.encoding t i.2⟩] ∧
      rd'.Holds (io.Delivers allowed) d ⟨stamp d.encoding t i.2, full.drop n⟩ := by
  obtain ⟨rest, hu, hdl⟩ := h.buffered.source
  generalize hst : rd.ioReader = s at hdl
  have done : ∀ {rd rd'},
      Reader.readTurn clp io rd = .inr (rd', .ok ⟨i.1, stamp d.encoding t i.2⟩) →
      Reads clp io rd [.ok ⟨i.1, stamp d.encoding t i.2⟩] rd' := by
    intro rd rd' ht
    have hread : rd.read clp io 1 = some (rd', .ok ⟨i.1, stamp d.encoding t i.2⟩) := by
      rw [Reader.read, Loop.run, ht]
    exact .cons hread .nil
  induction hdl generalizing rd with
  | drained _ =>
    rcases read_turn hs hdec h with ⟨rd', ht, h'⟩ | ⟨_, _, _, hne, _⟩
    · exact ⟨_, rd', by simp, done ht, rfl, h'⟩
    · exact absurd (by simpa using hu) hne
  | @chunk s b hdata _ hnext ih =>
    rcases read_turn hs hdec h with ⟨rd', ht, h'⟩ | ⟨p, rd₁, hp, _, h₁, hio, hun, ht⟩
    · exact ⟨_, rd', by simp, done ht, rfl, h'⟩
    · have hdrop := IoReader.data_append_drop (hdata p hp)
      obtain ⟨results, rd', hne, hreads, hev, h'⟩ := ih p hp h₁
        (by rw [hun, hst, List.append_assoc, hdrop, hu]) (by rw [hio, hst])
      rcases ht with ht | ⟨e, ht⟩
      · exact ⟨results, rd', hne, hreads.turn ht hne, hev, h'⟩
      · have hread : rd.read clp io 1 = some (rd₁, .error (.io e)) := by
          rw [Reader.read, Loop.run, ht]
        exact ⟨_, rd', by simp, .cons hread hreads, hev, h'⟩

theorem readEvents_of_prefix {allowed : ε → Prop} {c : Cursor} {rd : Reader σ}
    {l : List LogEventView} (hr : (itemDecoder clp d.encoding).Regular c.bytes)
    (h : rd.Holds (io.Delivers allowed) d c) (hl : l <+: remaining clp d.encoding c) :
    ReadEvents clp io rd l := by
  induction l generalizing c rd with
  | nil => exact ⟨[], rd, .nil, rfl⟩
  | cons e l ih =>
    cases hp : ((itemDecoder clp d.encoding).parse c.bytes).1 with
    | nil =>
      rw [remaining, hp] at hl
      simp [decoded] at hl
    | cons item items =>
      obtain ⟨⟨m, v⟩, n⟩ := item
      obtain ⟨hdec, hrest⟩ := ItemDecoder.dec_of_cons hp
      rw [remaining, hp] at hl
      obtain ⟨rfl, hnext⟩ := List.cons_prefix_cons.mp hl
      obtain ⟨results, rd₁, _, hreads, hev, h₁⟩ := read_next (t := c.timestamp) hr.settled hdec h
      have hl' : l <+: remaining clp d.encoding
          ⟨stamp d.encoding c.timestamp v, c.bytes.drop n⟩ := by
        rw [remaining, hrest]
        exact hnext
      obtain ⟨results', rd', hreads', rfl⟩ := ih (hr.drop hdec) h₁ hl'
      refine ⟨_, rd', hreads.append hreads', ?_⟩
      rw [events_append, hev]
      rfl

theorem readEvents_iff {allowed : ε → Prop} {c : Cursor} {rd : Reader σ}
    {l : List LogEventView} (hr : (itemDecoder clp d.encoding).Regular c.bytes)
    (h : rd.Holds (io.Delivers allowed) d c) :
    ReadEvents clp io rd l ↔ l <+: remaining clp d.encoding c := by
  constructor
  · rintro ⟨results, rd', hreads, rfl⟩
    obtain ⟨c', hy, _⟩ := reads_refine (io.delivers_conserves allowed) hr h hreads
    rw [← events_settled]
    exact hy.events_prefix
  · exact readEvents_of_prefix hr h

end ClpFfiGo
