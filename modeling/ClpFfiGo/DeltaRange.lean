import ClpFfiGo.SerializerLockstep
import ClpFfiGo.CheckedDeserializer

namespace ClpFfiGo

variable {ε : Type}

def Serializer.subtraction (event : LogEvent) : Serializer → List (EpochTimeMs × EpochTimeMs)
  | .eightByte _ => []
  | .fourByte _ prevTimestamp => [(event.timestamp, prevTimestamp)]

-- The operands of `event.Timestamp - prevTimestamp`, in the calls the core accepts.
def subtractions (ε : Type) : Serializer → List SerializeCall → List (EpochTimeMs × EpochTimeMs)
  | _, [] => []
  | serializer, call :: calls =>
    match serializeLogEvent (ε := ε) call.clp serializer call.event with
    | (serializer', .error _) => subtractions ε serializer' calls
    | (serializer', .ok _) =>
      serializer.subtraction call.event ++ subtractions ε serializer' calls

inductive DeserializerOp where
  | deserializeLogEvent
  | deserializeWildcardMatch (queries : List WildcardQuery) (timeInterval : TimestampInterval)

abbrev DeserializerResult (ε : Type) :=
  Deserializer × Except (GoError ε) ((LogEventView × Option ℕ) × ℕ)

def plainResult (r : Deserializer × Except (GoError ε) (LogEventView × ℕ)) :
    DeserializerResult ε :=
  (r.1, r.2.map (fun x => ((x.1, none), x.2)))

def indexedResult (r : Deserializer × Except (GoError ε) ((LogEventView × ℕ) × ℕ)) :
    DeserializerResult ε :=
  (r.1, r.2.map (fun x => ((x.1.1, some x.1.2), x.2)))

def DeserializerOp.exec (clp : IrReadApi) (d : Deserializer) (irBuf : List UInt8) :
    DeserializerOp → DeserializerResult ε
  | .deserializeLogEvent => plainResult (ClpFfiGo.deserializeLogEvent clp d irBuf)
  | .deserializeWildcardMatch queries timeInterval => indexedResult
      (ClpFfiGo.deserializeWildcardMatch clp (mergeWildcardQueries queries) timeInterval d irBuf)

-- A caller's reading of the buffer: each call starts where the one before it ended, and an error
-- is the last answer.
def execOps (clp : IrReadApi) : List DeserializerOp → Deserializer → List UInt8 →
    List (Except (GoError ε) (LogEventView × Option ℕ))
  | [], _, _ => []
  | op :: ops, d, irBuf =>
    match op.exec clp d irBuf with
    | (_, .error err) => [.error err]
    | (d, .ok (result, pos)) => .ok result :: execOps clp ops d (irBuf.drop pos)

namespace Checked

variable (clp : IrReadApi) (left : BufferReader → UInt8 → EpochTimeMs)

def exec (d : Deserializer) (irBuf : List UInt8) : DeserializerOp → Option (DeserializerResult ε)
  | .deserializeLogEvent => (deserializeLogEvent clp left d irBuf).map plainResult
  | .deserializeWildcardMatch queries timeInterval =>
    (deserializeWildcardMatch clp left (mergeWildcardQueries queries) timeInterval d irBuf).map
      indexedResult

def execOps : List DeserializerOp → Deserializer → List UInt8 →
    Option (List (Except (GoError ε) (LogEventView × Option ℕ)))
  | [], _, _ => some []
  | op :: ops, d, irBuf =>
    match exec clp left d irBuf op with
    | none => none
    | some (_, .error err) => some [.error err]
    | some (d, .ok (result, pos)) =>
      (execOps ops d (irBuf.drop pos)).map (.ok result :: ·)

variable {clp left}

theorem exec_refines {d : Deserializer} {irBuf : List UInt8} {op : DeserializerOp}
    {r : DeserializerResult ε} (h : exec clp left d irBuf op = some r) :
    op.exec clp d irBuf = r := by
  cases op with
  | deserializeLogEvent =>
    obtain ⟨r', hr, rfl⟩ := Option.map_eq_some_iff.mp h
    rw [DeserializerOp.exec, deserializeLogEvent_refines hr]
  | deserializeWildcardMatch queries timeInterval =>
    obtain ⟨r', hr, rfl⟩ := Option.map_eq_some_iff.mp h
    rw [DeserializerOp.exec, deserializeWildcardMatch_refines hr]

theorem execOps_refines {ops : List DeserializerOp} {d : Deserializer} {irBuf : List UInt8}
    {results : List (Except (GoError ε) (LogEventView × Option ℕ))}
    (h : execOps clp left ops d irBuf = some results) :
    ClpFfiGo.execOps clp ops d irBuf = results := by
  induction ops generalizing d irBuf results with
  | nil => exact Option.some.inj h
  | cons op ops ih =>
    rw [execOps] at h
    rw [ClpFfiGo.execOps]
    cases hx : exec (ε := ε) clp left d irBuf op with
    | none => simp [hx] at h
    | some r =>
      rw [exec_refines hx]
      rw [hx] at h
      obtain ⟨d', err | ⟨result, pos⟩⟩ := r
      · exact Option.some.inj h
      · obtain ⟨rest, hrest, rfl⟩ := Option.map_eq_some_iff.mp h
        simp only [ih hrest]

end Checked

section events

def DeltasFit (prev : EpochTimeMs) (events : List LogEvent) : Prop :=
  SignedRange.Steps 64 prev.toInt (events.map (fun e => e.timestamp.toInt))

instance (prev : EpochTimeMs) (events : List LogEvent) : Decidable (DeltasFit prev events) :=
  inferInstanceAs (Decidable (SignedRange.Steps _ _ _))

theorem deltasFit_of_nonneg {prev : EpochTimeMs} {events : List LogEvent} (hprev : 0 ≤ prev)
    (hevents : ∀ e ∈ events, 0 ≤ e.timestamp) : DeltasFit prev events := by
  have hrange : ∀ t : EpochTimeMs, 0 ≤ t → 0 ≤ t.toInt ∧ t.toInt < 2 ^ (64 - 1) :=
    fun t ht => ⟨Int64.le_iff_toInt_le.mp ht, Int64.toInt_lt t⟩
  apply SignedRange.steps_of_nonneg
  rw [List.forall_mem_cons, List.forall_mem_map]
  exact ⟨hrange prev hprev, fun e he => hrange e.timestamp (hevents e he)⟩

-- The events a search looks at, and what is left after a match.
def searched (iv : TimestampInterval) (query : GoString → Option ℕ) :
    List LogEvent → List LogEvent × Option (List LogEvent)
  | [] => ([], none)
  | e :: es =>
    if iv.upper ≤ e.timestamp then ([e], none)
    else if iv.lower > e.timestamp then
      (e :: (searched iv query es).1, (searched iv query es).2)
    else match query e.logMessage with
      | none => (e :: (searched iv query es).1, (searched iv query es).2)
      | some _ => ([e], some es)

def DeserializerOp.visits (clp : IrReadApi) :
    DeserializerOp → List LogEvent → List LogEvent × Option (List LogEvent)
  | .deserializeLogEvent, [] => ([], none)
  | .deserializeLogEvent, e :: es => ([e], some es)
  | .deserializeWildcardMatch queries timeInterval, es =>
    searched timeInterval (matchingQuery clp queries) es

def visited (clp : IrReadApi) : List DeserializerOp → List LogEvent → List LogEvent
  | [], _ => []
  | op :: ops, es => match op.visits clp es with
    | (looked, none) => looked
    | (looked, some next) => looked ++ visited clp ops next

end events

section writing

variable {clp : IrReadApi}

theorem serializeAll_cases (call : SerializeCall) (calls : List SerializeCall)
    (hcall : CarriesEvents clp call.clp .fourByte) {serializer : Serializer} {prev : EpochTimeMs}
    (hf : serializer.Follows .fourByte prev) :
    (∃ serializer', serializer'.Follows .fourByte prev ∧
      serializeAll ε serializer (call :: calls) = serializeAll ε serializer' calls ∧
      subtractions ε serializer (call :: calls) = subtractions ε serializer' calls) ∨
    ∃ serializer' irView, serializer'.Follows .fourByte call.event.timestamp ∧
      EventBytes clp .fourByte irView (call.event.logMessage, call.event.timestamp - prev) ∧
      serializeAll ε serializer (call :: calls) =
        ⟨call.event, irView, serializer'⟩ :: serializeAll ε serializer' calls ∧
      subtractions ε serializer (call :: calls) =
        (call.event.timestamp, prev) :: subtractions ε serializer' calls := by
  rw [serializeAll, subtractions]
  cases hs : serializeLogEvent (ε := ε) call.clp serializer call.event with
  | mk serializer' res =>
    cases res with
    | error err => exact .inl ⟨serializer', serialize_failed hf hs, rfl, rfl⟩
    | ok irView =>
      obtain ⟨hf', hview⟩ := serialize_event hcall hf hs
      cases serializer with
      | eightByte c => cases hf
      | fourByte c prevTimestamp =>
        obtain rfl : prevTimestamp = prev := hf.2
        exact .inr ⟨serializer', irView, hf', hview, rfl, rfl⟩

theorem subtractions_fit {calls : List SerializeCall}
    (hcalls : ∀ call ∈ calls, CarriesEvents clp call.clp .fourByte) {serializer : Serializer}
    {prev : EpochTimeMs} (hf : serializer.Follows .fourByte prev) :
    (∀ s ∈ subtractions ε serializer calls, SignedRange.Fits 64 (s.1.toInt - s.2.toInt)) ↔
      DeltasFit prev ((serializeAll ε serializer calls).map Serialized.event) := by
  induction calls generalizing serializer prev with
  | nil => simp [subtractions, serializeAll, DeltasFit]
  | cons call calls ih =>
    rw [List.forall_mem_cons] at hcalls
    rcases serializeAll_cases (ε := ε) call calls hcalls.1 hf with
      ⟨serializer', hf', hall, hsub⟩ | ⟨serializer', irView, hf', _, hall, hsub⟩
    · rw [hall, hsub]
      exact ih hcalls.2 hf'
    · rw [hall, hsub, List.forall_mem_cons, ih hcalls.2 hf']
      simp only [DeltasFit, List.map_cons, SignedRange.steps_cons]

theorem serializeAll_bytes {calls : List SerializeCall}
    (hcalls : ∀ call ∈ calls, CarriesEvents clp call.clp .fourByte) {serializer : Serializer}
    {prev : EpochTimeMs} (hf : serializer.Follows .fourByte prev) :
    List.Forall₂ (EventBytes clp .fourByte)
      ((serializeAll ε serializer calls).map Serialized.irView)
      (encoded .fourByte prev ((serializeAll ε serializer calls).map Serialized.event)) := by
  induction calls generalizing serializer prev with
  | nil => exact .nil
  | cons call calls ih =>
    rw [List.forall_mem_cons] at hcalls
    rcases serializeAll_cases (ε := ε) call calls hcalls.1 hf with
      ⟨serializer', hf', hall, _⟩ | ⟨serializer', irView, hf', hview, hall, _⟩
    · rw [hall]
      exact ih hcalls.2 hf'
    · rw [hall]
      exact .cons hview (ih hcalls.2 hf')

end writing

section reading

variable {clp : IrReadApi} {left : BufferReader → UInt8 → EpochTimeMs} {rest : List UInt8}

-- Nothing, or the end of the stream and what may follow it.
def NoEvent (clp : IrReadApi) (rest : List UInt8) : Prop :=
  ∀ tag q, clp.deserializeTag ⟨rest, 0⟩ = .ok (tag, q) → tag = clp.eof

theorem noEvent_nil : NoEvent clp [] := by
  intro tag q h
  rw [clp.tag_end (le_refl _)] at h
  cases h

theorem EofByte.noEvent (h : EofByte clp) (rest : List UInt8) : NoEvent clp (0 :: rest) := by
  intro tag q ht
  obtain ⟨q', ht'⟩ := h.2 rest
  rw [ht] at ht'
  cases ht'
  exact h.1.symm

structure Ahead (clp : IrReadApi) (rest : List UInt8) (t : EpochTimeMs) (events : List LogEvent)
    (b : List UInt8) : Prop where
  parts : ∃ ps, b = ps.flatten ++ rest ∧
    List.Forall₂ (EventBytes clp .fourByte) ps (encoded .fourByte t events)

theorem Ahead.nil {t : EpochTimeMs} {b : List UInt8} (h : Ahead clp rest t [] b) : b = rest := by
  obtain ⟨ps, rfl, hps⟩ := h.parts
  cases hps
  rfl

theorem Ahead.cons {t : EpochTimeMs} {e : LogEvent} {es : List LogEvent} {b : List UInt8}
    (h : Ahead clp rest t (e :: es) b) :
    ∃ p b', b = p ++ b' ∧ EventBytes clp .fourByte p (e.logMessage, e.timestamp - t) ∧
      Ahead clp rest e.timestamp es b' := by
  obtain ⟨ps, rfl, hps⟩ := h.parts
  cases hps with
  | @cons p _ ps _ hp hps =>
    exact ⟨p, ps.flatten ++ rest, by simp, hp, ps, rfl, hps⟩

theorem Ahead.events_eq_nil {t : EpochTimeMs} {events : List LogEvent} {b : List UInt8}
    (h : Ahead clp rest t events b) (hb : 0 ≥ b.length) : events = [] := by
  cases events with
  | nil => rfl
  | cons e es =>
    obtain ⟨p, b', rfl, hp, _⟩ := h.cons
    have hlen := (itemDecoder clp .fourByte).advance (hp.exact.whole b')
    omega

variable (left) in
theorem next_event (hpi : clp.PositionIndependent) (t : EpochTimeMs) {b p b' : List UInt8}
    {pos : ℕ} {m : GoString} {v : EpochTimeMs} (hp : EventBytes clp .fourByte p (m, v))
    (hb : b.drop pos = p ++ b') (hpos : pos ≤ b.length) :
    Native.Checked.nextLogEvent clp left .fourByte ⟨t⟩ ⟨b, pos⟩ =
      (signedAdd t v).map (fun timestamp => .ok (⟨m, timestamp⟩, pos + p.length)) := by
  obtain ⟨tag, q, ht, hne, he⟩ := hp.whole b'
  have hlen : (b.take pos).length = pos := List.length_take_of_le hpos
  have hsplit : b.take pos ++ (p ++ b') = b := by rw [← hb, List.take_append_drop]
  have htag := hpi.tag (b.take pos) (p ++ b') 0
  have hevent := hpi.event .fourByte (b.take pos) (p ++ b') q tag
  rw [hsplit, hlen, ht] at htag
  rw [hsplit, hlen, he] at hevent
  rw [Native.Checked.nextLogEvent]
  simp only [Nat.add_zero, Except.map] at htag hevent
  simp only [htag, hevent, if_neg hne, Native.Checked.stamp]
  cases signedAdd t v <;> rfl

variable (left) in
theorem next_end (hpi : clp.PositionIndependent) (hrest : NoEvent clp rest) (t : EpochTimeMs)
    {b : List UInt8} {pos : ℕ} (hb : b.drop pos = rest) (hpos : pos ≤ b.length) :
    ∃ err, Native.Checked.nextLogEvent clp left .fourByte ⟨t⟩ ⟨b, pos⟩ = some (.error err) := by
  have hlen : (b.take pos).length = pos := List.length_take_of_le hpos
  have htag := hpi.tag (b.take pos) rest 0
  rw [← hb, List.take_append_drop, hlen, hb] at htag
  rw [Native.Checked.nextLogEvent]
  simp only [Nat.add_zero] at htag
  rw [htag]
  cases ht : clp.deserializeTag ⟨rest, 0⟩ with
  | error err => exact ⟨err, rfl⟩
  | ok tp =>
    refine ⟨.eof, ?_⟩
    simp only [Except.map]
    exact if_pos (hrest tp.1 tp.2 ht)

-- A call against the events ahead of it: `Found t` says what holds after a match whose event has
-- the timestamp `t`.
inductive Outcome {β : Type} (Stopped : β → Prop)
    (Found : EpochTimeMs → List LogEvent → β → Prop) (t : EpochTimeMs) :
    List LogEvent × Option (List LogEvent) → Option β → Prop
  | overflowed {looked next} (h : ¬ DeltasFit t looked) :
    Outcome Stopped Found t (looked, next) none
  | stopped {looked r} (h : DeltasFit t looked) (hr : Stopped r) :
    Outcome Stopped Found t (looked, none) (some r)
  | found {looked next t' r} (h : ∀ more, DeltasFit t (looked ++ more) ↔ DeltasFit t' more)
    (hr : Found t' next r) : Outcome Stopped Found t (looked, some next) (some r)

section outcomes

variable {β γ : Type} {Stopped : β → Prop} {Found : EpochTimeMs → List LogEvent → β → Prop}

theorem deltasFit_nil (t : EpochTimeMs) : DeltasFit t [] := SignedRange.steps_nil _

theorem deltasFit_cons {t : EpochTimeMs} {e : LogEvent} {es : List LogEvent} :
    DeltasFit t (e :: es) ↔ SignedRange.Fits 64 (e.timestamp.toInt - t.toInt) ∧
      DeltasFit e.timestamp es := SignedRange.steps_cons

theorem DeltasFit.of_prefix {t : EpochTimeMs} {es es' : List LogEvent} (h : DeltasFit t es')
    (hp : es <+: es') : DeltasFit t es := SignedRange.Steps.of_prefix h (hp.map _)

theorem deltasFit_head {t : EpochTimeMs} {e : LogEvent} {es : List LogEvent}
    (h : DeltasFit t (e :: es)) : SignedRange.Fits 64 (e.timestamp.toInt - t.toInt) :=
  (deltasFit_cons.mp h).1

theorem Outcome.single {t : EpochTimeMs} {e : LogEvent} {next : List LogEvent} {r : β}
    (he : SignedRange.Fits 64 (e.timestamp.toInt - t.toInt)) (hr : Found e.timestamp next r) :
    Outcome Stopped Found t ([e], some next) (some r) := by
  refine .found (fun more => ?_) hr
  rw [List.singleton_append, deltasFit_cons]
  exact and_iff_right he

theorem Outcome.cons {t : EpochTimeMs} {e : LogEvent} {looked : List LogEvent}
    {next : Option (List LogEvent)} {r : Option β}
    (he : SignedRange.Fits 64 (e.timestamp.toInt - t.toInt))
    (h : Outcome Stopped Found e.timestamp (looked, next) r) :
    Outcome Stopped Found t (e :: looked, next) r := by
  cases h with
  | overflowed h =>
    apply Outcome.overflowed
    intro hfit
    exact h (deltasFit_cons.mp hfit).2
  | stopped h hr => exact .stopped (deltasFit_cons.mpr ⟨he, h⟩) hr
  | found h hr =>
    refine .found (fun more => ?_) hr
    rw [List.cons_append, deltasFit_cons, h more]
    exact and_iff_right he

theorem Outcome.map {t : EpochTimeMs} {visits : List LogEvent × Option (List LogEvent)}
    {r : Option β} {f : β → γ} {Stopped' : γ → Prop}
    {Found' : EpochTimeMs → List LogEvent → γ → Prop} (h : Outcome Stopped Found t visits r)
    (hstopped : ∀ x, Stopped x → Stopped' (f x))
    (hfound : ∀ t' next x, Found t' next x → Found' t' next (f x)) :
    Outcome Stopped' Found' t visits (r.map f) := by
  cases h with
  | overflowed h => exact .overflowed h
  | stopped h hr => exact .stopped h (hstopped _ hr)
  | found h hr => exact .found h (hfound _ _ _ hr)

end outcomes

section calls

variable {iv : TimestampInterval} {query : GoString → Option ℕ} {d : Deserializer}

theorem searched_overflow {t : EpochTimeMs} {e : LogEvent} (es : List LogEvent)
    (he : ¬ SignedRange.Fits 64 (e.timestamp.toInt - t.toInt)) :
    ¬ DeltasFit t (searched iv query (e :: es)).1 := by
  intro h
  apply he
  rw [searched] at h
  split at h
  · exact deltasFit_head h
  · split at h
    · exact deltasFit_head h
    · split at h <;> exact deltasFit_head h

variable (left iv query) in
theorem searchLoop_outcome (hpi : clp.PositionIndependent) (hrest : NoEvent clp rest)
    {events : List LogEvent} {t : EpochTimeMs} {b : List UInt8} {fuel pos : ℕ}
    (h : Ahead clp rest t events (b.drop pos)) (hpos : pos ≤ b.length)
    (hfuel : b.length - pos < fuel) :
    Outcome (fun r : Native.Deserializer × Except ℕ (ℕ × LogEventView × ℕ) =>
        ∃ err, r.2 = .error err)
      (fun t' next r => r.1 = ⟨t'⟩ ∧ ∃ pos' event k, r.2 = .ok (pos', event, k) ∧
        Ahead clp rest t' next (b.drop pos'))
      t (searched iv query events)
      (Native.Checked.searchLoop clp left .fourByte b iv query fuel pos ⟨t⟩) := by
  induction events generalizing t fuel pos with
  | nil =>
    obtain ⟨err, hnext⟩ := next_end left hpi hrest t h.nil hpos
    cases fuel with
    | zero => omega
    | succ fuel =>
      rw [Native.Checked.searchLoop, hnext]
      exact .stopped (deltasFit_nil t) ⟨_, rfl⟩
  | cons e es ih =>
    obtain ⟨p, b', hb, hp, hahead⟩ := h.cons
    have hnext := next_event left hpi t hp hb hpos
    have hlen := (itemDecoder clp .fourByte).advance (hp.exact.whole [])
    have hend := congrArg List.length hb
    rw [List.length_drop, List.length_append] at hend
    have hdrop : b.drop (pos + p.length) = b' := by
      rw [← List.drop_drop, hb, List.drop_left]
    rw [← hdrop] at hahead
    cases fuel with
    | zero => omega
    | succ fuel =>
      rw [Native.Checked.searchLoop, hnext, signedAdd_sub]
      by_cases hfit : SignedRange.Fits 64 (e.timestamp.toInt - t.toInt)
      · have hleft : b.length - (pos + p.length) < fuel := by omega
        have next := ih hahead (by omega) hleft
        rw [if_pos hfit, searched]
        simp only [Option.map_some, clp.tryGetPos_eq]
        split
        · exact .stopped (deltasFit_cons.mpr ⟨hfit, deltasFit_nil _⟩) ⟨_, rfl⟩
        · split
          · exact next.cons hfit
          · cases query e.logMessage with
            | none => exact next.cons hfit
            | some k => exact .single hfit ⟨rfl, _, _, _, rfl, hahead⟩
      · rw [if_neg hfit]
        exact .overflowed (searched_overflow es hfit)

variable {α : Type}

def Failed (r : Deserializer × Except (GoError ε) (α × ℕ)) : Prop := ∃ err, r.2 = .error err

def Resumes (clp : IrReadApi) (rest : List UInt8) (d : Deserializer) (b : List UInt8)
    (t : EpochTimeMs) (next : List LogEvent)
    (r : Deserializer × Except (GoError ε) (α × ℕ)) : Prop :=
  r.1 = d.at t ∧ ∃ result pos, r.2 = .ok (result, pos) ∧ Ahead clp rest t next (b.drop pos)

theorem read_outcome (hpi : clp.PositionIndependent) (hrest : NoEvent clp rest)
    (hd : d.encoding = .fourByte) {events : List LogEvent} {t : EpochTimeMs} {b : List UInt8}
    (h : Ahead clp rest t events b) :
    Outcome (Failed (ε := ε)) (Resumes clp rest d b) t
      (DeserializerOp.deserializeLogEvent.visits clp events)
      (Checked.deserializeLogEvent clp left (d.at t) b) := by
  rw [Checked.deserializeLogEvent]
  split
  · rename_i hb
    obtain rfl := h.events_eq_nil hb
    exact .stopped (deltasFit_nil t) ⟨_, rfl⟩
  · simp only [Deserializer.cptr_at, Deserializer.encoding_at, hd,
      Native.Checked.deserializeLogEvent]
    cases events with
    | nil =>
      have hb : b.drop 0 = rest := h.nil
      obtain ⟨err, hnext⟩ := next_end left hpi hrest t hb (Nat.zero_le _)
      rw [hnext]
      exact .stopped (deltasFit_nil t) ⟨_, rfl⟩
    | cons e es =>
      obtain ⟨p, b', rfl, hp, hahead⟩ := h.cons
      have hb : (p ++ b').drop 0 = p ++ b' := List.drop_zero
      have hnext := next_event left hpi t hp hb (Nat.zero_le _)
      rw [hnext, signedAdd_sub]
      by_cases hfit : SignedRange.Fits 64 (e.timestamp.toInt - t.toInt)
      · simp only [if_pos hfit, Option.map_some, clp.tryGetPos_eq, Deserializer.at_setCptr]
        refine .single hfit ⟨rfl, _, _, rfl, ?_⟩
        rw [Nat.zero_add, List.drop_left]
        exact hahead
      · rw [if_neg hfit]
        exact .overflowed fun h => hfit (deltasFit_head h)

theorem search_outcome (hpi : clp.PositionIndependent) (hrest : NoEvent clp rest)
    (hd : d.encoding = .fourByte) (queries : List WildcardQuery) {events : List LogEvent}
    {t : EpochTimeMs} {b : List UInt8} (h : Ahead clp rest t events b) :
    Outcome (Failed (ε := ε)) (Resumes clp rest d b) t
      ((DeserializerOp.deserializeWildcardMatch queries iv).visits clp events)
      (Checked.deserializeWildcardMatch clp left (mergeWildcardQueries queries) iv (d.at t) b) := by
  rw [Checked.deserializeWildcardMatch]
  split
  · rename_i hb
    obtain rfl := h.events_eq_nil hb
    exact .stopped (deltasFit_nil t) ⟨_, rfl⟩
  · have hfuel : b.length - 0 < b.length + 1 := by omega
    have hout := searchLoop_outcome left iv (matchingQuery clp queries) hpi hrest h (Nat.zero_le _)
      hfuel
    have hq : Native.queryFn clp (queries.map WildcardQuery.pair) = matchingQuery clp queries := rfl
    simp only [Native.Checked.deserializeWildcardMatch, Deserializer.cptr_at, splitQueries_view,
      Deserializer.encoding_at, hd, hq]
    revert hout
    rw [DeserializerOp.visits]
    generalize searched iv (matchingQuery clp queries) events = visits
    generalize Native.Checked.searchLoop clp left .fourByte b iv (matchingQuery clp queries)
      (b.length + 1) 0 ⟨t⟩ = answer
    intro hout
    cases hout with
    | overflowed hfit => exact .overflowed hfit
    | @stopped looked r hfit hr =>
      obtain ⟨n, _⟩ := r
      obtain ⟨err, rfl⟩ := hr
      exact .stopped hfit ⟨_, rfl⟩
    | @found looked next t' r hfit hr =>
      obtain ⟨n, _⟩ := r
      obtain ⟨rfl, pos, event, k, rfl, hahead⟩ := hr
      exact .found hfit ⟨Deserializer.at_setCptr d t t', _, _, rfl, hahead⟩

variable (left) in
theorem exec_outcome (hpi : clp.PositionIndependent) (hrest : NoEvent clp rest)
    (hd : d.encoding = .fourByte) (op : DeserializerOp) {events : List LogEvent}
    {t : EpochTimeMs} {b : List UInt8} (h : Ahead clp rest t events b) :
    Outcome (Failed (ε := ε)) (Resumes clp rest d b) t (op.visits clp events)
      (Checked.exec clp left (d.at t) b op) := by
  cases op with
  | deserializeLogEvent =>
    apply (read_outcome hpi hrest hd h).map
    · rintro r ⟨err, hr⟩
      exact ⟨err, by rw [plainResult, hr]; rfl⟩
    · rintro t' next r ⟨hat, event, pos, hr, hahead⟩
      exact ⟨hat, (event, none), pos, by rw [plainResult, hr]; rfl, hahead⟩
  | deserializeWildcardMatch queries iv =>
    apply (search_outcome hpi hrest hd queries h).map
    · rintro r ⟨err, hr⟩
      exact ⟨err, by rw [indexedResult, hr]; rfl⟩
    · rintro t' next r ⟨hat, result, pos, hr, hahead⟩
      exact ⟨hat, (result.1, some result.2), pos, by rw [indexedResult, hr]; rfl, hahead⟩

variable (left) in
theorem execOps_isSome_iff (hpi : clp.PositionIndependent) (hrest : NoEvent clp rest)
    (hd : d.encoding = .fourByte) (ops : List DeserializerOp) {events : List LogEvent}
    {t : EpochTimeMs} {b : List UInt8} (h : Ahead clp rest t events b) :
    (Checked.execOps (ε := ε) clp left ops (d.at t) b).isSome ↔
      DeltasFit t (visited clp ops events) := by
  induction ops generalizing events t b with
  | nil => exact iff_of_true rfl (deltasFit_nil t)
  | cons op ops ih =>
    have hout := exec_outcome (ε := ε) left hpi hrest hd op h
    rw [Checked.execOps, visited]
    generalize op.visits clp events = visits at hout ⊢
    generalize Checked.exec (ε := ε) clp left (d.at t) b op = answer at hout ⊢
    cases hout with
    | @overflowed looked next hfit =>
      refine iff_of_false (by simp) ?_
      cases next with
      | none => exact hfit
      | some next =>
        intro hall
        exact hfit (hall.of_prefix (List.prefix_append _ _))
    | @stopped looked r hfit hr =>
      obtain ⟨d', _⟩ := r
      obtain ⟨err, rfl⟩ := hr
      exact iff_of_true rfl hfit
    | @found looked next t' r hfit hr =>
      obtain ⟨d', _⟩ := r
      obtain ⟨rfl, result, pos, rfl, hahead⟩ := hr
      simp only [Option.isSome_map]
      rw [ih hahead, hfit]

end calls

section visits

variable {iv : TimestampInterval} {query : GoString → Option ℕ}

theorem searched_split (es : List LogEvent) : (searched iv query es).1 <+: es ∧
    ∀ next, (searched iv query es).2 = some next → es = (searched iv query es).1 ++ next := by
  induction es with
  | nil => exact ⟨List.prefix_rfl, by simp [searched]⟩
  | cons e es ih =>
    have skip : e :: (searched iv query es).1 <+: e :: es ∧
        ∀ next, (searched iv query es).2 = some next →
          e :: es = e :: (searched iv query es).1 ++ next :=
      ⟨(List.prefix_cons_inj e).mpr ih.1, fun next h => congrArg (e :: ·) (ih.2 next h)⟩
    rw [searched]
    split
    · exact ⟨by simp, by simp⟩
    · split
      · exact skip
      · cases query e.logMessage with
        | none => exact skip
        | some k => exact ⟨by simp, by simp⟩

variable (clp) in
theorem visits_split (op : DeserializerOp) (es : List LogEvent) : (op.visits clp es).1 <+: es ∧
    ∀ next, (op.visits clp es).2 = some next → es = (op.visits clp es).1 ++ next := by
  cases op with
  | deserializeLogEvent =>
    cases es with
    | nil => exact ⟨List.prefix_rfl, by simp [DeserializerOp.visits]⟩
    | cons e es => exact ⟨by simp [DeserializerOp.visits], by simp [DeserializerOp.visits]⟩
  | deserializeWildcardMatch queries iv => exact searched_split es

theorem prefix_visited (ops : List DeserializerOp) (es : List LogEvent) :
    visited clp ops es <+: es := by
  induction ops generalizing es with
  | nil => exact List.nil_prefix
  | cons op ops ih =>
    have hsplit := visits_split clp op es
    rw [visited]
    rcases hv : op.visits clp es with ⟨looked, _ | next⟩
    · rw [hv] at hsplit
      exact hsplit.1
    · rw [hv] at hsplit
      have hes : es = looked ++ next := hsplit.2 next rfl
      simp only [hes]
      exact (List.prefix_append_right_inj looked).mpr (ih next)

theorem visited_reads (es : List LogEvent) :
    visited clp (List.replicate es.length .deserializeLogEvent) es = es := by
  induction es with
  | nil => rfl
  | cons e es ih => exact congrArg (e :: ·) ih

end visits

theorem delta_arithmetic_iff {clpw : IrWriteApi} {json : JsonApi ε} (hjson : json.RejectsEmpty)
    (hpi : clp.PositionIndependent) (hpre : CarriesReference clp clpw json)
    {tsPattern tsPatternSyntax timeZoneId : GoString} {referenceTs : EpochTimeMs}
    {serializer : Serializer} {preamble : BufView}
    (hnew : fourByteSerializer (ε := ε) clpw tsPattern tsPatternSyntax timeZoneId referenceTs =
      .ok (serializer, preamble)) {calls : List SerializeCall}
    (hcalls : ∀ call ∈ calls, CarriesEvents clp call.clp .fourByte) (hrest : NoEvent clp rest)
    (left : BufferReader → UInt8 → EpochTimeMs) :
    ∃ events irBuf d pos, events = (serializeAll ε serializer calls).map Serialized.event ∧
      irBuf = preamble ++
        (((serializeAll ε serializer calls).map Serialized.irView).flatten ++ rest) ∧
      deserializePreamble clp json irBuf = .ok (d, pos) ∧
      ((∀ s ∈ subtractions ε serializer calls, SignedRange.Fits 64 (s.1.toInt - s.2.toInt)) ↔
        DeltasFit referenceTs events) ∧
      (∀ ops, (Checked.execOps (ε := ε) clp left ops d (irBuf.drop pos)).isSome ↔
        DeltasFit referenceTs (visited clp ops events)) ∧
      ((∀ ops, (Checked.execOps (ε := ε) clp left ops d (irBuf.drop pos)).isSome) ↔
        DeltasFit referenceTs events) := by
  obtain ⟨hfollows, d, henc, hopen⟩ := fourByteSerializer_opens hjson hpre hnew
  have hahead : Ahead clp rest referenceTs ((serializeAll ε serializer calls).map Serialized.event)
      (((serializeAll ε serializer calls).map Serialized.irView).flatten ++ rest) :=
    ⟨_, rfl, serializeAll_bytes hcalls hfollows⟩
  have hops := fun ops => execOps_isSome_iff (ε := ε) left hpi hrest henc ops hahead
  refine ⟨_, _, _, _, rfl, rfl, hopen _,
    subtractions_fit hcalls hfollows, ?_, ?_⟩
  · rw [List.drop_left]
    exact hops
  · rw [List.drop_left]
    constructor
    · intro hall
      have hreads := (hops (List.replicate
        ((serializeAll ε serializer calls).map Serialized.event).length .deserializeLogEvent)).mp
        (hall _)
      rw [visited_reads] at hreads
      exact hreads
    · intro hfit ops
      exact (hops ops).mpr (hfit.of_prefix (prefix_visited ops _))

end reading

-- The first and the last delta are the greatest of the range, the third is the least.
def limitEvents : List SerializeCall :=
  [⟨SampleCodec.wideWriteApi, ⟨ascii "a", Int64.maxValue⟩⟩,
    ⟨SampleCodec.wideWriteApi, ⟨ascii "b", 0⟩⟩,
    ⟨SampleCodec.wideWriteApi, ⟨ascii "c", Int64.minValue⟩⟩,
    ⟨SampleCodec.wideWriteApi, ⟨ascii "d", -1⟩⟩]

open SampleCodec in
theorem limitEvents_in_range : ∃ serializer preamble,
    fourByteSerializer (ε := Unit) wideWriteApi [] [] (ascii "UTC") 0 =
      .ok (serializer, preamble) ∧
    (serializeAll Unit serializer limitEvents).length = 4 ∧
    (∀ s ∈ subtractions Unit serializer limitEvents,
      SignedRange.Fits 64 (s.1.toInt - s.2.toInt)) ∧
    ∀ rest ∈ [[], [0]], ∃ irBuf d pos,
      irBuf = preamble ++
        (((serializeAll Unit serializer limitEvents).map Serialized.irView).flatten ++ rest) ∧
      deserializePreamble wideReadApi jsonApi irBuf = .ok (d, pos) ∧
      ∀ ops, (Checked.execOps (ε := Unit) wideReadApi (fun _ _ => 0) ops d
        (irBuf.drop pos)).isSome := by
  have hrun : (fourByteSerializer (ε := Unit) wideWriteApi [] [] (ascii "UTC") 0).toOption.map
      (fun r => (serializeAll Unit r.1 limitEvents).map Serialized.event) =
      some (limitEvents.map SerializeCall.event) := by
    decide +kernel
  obtain ⟨⟨serializer, preamble⟩, hnew, hevents⟩ := Option.map_eq_some_iff.mp hrun
  have hres := ok_of_toOption hnew
  have hcalls : ∀ call ∈ limitEvents, CarriesEvents wideReadApi call.clp .fourByte := by
    simp only [limitEvents, List.forall_mem_cons]
    exact ⟨wide_carriesEvents _, wide_carriesEvents _, wide_carriesEvents _,
      wide_carriesEvents _, by simp⟩
  have hlimits : DeltasFit 0 (limitEvents.map SerializeCall.event) := by decide +kernel
  rw [← hevents] at hlimits
  have hlen := congrArg List.length hevents
  rw [List.length_map] at hlen
  have heof : EofByte wideReadApi := ⟨codec.eof.1, codec.eof.2⟩
  have hrange : ∀ rest, NoEvent wideReadApi rest → _ := fun rest hrest =>
    delta_arithmetic_iff jsonApi_rejectsEmpty wideReadApi_positionIndependent
      wide_carriesReference hres hcalls hrest (fun _ _ => 0)
  refine ⟨serializer, preamble, hres, hlen, ?_, ?_⟩
  · obtain ⟨events, _, _, _, rfl, _, _, hsub, _⟩ := hrange [] noEvent_nil
    exact hsub.mpr hlimits
  · intro rest hmem
    have hrest : NoEvent wideReadApi rest := by
      rcases List.mem_pair.mp hmem with rfl | rfl
      · exact noEvent_nil
      · exact heof.noEvent []
    obtain ⟨events, irBuf, d, pos, rfl, hbuf, hpre, _, _, hops⟩ := hrange rest hrest
    exact ⟨irBuf, d, pos, hbuf, hpre, hops.mpr hlimits⟩

-- From one limit of `int64` to the other: the delta wraps to -1 or to 1, and adding it back leaves
-- the range.
open SampleCodec in
theorem limits_overflow :
    (∀ delta, ∃ irView, wideWriteApi.serializeLogEvent .fourByte delta (ascii "hello") [] [] =
      (true, ascii "hello", irView) ∧
      EventBytes wideReadApi .fourByte irView (ascii "hello", delta)) ∧
    ∀ r ∈ [(Int64.minValue, Int64.maxValue), (Int64.maxValue, Int64.minValue)],
      ∃ serializer preamble irView d pos,
        fourByteSerializer (ε := Unit) wideWriteApi [] [] (ascii "UTC") r.1 =
          .ok (serializer, preamble) ∧
        (serializeAll Unit serializer [⟨wideWriteApi, ⟨ascii "hello", r.2⟩⟩]).map
          (fun s => (s.event, s.irView)) = [(⟨ascii "hello", r.2⟩, irView)] ∧
        subtractions Unit serializer [⟨wideWriteApi, ⟨ascii "hello", r.2⟩⟩] = [(r.2, r.1)] ∧
        ¬ SignedRange.Fits 64 (r.2.toInt - r.1.toInt) ∧
        deserializePreamble wideReadApi jsonApi (preamble ++ irView) = .ok (d, pos) ∧
        Checked.deserializeLogEvent (ε := Unit) wideReadApi (fun _ _ => 0) d
          ((preamble ++ irView).drop pos) = none ∧
        Checked.deserializeWildcardMatch (ε := Unit) wideReadApi (fun _ _ => 0)
          (mergeWildcardQueries []) ⟨0, Int64.maxValue⟩ d ((preamble ++ irView).drop pos) =
          none := by
  refine ⟨fun delta => ⟨_, wide_accepts (by decide) delta [] [],
    wide_carriesEvents _ (wide_accepts (by decide) delta [] [])⟩, ?_⟩
  intro r hr
  refine ⟨.fourByte ⟨⟨[], [], ascii "UTC"⟩,
      some ⟨[], preamble .fourByte (text .fourByte (ascii "UTC") r.1)⟩⟩ r.1,
    preamble .fourByte (text .fourByte (ascii "UTC") r.1), event .eightByte (ascii "hello")
      (r.2 - r.1), .fourByte ⟨⟨[], [], ascii "UTC"⟩, some ⟨r.1⟩⟩ r.1,
    (preamble .fourByte (text .fourByte (ascii "UTC") r.1)).length, ?_⟩
  rcases List.mem_pair.mp hr with rfl | rfl <;> decide +kernel

end ClpFfiGo
