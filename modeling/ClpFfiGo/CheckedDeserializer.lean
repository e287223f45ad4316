import ClpFfiGo.ItemReading
import ClpFfiGo.Foundation.SignedRange

namespace ClpFfiGo

-- An addition of `int64_t` in C++: past the range its behaviour is undefined, here `none`.
def signedAdd (a b : Int64) : Option Int64 :=
  if SignedRange.Fits 64 (a.toInt + b.toInt) then some (a + b) else none

theorem signedAdd_eq {a b c : Int64} (h : signedAdd a b = some c) : a + b = c := by
  rw [signedAdd] at h
  split at h
  · exact Option.some.inj h
  · cases h

theorem signedAdd_sub (prev timestamp : Int64) : signedAdd prev (timestamp - prev) =
    if SignedRange.Fits 64 (timestamp.toInt - prev.toInt) then some timestamp else none := by
  have hfits : SignedRange.Fits 64 (prev.toInt + (timestamp - prev).toInt) ↔
      SignedRange.Fits 64 (timestamp.toInt - prev.toInt) :=
    SignedRange.fits_add_sub_iff prev.toBitVec timestamp.toBitVec
  have hsum : prev + (timestamp - prev) = timestamp := by
    rw [Int64.add_comm]
    exact Int64.sub_add_cancel timestamp prev
  simp only [signedAdd, hfits, hsum]

namespace Native.Checked

variable (clp : IrReadApi) (left : BufferReader → UInt8 → EpochTimeMs)

def stamp (deserializer : Deserializer) (enc : Encoding) (value : EpochTimeMs) :
    Option EpochTimeMs :=
  match enc with
  | .eightByte => some value
  | .fourByte => signedAdd deserializer.timestamp value

-- The sum is formed before the core's error is tested; `left` is what a failed decode leaves in
-- the delta.
def nextLogEvent (enc : Encoding) (deserializer : Deserializer) (irBuf : BufferReader) :
    Option (Except IRErrorCode (LogEventView × ℕ)) :=
  match clp.deserializeTag irBuf with
  | .error err => some (.error err)
  | .ok (tag, pos) =>
    if tag = clp.eof then some (.error .eof)
    else match clp.deserializeLogEvent enc ⟨irBuf.data, pos⟩ tag with
      | .error err => match stamp deserializer enc (left ⟨irBuf.data, pos⟩ tag) with
        | none => none
        | some _ => some (.error err)
      | .ok ((message, value), eventEnd) => match stamp deserializer enc value with
        | none => none
        | some timestamp => some (.ok (⟨message, timestamp⟩, eventEnd))

def deserializeLogEvent (enc : Encoding) (irView : List UInt8)
    (irDeserializer : Option Deserializer) :
    Option (Option Deserializer × Except ℕ (ℕ × LogEventView)) :=
  match irDeserializer with
  | none => some (none, .error IRErrorCode.corruptedIr.toInt)
  | some deserializer =>
    match nextLogEvent clp left enc deserializer ⟨irView, 0⟩ with
    | none => none
    | some (.error err) => some (some deserializer, .error err.toInt)
    | some (.ok (event, eventEnd)) =>
      match clp.tryGetPos ⟨irView, eventEnd⟩ with
      | none => some (some ⟨event.timestamp⟩, .error IRErrorCode.decodeError.toInt)
      | some pos => some (some ⟨event.timestamp⟩, .ok (pos, event))

def searchLoop (enc : Encoding) (irView : List UInt8) (timeInterval : TimestampInterval)
    (query : GoString → Option ℕ) :
    ℕ → ℕ → Deserializer → Option (Deserializer × Except ℕ (ℕ × LogEventView × ℕ))
  | 0, _, deserializer => some (deserializer, .error IRErrorCode.corruptedIr.toInt)
  | fuel + 1, pos, deserializer =>
    match nextLogEvent clp left enc deserializer ⟨irView, pos⟩ with
    | none => none
    | some (.error err) => some (deserializer, .error err.toInt)
    | some (.ok (event, eventEnd)) =>
      if timeInterval.upper ≤ event.timestamp then
        some (⟨event.timestamp⟩, .error (IRErrorCode.incompleteIr.toInt + 1))
      else if timeInterval.lower > event.timestamp then
        searchLoop enc irView timeInterval query fuel eventEnd ⟨event.timestamp⟩
      else match query event.logMessageView with
        | none => searchLoop enc irView timeInterval query fuel eventEnd ⟨event.timestamp⟩
        | some matchingQuery =>
          match clp.tryGetPos ⟨irView, eventEnd⟩ with
          | none => some (⟨event.timestamp⟩, .error IRErrorCode.decodeError.toInt)
          | some currIrPos => some (⟨event.timestamp⟩, .ok (currIrPos, event, matchingQuery))

-- The outer `none` is undefined behaviour, the inner one an exception that leaves the function.
def deserializeWildcardMatch (enc : Encoding) (irView : List UInt8)
    (irDeserializer : Option Deserializer) (timeInterval : TimestampInterval)
    (mergedQuery : MergedWildcardQueryView) :
    Option (Option (Option Deserializer × Except ℕ (ℕ × LogEventView × ℕ))) :=
  match irDeserializer with
  | none => some (some (none, .error IRErrorCode.corruptedIr.toInt))
  | some deserializer =>
    match splitQueries mergedQuery.queries 0 mergedQuery.endOffsets
        mergedQuery.caseSensitivity with
    | none => some none
    | some queries =>
      match searchLoop clp left enc irView timeInterval (queryFn clp queries)
          (irView.length + 1) 0 deserializer with
      | none => none
      | some (deserializer, result) => some (some (some deserializer, result))

section refinement

variable {clp : IrReadApi} {left : BufferReader → UInt8 → EpochTimeMs} {enc : Encoding}

theorem stamp_eq {n : Deserializer} {value timestamp : EpochTimeMs}
    (h : stamp n enc value = some timestamp) : n.stamp enc value = timestamp := by
  cases enc with
  | eightByte => exact Option.some.inj h
  | fourByte => exact signedAdd_eq h

theorem nextLogEvent_refines {n : Deserializer} {irBuf : BufferReader}
    {r : Except IRErrorCode (LogEventView × ℕ)}
    (h : nextLogEvent clp left enc n irBuf = some r) :
    (Native.nextLogEvent clp enc irBuf).map
      (fun i => (⟨i.1.1, n.stamp enc i.1.2⟩, i.2)) = r := by
  rw [nextLogEvent] at h
  rw [Native.nextLogEvent]
  cases ht : clp.deserializeTag irBuf with
  | error err =>
    rw [ht] at h
    exact Option.some.inj h
  | ok tp =>
    obtain ⟨tag, pos⟩ := tp
    simp only [ht] at h ⊢
    split at h
    · rename_i heof
      rw [if_pos heof]
      exact Option.some.inj h
    · rename_i heof
      rw [if_neg heof]
      cases he : clp.deserializeLogEvent enc ⟨irBuf.data, pos⟩ tag with
      | error err =>
        simp only [he] at h
        split at h
        · cases h
        · exact Option.some.inj h
      | ok e =>
        obtain ⟨⟨message, value⟩, eventEnd⟩ := e
        simp only [he] at h
        split at h
        · cases h
        · rename_i hs
          rw [Except.map, stamp_eq hs]
          exact Option.some.inj h

theorem nextLogEvent_cases {n : Deserializer} {irBuf : BufferReader}
    {r : Except IRErrorCode (LogEventView × ℕ)}
    (h : nextLogEvent clp left enc n irBuf = some r) :
    (∃ err, Native.nextLogEvent clp enc irBuf = .error err ∧ r = .error err) ∨
      ∃ i, Native.nextLogEvent clp enc irBuf = .ok i ∧
        r = .ok (⟨i.1.1, n.stamp enc i.1.2⟩, i.2) := by
  have hr := nextLogEvent_refines h
  cases hd : Native.nextLogEvent clp enc irBuf with
  | error err =>
    rw [hd] at hr
    exact .inl ⟨err, rfl, hr.symm⟩
  | ok i =>
    rw [hd] at hr
    exact .inr ⟨i, rfl, hr.symm⟩

theorem deserializeLogEvent_refines {irView : List UInt8} {cptr : Option Deserializer}
    {r : Option Deserializer × Except ℕ (ℕ × LogEventView)}
    (h : deserializeLogEvent clp left enc irView cptr = some r) :
    Native.deserializeLogEvent clp enc irView cptr = r := by
  cases cptr with
  | none => exact Option.some.inj h
  | some n =>
    rw [deserializeLogEvent] at h
    rw [Native.deserializeLogEvent]
    cases hn : nextLogEvent clp left enc n ⟨irView, 0⟩ with
    | none => simp [hn] at h
    | some next =>
      rcases nextLogEvent_cases hn with ⟨err, hd, rfl⟩ | ⟨i, hd, rfl⟩
      · simpa [hn, hd] using h
      · simpa [hn, hd, clp.tryGetPos_eq] using h

theorem searchLoop_refines {irView : List UInt8} {iv : TimestampInterval}
    {query : GoString → Option ℕ} {fuel pos : ℕ} {n : Deserializer}
    {r : Deserializer × Except ℕ (ℕ × LogEventView × ℕ)}
    (h : searchLoop clp left enc irView iv query fuel pos n = some r) :
    Native.searchLoop clp enc irView iv query fuel pos n = r := by
  induction fuel generalizing pos n with
  | zero => exact Option.some.inj h
  | succ fuel ih =>
    rw [searchLoop] at h
    rw [Native.searchLoop]
    cases hn : nextLogEvent clp left enc n ⟨irView, pos⟩ with
    | none => simp [hn] at h
    | some next =>
      rcases nextLogEvent_cases hn with ⟨err, hd, rfl⟩ | ⟨i, hd, rfl⟩
      · simpa [hn, hd] using h
      · simp only [hn, hd, clp.tryGetPos_eq] at h ⊢
        split at h
        · rename_i hu
          rw [if_pos hu]
          exact Option.some.inj h
        · rename_i hu
          rw [if_neg hu]
          split at h
          · rename_i hl
            rw [if_pos hl]
            exact ih h
          · rename_i hl
            rw [if_neg hl]
            cases hq : query i.1.1 with
            | none =>
              simp only [hq] at h
              exact ih h
            | some k =>
              simp only [hq] at h
              exact Option.some.inj h

theorem deserializeWildcardMatch_refines {irView : List UInt8} {cptr : Option Deserializer}
    {iv : TimestampInterval} {mergedQuery : MergedWildcardQueryView}
    {r : Option (Option Deserializer × Except ℕ (ℕ × LogEventView × ℕ))}
    (h : deserializeWildcardMatch clp left enc irView cptr iv mergedQuery = some r) :
    Native.deserializeWildcardMatch clp enc irView cptr iv mergedQuery = r := by
  cases cptr with
  | none => exact Option.some.inj h
  | some n =>
    rw [deserializeWildcardMatch] at h
    rw [Native.deserializeWildcardMatch]
    cases hq : splitQueries mergedQuery.queries 0 mergedQuery.endOffsets
        mergedQuery.caseSensitivity with
    | none =>
      simp only [hq] at h
      exact Option.some.inj h
    | some queries =>
      simp only [hq] at h ⊢
      cases hs : searchLoop clp left enc irView iv (queryFn clp queries) (irView.length + 1) 0
          n with
      | none => simp [hs] at h
      | some result =>
        rw [searchLoop_refines hs]
        simpa [hs] using h

end refinement

end Native.Checked

namespace Checked

variable {ε : Type} (clp : IrReadApi) (left : BufferReader → UInt8 → EpochTimeMs)

def deserializeLogEvent (deserializer : Deserializer) (irBuf : List UInt8) :
    Option (Deserializer × Except (GoError ε) (LogEventView × ℕ)) :=
  if 0 ≥ irBuf.length then some (deserializer, .error (.ir .incompleteIr))
  else match Native.Checked.deserializeLogEvent clp left deserializer.encoding irBuf
      deserializer.cptr with
    | none => none
    | some (cptr, .error err) => some (deserializer.setCptr cptr, .error (.ir ⟨err⟩))
    | some (cptr, .ok (pos, event)) => some (deserializer.setCptr cptr, .ok (event, pos))

def deserializeWildcardMatch (mergedQuery : MergedWildcardQuery) (time : TimestampInterval)
    (deserializer : Deserializer) (irBuf : List UInt8) :
    Option (Deserializer × Except (GoError ε) ((LogEventView × ℕ) × ℕ)) :=
  if 0 ≥ irBuf.length then some (deserializer, .error (.ir .incompleteIr))
  else match Native.Checked.deserializeWildcardMatch clp left deserializer.encoding irBuf
      deserializer.cptr time (newMergedWildcardQueryView mergedQuery) with
    | none => none
    | some none => some (deserializer, .error .panic)
    | some (some (cptr, .error err)) => some (deserializer.setCptr cptr, .error (.ir ⟨err⟩))
    | some (some (cptr, .ok (pos, event, matchingQuery))) =>
      some (deserializer.setCptr cptr, .ok ((event, matchingQuery), pos))

section refinement

variable {clp : IrReadApi} {left : BufferReader → UInt8 → EpochTimeMs}

theorem deserializeLogEvent_refines {d : Deserializer} {irBuf : List UInt8}
    {r : Deserializer × Except (GoError ε) (LogEventView × ℕ)}
    (h : deserializeLogEvent clp left d irBuf = some r) :
    ClpFfiGo.deserializeLogEvent clp d irBuf = r := by
  rw [deserializeLogEvent] at h
  rw [ClpFfiGo.deserializeLogEvent]
  by_cases hb : 0 ≥ irBuf.length
  · rw [if_pos hb] at h ⊢
    exact Option.some.inj h
  · rw [if_neg hb] at h ⊢
    cases hn : Native.Checked.deserializeLogEvent clp left d.encoding irBuf d.cptr with
    | none => simp [hn] at h
    | some result =>
      rw [Native.Checked.deserializeLogEvent_refines hn]
      rw [hn] at h
      obtain ⟨cptr, err | ⟨pos, event⟩⟩ := result <;> exact Option.some.inj h

theorem deserializeWildcardMatch_refines {mergedQuery : MergedWildcardQuery}
    {time : TimestampInterval} {d : Deserializer} {irBuf : List UInt8}
    {r : Deserializer × Except (GoError ε) ((LogEventView × ℕ) × ℕ)}
    (h : deserializeWildcardMatch clp left mergedQuery time d irBuf = some r) :
    ClpFfiGo.deserializeWildcardMatch clp mergedQuery time d irBuf = r := by
  rw [deserializeWildcardMatch] at h
  rw [ClpFfiGo.deserializeWildcardMatch]
  by_cases hb : 0 ≥ irBuf.length
  · rw [if_pos hb] at h ⊢
    exact Option.some.inj h
  · rw [if_neg hb] at h ⊢
    cases hn : Native.Checked.deserializeWildcardMatch clp left d.encoding irBuf d.cptr time
        (newMergedWildcardQueryView mergedQuery) with
    | none => simp [hn] at h
    | some result =>
      rw [Native.Checked.deserializeWildcardMatch_refines hn]
      rw [hn] at h
      obtain _ | ⟨cptr, err | ⟨pos, event, k⟩⟩ := result <;> exact Option.some.inj h

end refinement

end Checked

end ClpFfiGo
