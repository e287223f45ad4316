import ClpFfiGo.Deserializer
import ClpFfiGo.SampleCodec
import ClpFfiGo.Foundation.Lease

namespace ClpFfiGo.Backed

open Lease

-- What a failing `deserialize_log_event` of the CLP core leaves in its `message` argument.
abbrev LeftOver := Encoding → BufferReader → UInt8 → GoString → GoString

structure Deserializer where
  logMessage : Slot GoString
  timestamp : EpochTimeMs

def Deserializer.native (d : Deserializer) : Native.Deserializer := ⟨d.timestamp⟩

section native

variable (clp : IrReadApi) (left : LeftOver)

def nextLogEvent (enc : Encoding) (irBuf : BufferReader) (logMessage : Slot GoString) :
    Slot GoString × Except IRErrorCode (EpochTimeMs × ℕ) :=
  match clp.deserializeTag irBuf with
  | .error err => (logMessage, .error err)
  | .ok (tag, pos) =>
    if tag = clp.eof then (logMessage, .error .eof)
    else match clp.deserializeLogEvent enc ⟨irBuf.data, pos⟩ tag with
      | .error err =>
        (logMessage.write (left enc ⟨irBuf.data, pos⟩ tag logMessage.content), .error err)
      | .ok ((message, value), eventEnd) => (logMessage.write message, .ok (value, eventEnd))

def deserializeLogEvent (enc : Encoding) (irView : List UInt8)
    (irDeserializer : Option Deserializer) :
    Option Deserializer × Except ℕ (ℕ × LogEventView) :=
  match irDeserializer with
  | none => (none, .error IRErrorCode.corruptedIr.toInt)
  | some deserializer =>
    match nextLogEvent clp left enc ⟨irView, 0⟩ deserializer.logMessage with
    | (logMessage, .error err) => (some { deserializer with logMessage }, .error err.toInt)
    | (logMessage, .ok (value, eventEnd)) =>
      let timestamp := deserializer.native.stamp enc value
      match clp.tryGetPos ⟨irView, eventEnd⟩ with
      | none => (some ⟨logMessage, timestamp⟩, .error IRErrorCode.decodeError.toInt)
      | some pos =>
        (some ⟨logMessage, timestamp⟩, .ok (pos, ⟨logMessage.content, timestamp⟩))

def searchLoop (enc : Encoding) (irView : List UInt8) (timeInterval : TimestampInterval)
    (query : GoString → Option ℕ) :
    ℕ → ℕ → Deserializer → Deserializer × Except ℕ (ℕ × LogEventView × ℕ)
  | 0, _, deserializer => (deserializer, .error IRErrorCode.corruptedIr.toInt)
  | fuel + 1, pos, deserializer =>
    match nextLogEvent clp left enc ⟨irView, pos⟩ deserializer.logMessage with
    | (logMessage, .error err) => ({ deserializer with logMessage }, .error err.toInt)
    | (logMessage, .ok (value, eventEnd)) =>
      let timestamp := deserializer.native.stamp enc value
      if timeInterval.upper ≤ timestamp then
        (⟨logMessage, timestamp⟩, .error (IRErrorCode.incompleteIr.toInt + 1))
      else if timeInterval.lower > timestamp then
        searchLoop enc irView timeInterval query fuel eventEnd ⟨logMessage, timestamp⟩
      else match query logMessage.content with
        | none => searchLoop enc irView timeInterval query fuel eventEnd ⟨logMessage, timestamp⟩
        | some matchingQuery =>
          match clp.tryGetPos ⟨irView, eventEnd⟩ with
          | none => (⟨logMessage, timestamp⟩, .error IRErrorCode.decodeError.toInt)
          | some currIrPos => (⟨logMessage, timestamp⟩,
              .ok (currIrPos, ⟨logMessage.content, timestamp⟩, matchingQuery))

def deserializeWildcardMatch (enc : Encoding) (irView : List UInt8)
    (irDeserializer : Option Deserializer) (timeInterval : TimestampInterval)
    (mergedQuery : Native.MergedWildcardQueryView) :
    Option (Option Deserializer × Except ℕ (ℕ × LogEventView × ℕ)) :=
  match irDeserializer with
  | none => some (none, .error IRErrorCode.corruptedIr.toInt)
  | some deserializer =>
    match Native.splitQueries mergedQuery.queries 0 mergedQuery.endOffsets
        mergedQuery.caseSensitivity with
    | none => none
    | some queries =>
      let (deserializer, result) := searchLoop clp left enc irView timeInterval
        (Native.queryFn clp queries) (irView.length + 1) 0 deserializer
      some (some deserializer, result)

end native

section erasure

variable (clp : IrReadApi) (left : LeftOver)

-- Without the message buffer these are the functions of `Native`.
theorem nextLogEvent_erases (enc : Encoding) (irBuf : BufferReader) (logMessage : Slot GoString) :
    (nextLogEvent clp left enc irBuf logMessage).2.map
        (fun r => (((nextLogEvent clp left enc irBuf logMessage).1.content, r.1), r.2)) =
      Native.nextLogEvent clp enc irBuf := by
  unfold nextLogEvent Native.nextLogEvent
  rcases clp.deserializeTag irBuf with err | ⟨tag, pos⟩
  · rfl
  · dsimp only
    split
    · rfl
    · rcases clp.deserializeLogEvent enc ⟨irBuf.data, pos⟩ tag with err | ⟨⟨message, value⟩, p⟩
      · rfl
      · rfl

theorem deserializeLogEvent_erases (enc : Encoding) (irView : List UInt8)
    (irDeserializer : Option Deserializer) :
    (deserializeLogEvent clp left enc irView irDeserializer).map
        (Option.map Deserializer.native) id =
      Native.deserializeLogEvent clp enc irView (irDeserializer.map Deserializer.native) := by
  cases irDeserializer with
  | none => rfl
  | some deserializer =>
    have herases := nextLogEvent_erases clp left enc ⟨irView, 0⟩ deserializer.logMessage
    simp only [deserializeLogEvent, Native.deserializeLogEvent, Option.map_some, ← herases]
    rcases nextLogEvent clp left enc ⟨irView, 0⟩ deserializer.logMessage with
      ⟨logMessage, err | ⟨value, eventEnd⟩⟩
    · rfl
    · dsimp only [Except.map]
      cases clp.tryGetPos ⟨irView, eventEnd⟩ <;> rfl

theorem searchLoop_erases (enc : Encoding) (irView : List UInt8) (iv : TimestampInterval)
    (query : GoString → Option ℕ) (fuel pos : ℕ) (deserializer : Deserializer) :
    (searchLoop clp left enc irView iv query fuel pos deserializer).map Deserializer.native id =
      Native.searchLoop clp enc irView iv query fuel pos deserializer.native := by
  induction fuel generalizing pos deserializer with
  | zero => rfl
  | succ fuel ih =>
    have herases := nextLogEvent_erases clp left enc ⟨irView, pos⟩ deserializer.logMessage
    rw [searchLoop, Native.searchLoop, ← herases]
    rcases nextLogEvent clp left enc ⟨irView, pos⟩ deserializer.logMessage with
      ⟨logMessage, err | ⟨value, eventEnd⟩⟩
    · rfl
    · dsimp only [Except.map]
      split
      · rfl
      · split
        · exact ih _ _
        · cases query logMessage.content with
          | none => exact ih _ _
          | some k => cases clp.tryGetPos ⟨irView, eventEnd⟩ <;> rfl

theorem deserializeWildcardMatch_erases (enc : Encoding) (irView : List UInt8)
    (irDeserializer : Option Deserializer) (iv : TimestampInterval)
    (mergedQuery : Native.MergedWildcardQueryView) :
    (deserializeWildcardMatch clp left enc irView irDeserializer iv mergedQuery).map
        (Prod.map (Option.map Deserializer.native) id) =
      Native.deserializeWildcardMatch clp enc irView (irDeserializer.map Deserializer.native) iv
        mergedQuery := by
  cases irDeserializer with
  | none => rfl
  | some deserializer =>
    simp only [deserializeWildcardMatch, Native.deserializeWildcardMatch, Option.map_some]
    cases Native.splitQueries mergedQuery.queries 0 mergedQuery.endOffsets
      mergedQuery.caseSensitivity with
    | none => rfl
    | some queries =>
      dsimp only
      rw [← searchLoop_erases clp left]
      rfl

end erasure

structure Object where
  encoding : Encoding
  cptr : Option Deserializer

def Object.slot (object : Object) : Option (Slot GoString) :=
  object.cptr.map Deserializer.logMessage

inductive Call where
  | deserializeLogEvent (irBuf : List UInt8)
  | deserializeWildcardMatch (irBuf : List UInt8) (queries : List WildcardQuery)
      (timeInterval : TimestampInterval)
  | close

section calls

variable (clp : IrReadApi) (left : LeftOver)

def Call.exec : Call → Object → Object × Option LogEventView
  | .deserializeLogEvent irBuf, object =>
    if 0 ≥ irBuf.length then (object, none)
    else match Backed.deserializeLogEvent clp left object.encoding irBuf object.cptr with
      | (cptr, .error _) => ({ object with cptr }, none)
      | (cptr, .ok (_, event)) => ({ object with cptr }, some event)
  | .deserializeWildcardMatch irBuf queries timeInterval, object =>
    if 0 ≥ irBuf.length then (object, none)
    else match Backed.deserializeWildcardMatch clp left object.encoding irBuf object.cptr
        timeInterval (newMergedWildcardQueryView (mergeWildcardQueries queries)) with
      | none => (object, none)
      | some (cptr, .error _) => ({ object with cptr }, none)
      | some (cptr, .ok (_, event, _)) => ({ object with cptr }, some event)
  | .close, object => ({ object with cptr := none }, none)

-- The tag at the head of `irBuf` opens a log event, whole or cut off.
def startsEvent (irBuf : List UInt8) : Bool :=
  match clp.deserializeTag ⟨irBuf, 0⟩ with
  | .ok (tag, _) => tag ≠ clp.eof
  | .error _ => false

def Call.overwrites : Call → Bool
  | .deserializeLogEvent irBuf => startsEvent clp irBuf
  | .deserializeWildcardMatch irBuf _ _ => startsEvent clp irBuf
  | .close => true

def slots (objects : List Object) : Slots GoString := fun i => objects[i]?.bind Object.slot

-- One call on the object `c.1`; a call that returns an event issues a view of the object's buffer.
def step (objects : List Object) (c : ℕ × Call) : List Object × Option (View GoString) :=
  match objects[c.1]? with
  | none => (objects, none)
  | some object =>
    let (object, event) := c.2.exec clp left object
    (objects.set c.1 object,
      event.bind fun e => object.slot.map fun s => ⟨c.1, s.epoch, e.logMessageView⟩)

def after (objects : List Object) : List (ℕ × Call) → List Object
  | [] => objects
  | c :: calls => after (step clp left objects c).1 calls

end calls

section changes

variable (clp : IrReadApi) (left : LeftOver) (enc : Encoding) {irBuf : List UInt8}

theorem startsEvent_nil : startsEvent clp [] = false := by
  rw [startsEvent, clp.tag_end (Nat.le_refl _)]

theorem nextLogEvent_le (r : BufferReader) (s : Slot GoString) :
    s.epoch ≤ (nextLogEvent clp left enc r s).1.epoch := by
  unfold nextLogEvent
  rcases clp.deserializeTag r with err | ⟨tag, pos⟩
  · exact Nat.le_refl _
  · dsimp only
    split
    · exact Nat.le_refl _
    · rcases clp.deserializeLogEvent enc ⟨r.data, pos⟩ tag with err | ⟨⟨message, value⟩, p⟩
      · exact Nat.le_succ _
      · exact Nat.le_succ _

theorem nextLogEvent_starts (s : Slot GoString) (h : startsEvent clp irBuf = true) :
    s.epoch < (nextLogEvent clp left enc ⟨irBuf, 0⟩ s).1.epoch := by
  unfold startsEvent at h
  unfold nextLogEvent
  rcases ht : clp.deserializeTag ⟨irBuf, 0⟩ with err | ⟨tag, pos⟩
  · rw [ht] at h
    cases h
  · rw [ht] at h
    dsimp only at h ⊢
    rw [if_neg (of_decide_eq_true h)]
    rcases clp.deserializeLogEvent enc ⟨irBuf, pos⟩ tag with err | ⟨⟨message, value⟩, p⟩
    · exact Nat.lt_succ_self _
    · exact Nat.lt_succ_self _

theorem nextLogEvent_silent (s : Slot GoString) (h : startsEvent clp irBuf = false) :
    ∃ err, nextLogEvent clp left enc ⟨irBuf, 0⟩ s = (s, .error err) := by
  unfold startsEvent at h
  unfold nextLogEvent
  rcases ht : clp.deserializeTag ⟨irBuf, 0⟩ with err | ⟨tag, pos⟩
  · exact ⟨err, rfl⟩
  · rw [ht] at h
    dsimp only at h ⊢
    rw [if_pos (not_not.mp (of_decide_eq_false h))]
    exact ⟨.eof, rfl⟩

theorem searchLoop_le (iv : TimestampInterval) (query : GoString → Option ℕ) (fuel pos : ℕ)
    (d : Deserializer) : d.logMessage.epoch ≤
      (searchLoop clp left enc irBuf iv query fuel pos d).1.logMessage.epoch := by
  induction fuel generalizing pos d with
  | zero => exact Nat.le_refl _
  | succ fuel ih =>
    have hle := nextLogEvent_le clp left enc ⟨irBuf, pos⟩ d.logMessage
    rw [searchLoop]
    rcases hn : nextLogEvent clp left enc ⟨irBuf, pos⟩ d.logMessage with
      ⟨logMessage, err | ⟨value, eventEnd⟩⟩
    · rw [hn] at hle
      exact hle
    · rw [hn] at hle
      dsimp only at hle ⊢
      split
      · exact hle
      · split
        · exact hle.trans (ih eventEnd ⟨logMessage, d.native.stamp enc value⟩)
        · cases query logMessage.content with
          | none => exact hle.trans (ih eventEnd ⟨logMessage, d.native.stamp enc value⟩)
          | some k => cases clp.tryGetPos ⟨irBuf, eventEnd⟩ <;> exact hle

theorem searchLoop_starts (iv : TimestampInterval) (query : GoString → Option ℕ) (fuel : ℕ)
    (d : Deserializer) (h : startsEvent clp irBuf = true) : d.logMessage.epoch <
      (searchLoop clp left enc irBuf iv query (fuel + 1) 0 d).1.logMessage.epoch := by
  have hlt := nextLogEvent_starts clp left enc d.logMessage h
  rw [searchLoop]
  rcases hn : nextLogEvent clp left enc ⟨irBuf, 0⟩ d.logMessage with
    ⟨logMessage, err | ⟨value, eventEnd⟩⟩
  · rw [hn] at hlt
    exact hlt
  · rw [hn] at hlt
    dsimp only at hlt ⊢
    split
    · exact hlt
    · split
      · exact hlt.trans_le (searchLoop_le clp left enc iv query fuel eventEnd
          ⟨logMessage, d.native.stamp enc value⟩)
      · cases query logMessage.content with
        | none =>
          exact hlt.trans_le (searchLoop_le clp left enc iv query fuel eventEnd
            ⟨logMessage, d.native.stamp enc value⟩)
        | some k => cases clp.tryGetPos ⟨irBuf, eventEnd⟩ <;> exact hlt

theorem searchLoop_silent (iv : TimestampInterval) (query : GoString → Option ℕ) (fuel : ℕ)
    (d : Deserializer) (h : startsEvent clp irBuf = false) :
    ∃ err, searchLoop clp left enc irBuf iv query (fuel + 1) 0 d = (d, .error err) := by
  obtain ⟨err, hn⟩ := nextLogEvent_silent clp left enc d.logMessage h
  rw [searchLoop, hn]
  exact ⟨err.toInt, rfl⟩

theorem searchLoop_issues {iv : TimestampInterval} {query : GoString → Option ℕ} {fuel pos : ℕ}
    {d d' : Deserializer} {p k : ℕ} {event : LogEventView}
    (h : searchLoop clp left enc irBuf iv query fuel pos d = (d', .ok (p, event, k))) :
    d'.logMessage.content = event.logMessageView := by
  induction fuel generalizing pos d with
  | zero => cases h
  | succ fuel ih =>
    rw [searchLoop] at h
    rcases hn : nextLogEvent clp left enc ⟨irBuf, pos⟩ d.logMessage with
      ⟨logMessage, err | ⟨value, eventEnd⟩⟩
    · rw [hn] at h
      cases h
    · rw [hn] at h
      dsimp only at h
      split at h
      · cases h
      · split at h
        · exact ih h
        · split at h
          · exact ih h
          · split at h
            · cases h
            · cases h
              rfl

theorem change_none {α : Type} (touched : Bool) :
    Change (none : Option (Slot α)) touched none := by
  cases touched with
  | false => exact .untouched
  | true => exact .freed

-- What a call does to the buffer depends on its bytes alone, and an issued view shows the buffer.
structure Effect (object : Object) (overwrites : Bool) (r : Object × Option LogEventView) :
    Prop where
  change : Change object.slot overwrites r.1.slot
  issued : ∀ event, r.2 = some event →
    overwrites = true ∧ ∃ s, r.1.slot = some s ∧ s.content = event.logMessageView

theorem Effect.idle (object : Object) : Effect object false (object, none) :=
  ⟨.untouched, fun _ he => by cases he⟩

theorem deserializeLogEvent_effect (object : Object) (irBuf : List UInt8) :
    Effect object (startsEvent clp irBuf)
      ((Call.deserializeLogEvent irBuf).exec clp left object) := by
  obtain ⟨enc, cptr⟩ := object
  rw [Call.exec]
  split
  · rename_i hempty
    have hnil : irBuf = [] := List.length_eq_zero_iff.mp (by omega)
    rw [hnil, startsEvent_nil]
    exact .idle _
  · cases cptr with
    | none => exact ⟨change_none _, fun _ he => by cases he⟩
    | some d =>
      cases hstart : startsEvent clp irBuf with
      | false =>
        obtain ⟨err, hn⟩ := nextLogEvent_silent clp left enc d.logMessage hstart
        simp only [Backed.deserializeLogEvent, hn]
        exact .idle _
      | true =>
        have hlt := nextLogEvent_starts clp left enc d.logMessage hstart
        simp only [Backed.deserializeLogEvent]
        rcases hn : nextLogEvent clp left enc ⟨irBuf, 0⟩ d.logMessage with
          ⟨logMessage, err | ⟨value, eventEnd⟩⟩
        · rw [hn] at hlt
          exact ⟨.written hlt, fun _ he => by cases he⟩
        · rw [hn] at hlt
          dsimp only
          cases clp.tryGetPos ⟨irBuf, eventEnd⟩ with
          | none => exact ⟨.written hlt, fun _ he => by cases he⟩
          | some pos =>
            refine ⟨.written hlt, fun event he => ?_⟩
            cases he
            exact ⟨rfl, _, rfl, rfl⟩

theorem deserializeWildcardMatch_effect (object : Object) (irBuf : List UInt8)
    (queries : List WildcardQuery) (iv : TimestampInterval) :
    Effect object (startsEvent clp irBuf)
      ((Call.deserializeWildcardMatch irBuf queries iv).exec clp left object) := by
  obtain ⟨enc, cptr⟩ := object
  rw [Call.exec]
  split
  · rename_i hempty
    have hnil : irBuf = [] := List.length_eq_zero_iff.mp (by omega)
    rw [hnil, startsEvent_nil]
    exact .idle _
  · cases cptr with
    | none => exact ⟨change_none _, fun _ he => by cases he⟩
    | some d =>
      simp only [Backed.deserializeWildcardMatch, splitQueries_view]
      cases hstart : startsEvent clp irBuf with
      | false =>
        obtain ⟨err, hn⟩ := searchLoop_silent clp left enc iv
          (Native.queryFn clp (queries.map WildcardQuery.pair)) irBuf.length d hstart
        rw [hn]
        exact .idle _
      | true =>
        have hlt := searchLoop_starts clp left enc iv
          (Native.queryFn clp (queries.map WildcardQuery.pair)) irBuf.length d hstart
        rcases hn : searchLoop clp left enc irBuf iv
            (Native.queryFn clp (queries.map WildcardQuery.pair)) (irBuf.length + 1) 0 d with
          ⟨d', err | ⟨p, event, k⟩⟩
        · rw [hn] at hlt
          exact ⟨.written hlt, fun _ he => by cases he⟩
        · rw [hn] at hlt
          refine ⟨.written hlt, fun event he => ?_⟩
          cases he
          exact ⟨rfl, _, rfl, searchLoop_issues clp left enc hn⟩

theorem Call.effect (call : Call) (object : Object) :
    Effect object (call.overwrites clp) (call.exec clp left object) := by
  cases call with
  | deserializeLogEvent irBuf => exact deserializeLogEvent_effect clp left object irBuf
  | deserializeWildcardMatch irBuf queries iv =>
    exact deserializeWildcardMatch_effect clp left object irBuf queries iv
  | close => exact ⟨.freed, fun _ he => by cases he⟩

end changes

section refinement

variable {ε : Type} {clp : IrReadApi} {left : LeftOver} {object : Object}
  {d : ClpFfiGo.Deserializer}

structure Object.Represents (object : Object) (d : ClpFfiGo.Deserializer) : Prop where
  encoding : d.encoding = object.encoding
  cptr : d.cptr = object.cptr.map Deserializer.native

theorem Object.Represents.setCptr (h : object.Represents d) (cptr : Option Deserializer) :
    ({ object with cptr } : Object).Represents (d.setCptr (cptr.map Deserializer.native)) :=
  ⟨by simpa using h.encoding, by simp⟩

theorem deserializeLogEvent_represents (h : object.Represents d) (irBuf : List UInt8) :
    ((Call.deserializeLogEvent irBuf).exec clp left object).1.Represents
        (ClpFfiGo.deserializeLogEvent (ε := ε) clp d irBuf).1 ∧
      ((Call.deserializeLogEvent irBuf).exec clp left object).2 =
        (ClpFfiGo.deserializeLogEvent (ε := ε) clp d irBuf).2.toOption.map Prod.fst := by
  have herases := deserializeLogEvent_erases clp left object.encoding irBuf object.cptr
  rw [Call.exec, ClpFfiGo.deserializeLogEvent, h.encoding, h.cptr, ← herases]
  split
  · exact ⟨h, rfl⟩
  · rcases Backed.deserializeLogEvent clp left object.encoding irBuf object.cptr with
      ⟨cptr, err | ⟨pos, event⟩⟩
    · exact ⟨h.setCptr cptr, rfl⟩
    · exact ⟨h.setCptr cptr, rfl⟩

theorem deserializeWildcardMatch_represents (h : object.Represents d) (irBuf : List UInt8)
    (queries : List WildcardQuery) (iv : TimestampInterval) :
    ((Call.deserializeWildcardMatch irBuf queries iv).exec clp left object).1.Represents
        (ClpFfiGo.deserializeWildcardMatch (ε := ε) clp (mergeWildcardQueries queries) iv d
          irBuf).1 ∧
      ((Call.deserializeWildcardMatch irBuf queries iv).exec clp left object).2 =
        (ClpFfiGo.deserializeWildcardMatch (ε := ε) clp (mergeWildcardQueries queries) iv d
          irBuf).2.toOption.map (fun r => r.1.1) := by
  have herases := deserializeWildcardMatch_erases clp left object.encoding irBuf object.cptr iv
    (newMergedWildcardQueryView (mergeWildcardQueries queries))
  rw [Call.exec, ClpFfiGo.deserializeWildcardMatch, h.encoding, h.cptr, ← herases]
  split
  · exact ⟨h, rfl⟩
  · rcases Backed.deserializeWildcardMatch clp left object.encoding irBuf object.cptr iv
      (newMergedWildcardQueryView (mergeWildcardQueries queries)) with
      _ | ⟨cptr, err | ⟨pos, event, k⟩⟩
    · exact ⟨h, rfl⟩
    · exact ⟨h.setCptr cptr, rfl⟩
    · exact ⟨h.setCptr cptr, rfl⟩

end refinement

section runs

variable (clp : IrReadApi) (left : LeftOver)

theorem slots_set_ne {objects : List Object} {i j : ℕ} (object : Object) (h : j ≠ i) :
    slots (objects.set i object) j = slots objects j := by
  rw [slots, slots, List.getElem?_set_ne (Ne.symm h)]

theorem slots_set_eq {objects : List Object} {i : ℕ} {old : Object} (object : Object)
    (h : objects[i]? = some old) : slots (objects.set i object) i = object.slot := by
  obtain ⟨hi, _⟩ := List.getElem?_eq_some_iff.mp h
  rw [slots, List.getElem?_set_self hi]
  rfl

theorem step_edit (objects : List Object) (c : ℕ × Call) :
    Edit (slots objects) c.1 (c.2.overwrites clp) (slots (step clp left objects c).1) := by
  rw [step]
  cases ho : objects[c.1]? with
  | none =>
    refine ⟨?_, fun _ _ => rfl⟩
    rw [show slots objects c.1 = none by rw [slots, ho]; rfl]
    exact change_none _
  | some object =>
    refine ⟨?_, fun j hj => slots_set_ne _ hj⟩
    rw [slots_set_eq _ ho, show slots objects c.1 = object.slot by rw [slots, ho]; rfl]
    exact (c.2.effect clp left object).change

theorem step_issues {objects : List Object} {c : ℕ × Call} {v : View GoString}
    (h : (step clp left objects c).2 = some v) :
    v.owner = c.1 ∧ c.2.overwrites clp = true ∧ v.Live (slots (step clp left objects c).1) ∧
      v.Honest (slots (step clp left objects c).1) := by
  rw [step] at h ⊢
  cases ho : objects[c.1]? with
  | none =>
    rw [ho] at h
    cases h
  | some object =>
    rw [ho] at h
    obtain ⟨event, he, hv⟩ := Option.bind_eq_some_iff.mp h
    obtain ⟨s, hs, hview⟩ := Option.map_eq_some_iff.mp hv
    obtain ⟨hover, s', hs', hcontent⟩ := (c.2.effect clp left object).issued _ he
    rw [hs] at hs'
    cases hs'
    subst hview
    have hslot := slots_set_eq (c.2.exec clp left object).1 ho
    rw [hs] at hslot
    refine ⟨rfl, hover, ⟨s, hslot, rfl⟩, ?_⟩
    intro t ht
    have hst : some t = some s := ht.symm.trans hslot
    cases hst
    exact ⟨Nat.le_refl _, fun _ => hcontent⟩

theorem after_edits (objects : List Object) (calls : List (ℕ × Call)) :
    Edits (slots objects) (calls.map (fun c => (c.1, c.2.overwrites clp)))
      (slots (after clp left objects calls)) := by
  induction calls generalizing objects with
  | nil => exact .nil
  | cons c calls ih => exact .cons (step_edit clp left objects c) (ih _)

theorem view_lifetime {objects : List Object} {c : ℕ × Call} {v : View GoString}
    (h : (step clp left objects c).2 = some v) (calls : List (ℕ × Call)) :
    (v.Live (slots (after clp left (step clp left objects c).1 calls)) ↔
      ∀ c' ∈ calls, c'.1 = c.1 → c'.2.overwrites clp = false) ∧
    (v.Live (slots (after clp left (step clp left objects c).1 calls)) →
      ∃ s, slots (after clp left (step clp left objects c).1 calls) c.1 = some s ∧
        s.content = v.content) ∧
    ∀ c' ∈ calls, ∀ objects', (step clp left objects' c').2 ≠ none →
      c'.2.overwrites clp = true := by
  obtain ⟨howner, _, hlive, hhonest⟩ := step_issues clp left h
  have hedits := after_edits clp left (step clp left objects c).1 calls
  refine ⟨?_, ?_, ?_⟩
  · rw [hedits.live_iff hhonest, List.forall_mem_map, howner]
    constructor
    · exact fun hall c' hc' heq => hall.2 c' hc' heq.symm
    · exact fun hall => ⟨hlive, fun c' hc' heq => hall c' hc' heq.symm⟩
  · intro hfinal
    have hcontent := hfinal.content (hedits.honest hhonest)
    rwa [howner] at hcontent
  · intro c' _ objects' hissued
    obtain ⟨v', hv'⟩ := Option.ne_none_iff_exists'.mp hissued
    exact (step_issues clp left hv').2.1

end runs

section sampling

open SampleCodec

def unchanged : LeftOver := fun _ _ _ message => message

def firstRead : ℕ × Call := (0, .deserializeLogEvent (event .eightByte (ascii "a") 5))

def missedSearch : ℕ × Call :=
  (0, .deserializeWildcardMatch (event .eightByte (ascii "b") 6) [⟨ascii "z", true⟩] ⟨0, 100⟩)

def sampleObjects : List Object := [⟨.eightByte, some ⟨⟨[], 0⟩, 0⟩⟩]

theorem missed_search_ends_view :
    (step readApi unchanged sampleObjects firstRead).2 = some ⟨0, 1, ascii "a"⟩ ∧
    (step readApi unchanged (step readApi unchanged sampleObjects firstRead).1 missedSearch).2 =
      none ∧
    ¬ View.Live (slots (after readApi unchanged
      (step readApi unchanged sampleObjects firstRead).1 [missedSearch])) ⟨0, 1, ascii "a"⟩ := by
  have hissue : (step readApi unchanged sampleObjects firstRead).2 = some ⟨0, 1, ascii "a"⟩ := by
    decide +kernel
  have hnone : (step readApi unchanged (step readApi unchanged sampleObjects firstRead).1
      missedSearch).2 = none := by
    decide +kernel
  refine ⟨hissue, hnone, fun hlive => ?_⟩
  have hsilent := (view_lifetime readApi unchanged hissue [missedSearch]).1.mp hlive
    missedSearch (List.mem_singleton.mpr rfl) rfl
  exact absurd hsilent (by decide +kernel)

end sampling

end ClpFfiGo.Backed
