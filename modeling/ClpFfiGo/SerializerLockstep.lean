import ClpFfiGo.RoundTrip

namespace ClpFfiGo

variable {ε : Type}

-- The core may answer one call differently from the next, so each call carries its own.
structure SerializeCall where
  clp : IrWriteApi
  event : LogEvent

structure Serialized where
  event : LogEvent
  irView : BufView
  serializer : Serializer

def serializeAll (ε : Type) : Serializer → List SerializeCall → List Serialized
  | _, [] => []
  | serializer, call :: calls =>
    match serializeLogEvent (ε := ε) call.clp serializer call.event with
    | (serializer, .error _) => serializeAll ε serializer calls
    | (serializer, .ok irView) =>
      ⟨call.event, irView, serializer⟩ :: serializeAll ε serializer calls

-- The caller's loop over `DeserializeLogEvent`: the events up to the first error, each with the
-- deserializer after it.
def deserializeAll (ε : Type) (clp : IrReadApi) : ℕ → Deserializer → List UInt8 →
    List (LogEventView × Deserializer) × Option (GoError ε)
  | 0, _, _ => ([], none)
  | fuel + 1, deserializer, irBuf =>
    match deserializeLogEvent clp deserializer irBuf with
    | (_, .error err) => ([], some err)
    | (deserializer, .ok (event, pos)) =>
      ((event, deserializer) :: (deserializeAll ε clp fuel deserializer (irBuf.drop pos)).1,
        (deserializeAll ε clp fuel deserializer (irBuf.drop pos)).2)

def Serializer.prevTimestamp : Serializer → Option EpochTimeMs
  | .eightByte _ => none
  | .fourByte _ prevTimestamp => some prevTimestamp

def Deserializer.timestamp? (d : Deserializer) : Option EpochTimeMs :=
  d.cptr.map Native.Deserializer.timestamp

section lockstep

variable {clp : IrReadApi} {clpw : IrWriteApi} {json : JsonApi ε} {enc : Encoding}

theorem serialize_failed {serializer serializer' : Serializer} {prev : EpochTimeMs}
    {event : LogEvent} {err : GoError ε} (hf : serializer.Follows enc prev)
    (hs : serializeLogEvent clpw serializer event = (serializer', .error err)) :
    serializer'.Follows enc prev := by
  cases serializer with
  | eightByte c =>
    simp only [serializeLogEvent] at hs
    split at hs <;> cases hs
    exact hf
  | fourByte c prevTimestamp =>
    simp only [serializeLogEvent] at hs
    split at hs <;> cases hs
    exact hf

theorem Serializer.Follows.prevTimestamp {serializer : Serializer} {prev : EpochTimeMs}
    (h : serializer.Follows .fourByte prev) : serializer.prevTimestamp = some prev := by
  cases serializer with
  | eightByte c => cases h
  | fourByte c prevTimestamp => exact congrArg some h.2

theorem deserialize_view {d : Deserializer} {prev : EpochTimeMs} {event : LogEvent}
    {irView rest : List UInt8}
    (h : EventBytes clp d.encoding irView
      (event.logMessage, timestampOrDelta d.encoding prev event.timestamp)) :
    deserializeLogEvent (ε := ε) clp (d.at prev) (irView ++ rest) =
      (d.at event.timestamp, .ok (event.view, irView.length)) := by
  rw [deserializeLogEvent_at, readAnswer, h.exact.whole]
  simp only [stamp_timestampOrDelta]
  rfl

theorem serialized_lockstep {d : Deserializer} {calls : List SerializeCall}
    (hcalls : ∀ call ∈ calls, CarriesEvents clp call.clp d.encoding) {serializer : Serializer}
    {prev : EpochTimeMs} (hf : serializer.Follows d.encoding prev) :
    deserializeAll ε clp ((serializeAll ε serializer calls).length + 1) (d.at prev)
        ((serializeAll ε serializer calls).map Serialized.irView).flatten =
      ((serializeAll ε serializer calls).map
        (fun s => (s.event.view, d.at s.event.timestamp)), some (.ir .incompleteIr)) ∧
    ∀ s ∈ serializeAll ε serializer calls, s.serializer.Follows d.encoding s.event.timestamp := by
  induction calls generalizing serializer prev with
  | nil => exact ⟨rfl, by simp [serializeAll]⟩
  | cons call calls ih =>
    rw [List.forall_mem_cons] at hcalls
    rw [serializeAll]
    cases hs : serializeLogEvent (ε := ε) call.clp serializer call.event with
    | mk serializer' res =>
      cases res with
      | error err => exact ih hcalls.2 (serialize_failed hf hs)
      | ok irView =>
        obtain ⟨hf', hview⟩ := serialize_event hcalls.1 hf hs
        obtain ⟨hall, hprev⟩ := ih hcalls.2 hf'
        refine ⟨?_, List.forall_mem_cons.mpr ⟨hf', hprev⟩⟩
        simp only [List.map_cons, List.flatten_cons, List.length_cons]
        rw [deserializeAll, deserialize_view hview]
        simp only [List.drop_left, hall]

theorem fourByteSerializer_opens (hjson : json.RejectsEmpty)
    (hpre : CarriesReference clp clpw json) {tsPattern tsPatternSyntax timeZoneId : GoString}
    {referenceTs : EpochTimeMs} {serializer : Serializer} {preamble : BufView}
    (hnew : fourByteSerializer (ε := ε) clpw tsPattern tsPatternSyntax timeZoneId referenceTs =
      .ok (serializer, preamble)) :
    serializer.Follows .fourByte referenceTs ∧ ∃ d : Deserializer, d.encoding = .fourByte ∧
      ∀ rest, deserializePreamble clp json (preamble ++ rest) =
        .ok (d.at referenceTs, preamble.length) := by
  obtain ⟨c, hserializer, hw⟩ := fourByteSerializer_ok hnew
  obtain ⟨metadata, href, hbytes⟩ := hpre hw
  have hlen := hbytes.ne_nil hjson
  have hat := newDeserializer_at .fourByte metadata
  rw [initialTime, refTs_formatInt href] at hat
  refine ⟨?_, newDeserializer .fourByte metadata ⟨0⟩, encoding_newDeserializer _ _ _, ?_⟩
  · rw [hserializer]
    exact ⟨rfl, rfl⟩
  · intro rest
    rw [← hat]
    apply hbytes.answer
    rw [List.length_append]
    omega

theorem fourByte_lockstep (hjson : json.RejectsEmpty) (hpre : CarriesReference clp clpw json)
    {tsPattern tsPatternSyntax timeZoneId : GoString} {referenceTs : EpochTimeMs}
    {serializer : Serializer} {preamble : BufView}
    (hnew : fourByteSerializer (ε := ε) clpw tsPattern tsPatternSyntax timeZoneId referenceTs =
      .ok (serializer, preamble)) {calls : List SerializeCall}
    (hcalls : ∀ call ∈ calls, CarriesEvents clp call.clp .fourByte) :
    ∃ irBuf d pos fuel results,
      irBuf = preamble ++ ((serializeAll ε serializer calls).map Serialized.irView).flatten ∧
      deserializePreamble clp json irBuf = .ok (d, pos) ∧
      d.timestamp? = some referenceTs ∧ serializer.prevTimestamp = some referenceTs ∧
      deserializeAll ε clp fuel d (irBuf.drop pos) = (results, some (.ir .incompleteIr)) ∧
      results.map (fun r => (r.1, r.2.timestamp?)) = (serializeAll ε serializer calls).map
        (fun s => (s.event.view, s.serializer.prevTimestamp)) := by
  obtain ⟨hfollows, d, henc, hopen⟩ := fourByteSerializer_opens hjson hpre hnew
  rw [← henc] at hcalls hfollows
  obtain ⟨hall, hprev⟩ := serialized_lockstep (ε := ε) hcalls hfollows
  have hdrop : (preamble ++ ((serializeAll ε serializer calls).map Serialized.irView).flatten).drop
      preamble.length = ((serializeAll ε serializer calls).map Serialized.irView).flatten :=
    List.drop_left
  rw [henc] at hfollows
  rw [← hdrop] at hall
  refine ⟨_, _, _, _, _, rfl, hopen _, ?_, hfollows.prevTimestamp, hall, ?_⟩
  · rw [Deserializer.timestamp?, Deserializer.cptr_at]
    rfl
  · rw [List.map_map]
    apply List.map_congr_left
    intro s hs
    have hlast := hprev s hs
    rw [henc] at hlast
    rw [hlast.prevTimestamp]
    simp [Deserializer.timestamp?]

end lockstep

-- The core refuses the second message, which is longer than its length byte can say.
def refusedMiddle : List SerializeCall :=
  [⟨SampleCodec.writeApi, ⟨ascii "hello", 1005⟩⟩,
    ⟨SampleCodec.writeApi, ⟨List.replicate 300 97, 2000⟩⟩,
    ⟨SampleCodec.writeApi, ⟨ascii "bye", 990⟩⟩]

open SampleCodec in
theorem refusedMiddle_lockstep : ∃ serializer preamble irBuf d pos fuel results,
    fourByteSerializer (ε := Unit) writeApi [] [] (ascii "UTC") 1000 = .ok (serializer, preamble) ∧
    irBuf = preamble ++
      ((serializeAll Unit serializer refusedMiddle).map Serialized.irView).flatten ∧
    deserializePreamble readApi jsonApi irBuf = .ok (d, pos) ∧
    deserializeAll Unit readApi fuel d (irBuf.drop pos) = (results, some (.ir .incompleteIr)) ∧
    results.map (fun r => (r.1, r.2.timestamp?)) =
      [(⟨ascii "hello", 1005⟩, some 1005), (⟨ascii "bye", 990⟩, some 990)] := by
  have hrun : (fourByteSerializer (ε := Unit) writeApi [] [] (ascii "UTC") 1000).toOption.map
      (fun r => (serializeAll Unit r.1 refusedMiddle).map
        (fun s => (s.event.view, s.serializer.prevTimestamp))) =
      some [(⟨ascii "hello", 1005⟩, some 1005), (⟨ascii "bye", 990⟩, some 990)] := by
    decide +kernel
  obtain ⟨⟨serializer, preamble⟩, hnew, hviews⟩ := Option.map_eq_some_iff.mp hrun
  have hres := ok_of_toOption hnew
  have hcalls : ∀ call ∈ refusedMiddle, CarriesEvents readApi call.clp .fourByte := by
    simp only [refusedMiddle, List.forall_mem_cons]
    exact ⟨codec.carriesEvents, codec.carriesEvents, codec.carriesEvents, by simp⟩
  obtain ⟨irBuf, d, pos, fuel, results, hbuf, hpre, _, _, hall, hmap⟩ :=
    fourByte_lockstep jsonApi_rejectsEmpty codec.carriesReference hres hcalls
  exact ⟨serializer, preamble, irBuf, d, pos, fuel, results, hres, hbuf, hpre, hall,
    hmap.trans hviews⟩

end ClpFfiGo
