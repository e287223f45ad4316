import ClpFfiGo.BufferSize
import ClpFfiGo.SerializerLockstep

namespace ClpFfiGo

variable {σ ε : Type} {clp : IrReadApi} {clpw : IrWriteApi} {json : JsonApi ε} {enc : Encoding}

def ValidUtf8 (s : GoString) : Prop := ByteArray.IsValidUTF8 ⟨s.toArray⟩

structure Metadata.Carries (metadata : Metadata) (tsInfo : TimestampInfo) : Prop where
  pattern : metadata metadataTimestampPatternKey = some (.str tsInfo.pattern)
  patternSyntax : metadata metadataTimestampPatternSyntaxKey = some (.str tsInfo.patternSyntax)
  timeZoneId : metadata metadataTzIdKey = some (.str tsInfo.timeZoneId)

def TimestampInfo.ValidUtf8 (tsInfo : TimestampInfo) : Prop :=
  ClpFfiGo.ValidUtf8 tsInfo.pattern ∧ ClpFfiGo.ValidUtf8 tsInfo.patternSyntax ∧
    ClpFfiGo.ValidUtf8 tsInfo.timeZoneId

structure CarriesMetadata (clp : IrReadApi) (clpw : IrWriteApi) (json : JsonApi ε) : Prop where
  rejectsEmpty : json.RejectsEmpty
  eightByte : ∀ {tsInfo p}, tsInfo.ValidUtf8 → clpw.eightByteSerializePreamble tsInfo.pattern
      tsInfo.patternSyntax tsInfo.timeZoneId [] = (true, p) →
    ∃ metadata : Metadata, metadata.Carries tsInfo ∧ PreambleBytes clp json .eightByte metadata p
  fourByte : ∀ {tsInfo referenceTs p}, tsInfo.ValidUtf8 → clpw.fourByteSerializePreamble
      tsInfo.pattern tsInfo.patternSyntax tsInfo.timeZoneId referenceTs [] = (true, p) →
    ∃ metadata : Metadata, metadata.Carries tsInfo ∧
      metadata metadataReferenceTimestampKey = some (.str (formatInt referenceTs)) ∧
      PreambleBytes clp json .fourByte metadata p

def newSerializer (clpw : IrWriteApi) (enc : Encoding) (tsInfo : TimestampInfo)
    (referenceTs : EpochTimeMs) : Except (GoError ε) (Serializer × BufView) :=
  match enc with
  | .eightByte =>
    eightByteSerializer clpw tsInfo.pattern tsInfo.patternSyntax tsInfo.timeZoneId
  | .fourByte =>
    fourByteSerializer clpw tsInfo.pattern tsInfo.patternSyntax tsInfo.timeZoneId referenceTs

def Deserializer.prevTimestamp : Deserializer → Option EpochTimeMs
  | .eightByte _ => none
  | .fourByte _ prevTimestamp => some prevTimestamp

theorem Metadata.Carries.timestampInfo {metadata : Metadata} {tsInfo : TimestampInfo}
    (h : metadata.Carries tsInfo) : metadata.timestampInfo = tsInfo := by
  simp [Metadata.timestampInfo, Metadata.field, h.pattern, h.patternSyntax, h.timeZoneId]

theorem newSerializer_bytes (h : CarriesMetadata clp clpw json) {tsInfo : TimestampInfo}
    (hutf : tsInfo.ValidUtf8) {referenceTs : EpochTimeMs} {serializer : Serializer} {p : BufView}
    (hnew : newSerializer (ε := ε) clpw enc tsInfo referenceTs = .ok (serializer, p)) :
    ∃ metadata : Metadata, metadata.timestampInfo = tsInfo ∧
      (enc = .fourByte → metadata.refTs = referenceTs) ∧
      PreambleBytes clp json enc metadata p := by
  cases enc with
  | eightByte =>
    obtain ⟨_, _, hp⟩ := eightByteSerializer_ok hnew
    obtain ⟨metadata, hcarries, hbytes⟩ := h.eightByte hutf hp
    exact ⟨metadata, hcarries.timestampInfo, nofun, hbytes⟩
  | fourByte =>
    obtain ⟨_, _, hp⟩ := fourByteSerializer_ok hnew
    obtain ⟨metadata, hcarries, href, hbytes⟩ := h.fourByte hutf hp
    exact ⟨metadata, hcarries.timestampInfo, fun _ => refTs_formatInt href, hbytes⟩

section cursor

variable {io : IoReader σ ε} {src : σ → List UInt8 → Prop} {metadata : Metadata}
  {p rest : List UInt8} {s : σ} {size fuel : ℕ} {rd : Reader σ}

theorem reader_after_preamble (hsrc : io.Conserves src)
    (hbytes : PreambleBytes clp json enc metadata p) (hlen : 0 < p.length) (hsize : 0 < size)
    (hs : src s (p ++ rest)) (hnew : newReaderSize clp json io s size fuel = some (.ok rd)) :
    rd.deserializer = newDeserializer enc metadata ⟨0⟩ ∧ rd.start = p.length ∧
      rd.buf.take rd.start = p ∧
      ∃ left, rd.unread ++ left = rest ∧ src rd.ioReader left := by
  obtain ⟨rb, hrb, hstop⟩ := newReaderSize_constructed hnew
  obtain ⟨ho, h0, -⟩ := constructing_bounded hbytes (le_refl _) hsrc hsize hs hrb
  obtain ⟨left, hu, hleft⟩ := ho.source
  have hcases := construct_cases clp json io ho.wf h0
  rw [hstop] at hcases
  cases hcases with
  | @returned d pos ha =>
    have hanswer := hbytes.answer rest (by rw [List.length_append]; omega)
    have hfull : deserializePreamble clp json rb.unread =
        .ok (newDeserializer enc metadata ⟨0⟩, p.length) := by
      rcases hbytes.settled rest rb.unread _ ho.unread_prefix List.prefix_rfl with
        ⟨err, he, _⟩ | he
      · rw [ha] at he
        cases he
      · rw [he, hanswer]
    obtain ⟨rfl, rfl⟩ := Prod.mk.inj (Except.ok.inj (ha.symm.trans hfull))
    have hbound := (deserializePreamble_ok ha).1
    have hlength := ho.wf.length_unread
    refine ⟨rfl, rfl, ?_, left, ?_, hleft⟩
    · have htake := congrArg (List.take p.length) hu
      rw [List.take_append_of_le_length hbound, List.take_left, ReadBuf.unread, Slice.between,
        List.take_take, h0, List.drop_zero, Nat.min_eq_left (by omega)] at htake
      exact htake
    · have hdrop := congrArg (List.drop p.length) hu
      have hadvance := Slice.between_advance rb.buf rb.start rb.stop p.length
      rw [h0, Nat.zero_add] at hadvance
      rw [List.drop_append_of_le_length hbound, List.drop_left, ReadBuf.unread, h0,
        ← hadvance] at hdrop
      exact hdrop

end cursor

theorem preamble_roundTrip (h : CarriesMetadata clp clpw json) {tsInfo : TimestampInfo}
    (hutf : tsInfo.ValidUtf8) {referenceTs : EpochTimeMs} {serializer : Serializer} {p : BufView}
    (hnew : newSerializer (ε := ε) clpw enc tsInfo referenceTs = .ok (serializer, p))
    {io : IoReader σ ε} {rest : List UInt8} {s : σ} {size : ℕ} (hsize : 0 < size)
    (hs : io.Delivers IoReader.NoError s (p ++ rest)) :
    ∃ fuel rd, newReaderSize clp json io s size fuel = some (.ok rd) ∧
      rd.deserializer.encoding = enc ∧ rd.deserializer.timestampInfo = tsInfo ∧
      (enc = .fourByte → rd.deserializer.prevTimestamp = some referenceTs ∧
        rd.deserializer.timestamp? = some referenceTs) ∧
      rd.start = p.length ∧ rd.buf.take rd.start = p ∧
      ∃ left, rd.unread ++ left = rest ∧ io.Delivers IoReader.NoError rd.ioReader left := by
  obtain ⟨metadata, hinfo, href, hbytes⟩ := newSerializer_bytes h hutf hnew
  have hlen := hbytes.ne_nil h.rejectsEmpty
  obtain ⟨fuel, rd, hopen, -⟩ := preamble_opens (hbytes.settled rest)
    (hbytes.answer rest (by rw [List.length_append]; omega)) hsize hs
  obtain ⟨hd, hstart, htake, hleft⟩ :=
    reader_after_preamble (io.delivers_conserves _) hbytes hlen hsize hs hopen
  refine ⟨fuel, rd, hopen, ?_, ?_, ?_, hstart, htake, hleft⟩
  · rw [hd, encoding_newDeserializer]
  · rw [hd, ← hinfo]
    cases enc <;> rfl
  · rintro rfl
    rw [hd, ← href rfl]
    exact ⟨rfl, rfl⟩

namespace SampleCodec

def carriesAll (text : List UInt8) (tsInfo : TimestampInfo) : Bool :=
  match unmarshal text with
  | .ok metadata => metadata metadataTimestampPatternKey = some (.str tsInfo.pattern) ∧
      metadata metadataTimestampPatternSyntaxKey = some (.str tsInfo.patternSyntax) ∧
      metadata metadataTzIdKey = some (.str tsInfo.timeZoneId)
  | .error _ => false

-- Like `writeApi`, and refuses the strings that its JSON text cannot carry.
def metadataWriteApi : IrWriteApi where
  eightByteSerializePreamble a b c irBuf :=
    let text := marshal a b c []
    (text.length < 256 ∧ carriesAll text ⟨a, b, c⟩, irBuf ++ preamble .eightByte text)
  fourByteSerializePreamble a b c ref irBuf :=
    let text := marshal a b c [field metadataReferenceTimestampKey (formatInt ref)]
    (text.length < 256 ∧ carriesAll text ⟨a, b, c⟩ ∧
      carries text metadataReferenceTimestampKey (formatInt ref),
      irBuf ++ preamble .fourByte text)
  serializeLogEvent := writeApi.serializeLogEvent

theorem carriesAll_metadata {text : List UInt8} {tsInfo : TimestampInfo}
    (h : carriesAll text tsInfo = true) :
    ∃ metadata : Metadata, unmarshal text = .ok metadata ∧ metadata.Carries tsInfo := by
  rw [carriesAll] at h
  split at h
  · rename_i metadata hm
    obtain ⟨hp, hs, hz⟩ := of_decide_eq_true h
    exact ⟨metadata, hm, hp, hs, hz⟩
  · cases h

theorem metadataWriteApi_carries : CarriesMetadata readApi metadataWriteApi jsonApi where
  rejectsEmpty := jsonApi_rejectsEmpty
  eightByte _ h := by
    simp only [metadataWriteApi, List.nil_append, Prod.mk.injEq, decide_eq_true_eq] at h
    obtain ⟨⟨hl, hc⟩, rfl⟩ := h
    obtain ⟨metadata, hm, hcarries⟩ := carriesAll_metadata hc
    exact ⟨metadata, hcarries, preambleBytes hl hm⟩
  fourByte _ h := by
    simp only [metadataWriteApi, List.nil_append, Prod.mk.injEq, decide_eq_true_eq] at h
    obtain ⟨⟨hl, hc, hr⟩, rfl⟩ := h
    obtain ⟨metadata, hm, hcarries⟩ := carriesAll_metadata hc
    obtain ⟨metadata', hm', href⟩ := carries_metadata hr
    obtain rfl : metadata = metadata' := Except.ok.inj (hm.symm.trans hm')
    exact ⟨metadata, hcarries, href, preambleBytes hl hm⟩

theorem validUtf8_ascii : TimestampInfo.ValidUtf8 ⟨ascii "%Y", ascii "java", ascii "UTC"⟩ :=
  ⟨⟨"%Y".toList, by decide⟩, ⟨"java".toList, by decide⟩, ⟨"UTC".toList, by decide⟩⟩

open IoReader in
theorem bytewise_preamble_roundTrip : ∃ serializer p fuel rd,
    newSerializer (ε := Unit) metadataWriteApi .fourByte ⟨ascii "%Y", ascii "java", ascii "UTC"⟩
      (-5) = .ok (serializer, p) ∧
    newReaderSize readApi jsonApi source (bytewise (p ++ [0])) 1 fuel = some (.ok rd) ∧
    rd.deserializer.timestampInfo = ⟨ascii "%Y", ascii "java", ascii "UTC"⟩ ∧
    rd.deserializer.prevTimestamp = some (-5) ∧ rd.deserializer.timestamp? = some (-5) ∧
    rd.start = p.length := by
  have hopen : (newSerializer (ε := Unit) metadataWriteApi .fourByte
      ⟨ascii "%Y", ascii "java", ascii "UTC"⟩ (-5)).isOk := by
    decide +kernel
  cases hnew : newSerializer (ε := Unit) metadataWriteApi .fourByte
      ⟨ascii "%Y", ascii "java", ascii "UTC"⟩ (-5) with
  | error err => simp [hnew, Except.isOk, Except.toBool] at hopen
  | ok r =>
    obtain ⟨serializer, p⟩ := r
    obtain ⟨fuel, rd, hrd, _, hinfo, htime, hstart, _⟩ :=
      preamble_roundTrip metadataWriteApi_carries validUtf8_ascii hnew Nat.one_pos
        (bytewise_delivers NoError (p ++ [0]))
    obtain ⟨hprev, htimestamp⟩ := htime rfl
    exact ⟨serializer, p, fuel, rd, rfl, hrd, hinfo, hprev, htimestamp, hstart⟩

end SampleCodec

end ClpFfiGo
