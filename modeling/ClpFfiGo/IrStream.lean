import ClpFfiGo.Construction

namespace ClpFfiGo

variable {ε : Type} {clp : IrReadApi} {json : JsonApi ε} {enc : Encoding}

def fourByteFlag : Encoding → Bool
  | .eightByte => false
  | .fourByte => true

structure PreambleBytes (clp : IrReadApi) (json : JsonApi ε) (enc : Encoding)
    (metadata : Metadata) (p : List UInt8) : Prop where
  whole : ∃ q m, m.metadataType = 1 ∧
    json.unmarshal (Slice.between p m.metadataPos (m.metadataPos + m.metadataSize)) =
      .ok metadata ∧
    ∀ rest, clp.getEncodingType ⟨p ++ rest, 0⟩ = .ok (fourByteFlag enc, q) ∧
      clp.deserializePreamble ⟨p ++ rest, q⟩ = .ok (m, p.length)
  part : ∀ u, u <+: p → u ≠ p → clp.getEncodingType ⟨u, 0⟩ = .error .incompleteIr ∨
    ∃ f q, clp.getEncodingType ⟨u, 0⟩ = .ok (f, q) ∧
      clp.deserializePreamble ⟨u, q⟩ = .error .incompleteIr

structure EventBytes (clp : IrReadApi) (enc : Encoding) (p : List UInt8)
    (i : GoString × EpochTimeMs) : Prop where
  whole : ∀ rest, ∃ tag q, clp.deserializeTag ⟨p ++ rest, 0⟩ = .ok (tag, q) ∧ tag ≠ clp.eof ∧
    clp.deserializeLogEvent enc ⟨p ++ rest, q⟩ tag = .ok (i, p.length)
  part : ∀ u, u <+: p → u ≠ p → clp.deserializeTag ⟨u, 0⟩ = .error .incompleteIr ∨
    ∃ tag q, clp.deserializeTag ⟨u, 0⟩ = .ok (tag, q) ∧ tag ≠ clp.eof ∧
      clp.deserializeLogEvent enc ⟨u, q⟩ tag = .error .incompleteIr

def EofByte (clp : IrReadApi) : Prop :=
  clp.eof = 0 ∧ ∀ rest, ∃ q, clp.deserializeTag ⟨0 :: rest, 0⟩ = .ok (0, q)

structure IrStream (clp : IrReadApi) (json : JsonApi ε) (enc : Encoding) (metadata : Metadata)
    (is : List (GoString × EpochTimeMs)) (b : List UInt8) : Prop where
  eof : EofByte clp
  parts : ∃ pre ps, b = pre ++ (ps.flatten ++ [0]) ∧ PreambleBytes clp json enc metadata pre ∧
    List.Forall₂ (EventBytes clp enc) ps is

structure Codec (clp : IrReadApi) (clpw : IrWriteApi) (json : JsonApi ε) : Prop where
  eof : EofByte clp
  eightBytePreamble : ∀ {tsPattern tsPatternSyntax timeZoneId p},
    clpw.eightByteSerializePreamble tsPattern tsPatternSyntax timeZoneId [] = (true, p) →
    ∃ metadata, PreambleBytes clp json .eightByte metadata p
  fourBytePreamble : ∀ {tsPattern tsPatternSyntax timeZoneId referenceTs p},
    clpw.fourByteSerializePreamble tsPattern tsPatternSyntax timeZoneId referenceTs [] =
      (true, p) →
    ∃ metadata, metadata metadataReferenceTimestampKey = some (.str (formatInt referenceTs)) ∧
      PreambleBytes clp json .fourByte metadata p
  event : ∀ {enc timestampOrDelta logMessage logtype logtype' p},
    clpw.serializeLogEvent enc timestampOrDelta logMessage logtype [] = (true, logtype', p) →
    EventBytes clp enc p (logMessage, timestampOrDelta)

def CarriesEvents (clp : IrReadApi) (clpw : IrWriteApi) (enc : Encoding) : Prop :=
  ∀ {timestampOrDelta logMessage logtype logtype' p},
    clpw.serializeLogEvent enc timestampOrDelta logMessage logtype [] = (true, logtype', p) →
    EventBytes clp enc p (logMessage, timestampOrDelta)

theorem Codec.carriesEvents {clpw : IrWriteApi} (h : Codec clp clpw json) :
    CarriesEvents clp clpw enc := fun he => h.event he

def CarriesReference (clp : IrReadApi) (clpw : IrWriteApi) (json : JsonApi ε) : Prop :=
  ∀ {tsPattern tsPatternSyntax timeZoneId referenceTs p},
    clpw.fourByteSerializePreamble tsPattern tsPatternSyntax timeZoneId referenceTs [] =
      (true, p) →
    ∃ metadata, metadata metadataReferenceTimestampKey = some (.str (formatInt referenceTs)) ∧
      PreambleBytes clp json .fourByte metadata p

theorem Codec.carriesReference {clpw : IrWriteApi} (h : Codec clp clpw json) :
    CarriesReference clp clpw json := fun hp => h.fourBytePreamble hp

def JsonApi.RejectsEmpty (json : JsonApi ε) : Prop := ∀ metadata, json.unmarshal [] ≠ .ok metadata

def initialTime (enc : Encoding) (metadata : Metadata) : EpochTimeMs :=
  match enc with
  | .eightByte => 0
  | .fourByte => metadata.refTs

theorem EventBytes.exact {p : List UInt8} {i : GoString × EpochTimeMs}
    (h : EventBytes clp enc p i) : (itemDecoder clp enc).Exact p i := by
  constructor
  · intro rest
    obtain ⟨tag, q, ht, hne, he⟩ := h.whole rest
    simp only [itemDecoder, Native.nextLogEvent, ht, if_neg hne, he]
  · intro u hu hne
    rcases h.part u hu hne with ht | ⟨tag, q, ht, htag, he⟩
    · simp only [itemDecoder, Native.nextLogEvent, ht]
    · simp only [itemDecoder, Native.nextLogEvent, ht, if_neg htag, he]

theorem EofByte.dec (h : EofByte clp) (rest : List UInt8) :
    (itemDecoder clp enc).dec (0 :: rest) = .error .eof := by
  obtain ⟨q, ht⟩ := h.2 rest
  simp only [itemDecoder, Native.nextLogEvent, ht, if_pos h.1.symm]

theorem EofByte.regular (h : EofByte clp) : (itemDecoder clp enc).Regular [0] := by
  refine .error ?_ (h.dec [])
  intro u p hu hp
  rcases List.eq_nil_or_concat u with rfl | ⟨_, _, rfl⟩
  · exact .inl itemDecoder_nil
  · have hl : p.length ≤ 1 := by simpa using hp.length_le
    have hk := hu.length_le
    rw [hu.eq_of_length_le (by simp at hk ⊢; omega)]
    exact .inr rfl

namespace PreambleBytes

variable {metadata : Metadata} {pre : List UInt8}

theorem answer (h : PreambleBytes clp json enc metadata pre) (rest : List UInt8)
    (hne : 0 < (pre ++ rest).length) : deserializePreamble clp json (pre ++ rest) =
      .ok (newDeserializer enc metadata ⟨0⟩, pre.length) := by
  obtain ⟨q, m, htype, hjson, hall⟩ := h.whole
  obtain ⟨hg, hp⟩ := hall rest
  have hb := clp.preamble_bounds (hall []).2
  have hm : m.metadataPos + m.metadataSize ≤ pre.length := hb.1
  have hn : Native.newDeserializerWithPreamble clp (pre ++ rest) = .ok
      ⟨pre.length, enc, m.metadataType, m.metadataPos, m.metadataSize, ⟨0⟩⟩ := by
    rw [Native.newDeserializerWithPreamble]
    rw [hg]
    dsimp only
    rw [hp]
    simp only [clp.tryGetPos_eq]
    cases enc <;> rfl
  rw [deserializePreamble]
  rw [if_neg (by omega), hn]
  dsimp only
  rw [if_neg (by rw [htype]; simp),
    Slice.slice?_eq_some (Nat.le_add_right _ _) (by rw [List.length_append]; omega),
    Slice.between_append _ hm]
  dsimp only
  rw [hjson]

theorem ne_nil (h : PreambleBytes clp json enc metadata pre) (hjson : json.RejectsEmpty) :
    0 < pre.length := by
  obtain ⟨q, m, _, hparse, hall⟩ := h.whole
  apply Nat.pos_of_ne_zero
  intro h0
  rw [List.length_eq_zero_iff.mp h0, Slice.between, List.drop_nil, List.take_nil] at hparse
  exact hjson metadata hparse

theorem cut (h : PreambleBytes clp json enc metadata pre) {u : List UInt8} (hu : u <+: pre)
    (hne : u ≠ pre) : Cut (deserializePreamble clp json u) := by
  refine ⟨.ir .incompleteIr, ?_, rfl⟩
  rw [deserializePreamble]
  split
  · rfl
  · have hn : Native.newDeserializerWithPreamble clp u =
        .error IRErrorCode.incompleteIr.toInt := by
      rw [Native.newDeserializerWithPreamble]
      rcases h.part u hu hne with hg | ⟨f, q, hg, hp⟩
      · rw [hg]
      · rw [hg]
        dsimp only
        rw [hp]
    rw [hn]
    rfl

theorem settled (h : PreambleBytes clp json enc metadata pre) (rest : List UInt8) :
    PreambleSettled clp json (pre ++ rest) := by
  intro u p hup hp
  rcases List.prefix_or_prefix_of_prefix (hup.trans hp) (List.prefix_append pre rest) with
    hu | ⟨r, rfl⟩
  · by_cases hne : u = pre
    · subst hne
      by_cases h0 : u = []
      · subst h0
        exact .inl ⟨.ir .incompleteIr, rfl, rfl⟩
      · obtain ⟨x, rfl⟩ := hup
        have hl := List.length_pos_iff.mpr h0
        have ha := h.answer [] (by simpa using hl)
        rw [List.append_nil] at ha
        right
        rw [ha, h.answer x (by rw [List.length_append]; omega)]
    · exact .inl (h.cut hu hne)
  · obtain ⟨x, rfl⟩ := hup
    by_cases h0 : pre ++ r = []
    · rw [h0]
      exact .inl ⟨.ir .incompleteIr, rfl, rfl⟩
    · have hl := List.length_pos_iff.mpr h0
      right
      rw [h.answer r hl, List.append_assoc, h.answer _ (by
        rw [List.length_append] at hl ⊢
        rw [List.length_append]
        omega)]

end PreambleBytes

structure StreamFacts (clp : IrReadApi) (json : JsonApi ε) (enc : Encoding) (metadata : Metadata)
    (is : List (GoString × EpochTimeMs)) (b : List UInt8) (pos : ℕ) : Prop where
  settled : PreambleSettled clp json b
  answer : deserializePreamble clp json b = .ok (newDeserializer enc metadata ⟨0⟩, pos)
  regular : (itemDecoder clp enc).Regular (b.drop pos)
  items : ((itemDecoder clp enc).parse (b.drop pos)).1.map Prod.fst = is
  tail : ((itemDecoder clp enc).parse (b.drop pos)).2 = .eof

theorem IrStream.facts {metadata : Metadata} {is : List (GoString × EpochTimeMs)}
    {b : List UInt8} (h : IrStream clp json enc metadata is b) :
    ∃ pos, StreamFacts clp json enc metadata is b pos := by
  obtain ⟨pre, ps, rfl, hpre, hps⟩ := h.parts
  have hexact : List.Forall₂ (itemDecoder clp enc).Exact ps is :=
    hps.imp fun _ _ hp => hp.exact
  have heof : (itemDecoder clp enc).parse [0] = ([], .eof) :=
    ItemDecoder.parse_error (h.eof.dec [])
  have hparse := ItemDecoder.parse_items hexact [0]
  rw [heof, List.append_nil] at hparse
  have hlen : 0 < (pre ++ (ps.flatten ++ [0])).length := by
    simp only [List.length_append, List.length_singleton]
    omega
  refine ⟨pre.length, hpre.settled _, hpre.answer _ hlen, ?_, ?_, ?_⟩
  · rw [List.drop_left]
    exact ItemDecoder.regular_items hexact h.eof.regular
  · rw [List.drop_left, hparse]
    exact List.map_fst_zip (by rw [List.length_map, hps.length_eq])
  · rw [List.drop_left, hparse]

theorem newDeserializer_at (enc : Encoding) (metadata : Metadata) :
    newDeserializer enc metadata ⟨0⟩ =
      (newDeserializer enc metadata ⟨0⟩).at (initialTime enc metadata) := by
  cases enc <;> rfl

@[simp] theorem encoding_newDeserializer (enc : Encoding) (metadata : Metadata)
    (n : Native.Deserializer) : (newDeserializer enc metadata n).encoding = enc := by
  cases enc <;> rfl

theorem preamble_opens {σ : Type} {io : IoReader σ ε} {metadata : Metadata} {b : List UInt8}
    {pos : ℕ} (hsettled : PreambleSettled clp json b)
    (hanswer : deserializePreamble clp json b = .ok (newDeserializer enc metadata ⟨0⟩, pos))
    {s : σ} {size : ℕ} (hsize : 0 < size) (hd : io.Delivers IoReader.NoError s b) :
    ∃ fuel rd, newReaderSize clp json io s size fuel = some (.ok rd) ∧
      rd.Holds (io.Delivers IoReader.NoError) (newDeserializer enc metadata ⟨0⟩)
        ⟨initialTime enc metadata, b.drop pos⟩ := by
  have hcut : ¬ Cut (deserializePreamble clp json b) := by
    rintro ⟨err, he, _⟩
    rw [hanswer] at he
    cases he
  obtain ⟨fuel, res, hnew⟩ := newReaderSize_ends hcut hsize hd
  have hbuilt := newReaderSize_built (io.delivers_conserves _) hsettled hsize hd hnew
  cases hbuilt with
  | sourceFailed hf => exact hf.allowed.elim
  | rejected he _ => rw [hanswer] at he; cases he
  | @returned rd d t pos' he hdt hh =>
    rw [hanswer] at he
    obtain ⟨rfl, rfl⟩ := Prod.mk.inj (Except.ok.inj he)
    have ht : t = initialTime enc metadata := by
      have := congrArg Deserializer.cptr (hdt.symm.trans (newDeserializer_at enc metadata))
      simpa using this
    subst ht
    exact ⟨fuel, rd, hnew, hh⟩

theorem StreamFacts.opens {σ : Type} {io : IoReader σ ε} {metadata : Metadata}
    {is : List (GoString × EpochTimeMs)} {b : List UInt8} {pos : ℕ}
    (h : StreamFacts clp json enc metadata is b pos) {s : σ} {size : ℕ} (hsize : 0 < size)
    (hd : io.Delivers IoReader.NoError s b) :
    ∃ fuel rd, newReaderSize clp json io s size fuel = some (.ok rd) ∧
      rd.Holds (io.Delivers IoReader.NoError) (newDeserializer enc metadata ⟨0⟩)
        ⟨initialTime enc metadata, b.drop pos⟩ :=
  preamble_opens h.settled h.answer hsize hd

end ClpFfiGo
