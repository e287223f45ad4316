import ClpFfiGo.IrStream
import ClpFfiGo.Foundation.ChunkedReader

namespace ClpFfiGo.SampleCodec

abbrev Decode (α : Type) := List UInt8 → Except IRErrorCode (α × ℕ)

structure Decode.Stable {α : Type} (f : Decode α) : Prop where
  nil : f [] = .error .incompleteIr
  bounds : ∀ {b a n}, f b = .ok (a, n) → n ≤ b.length
  extend : ∀ b x, f b ≠ .error .incompleteIr → f (b ++ x) = f b

theorem Decode.Stable.part {α : Type} {f : Decode α} (hf : f.Stable) {p u : List UInt8} {a : α}
    (h : f p = .ok (a, p.length)) (hu : u <+: p) (hne : u ≠ p) :
    f u = .error .incompleteIr := by
  by_contra hc
  obtain ⟨x, rfl⟩ := hu
  rw [hf.extend u x hc] at h
  have hl := hf.bounds h
  rw [List.length_append] at hl
  have hx : x = [] := List.length_eq_zero_iff.mp (by omega)
  exact hne (by rw [hx, List.append_nil])

def decodeMagic : Decode Bool
  | a :: b :: c :: d :: _ =>
    if [a, b, c, d] = [0xFD, 0x2F, 0xB5, 0x29] then .ok (true, 4)
    else if [a, b, c, d] = [0xFD, 0x2F, 0xB5, 0x30] then .ok (false, 4)
    else .error .corruptedIr
  | _ => .error .incompleteIr

def decodeMetadata : Decode (Int8 × ℕ)
  | type :: tag :: len :: rest =>
    if tag ≠ 0x11 then .error .corruptedIr
    else if rest.length < len.toNat then .error .incompleteIr
    else .ok ((type.toInt8, len.toNat), 3 + len.toNat)
  | _ => .error .incompleteIr

def decodeTag : Decode UInt8
  | [] => .error .incompleteIr
  | tag :: _ => .ok (tag, 1)

def decodeTimestamp : Encoding → Decode EpochTimeMs
  | _, [] => .error .incompleteIr
  | .fourByte, tag :: rest =>
    if tag ≠ 0x31 then .error .corruptedIr
    else match rest with
      | [] => .error .incompleteIr
      | delta :: _ => .ok (delta.toInt8.toInt64, 2)
  | .eightByte, tag :: rest =>
    if tag ≠ 0x30 then .error .corruptedIr
    else if rest.length < 8 then .error .incompleteIr
    else .ok ((UInt64.ofNat ((rest.take 8).foldl (fun n b => n * 256 + b.toNat) 0)).toInt64, 9)

def decodeEvent (enc : Encoding) (tag : UInt8) : Decode (GoString × EpochTimeMs)
  | [] => .error .incompleteIr
  | len :: rest =>
    if tag ≠ 0x21 then .error .corruptedIr
    else if rest.length < len.toNat then .error .incompleteIr
    else match decodeTimestamp enc (rest.drop len.toNat) with
      | .error err => .error err
      | .ok (v, n) => .ok ((rest.take len.toNat, v), 1 + len.toNat + n)

def encodeTimestamp (enc : Encoding) (v : EpochTimeMs) : List UInt8 :=
  match enc with
  | .fourByte => [0x31, v.toInt8.toUInt8]
  | .eightByte => 0x30 :: [56, 48, 40, 32, 24, 16, 8, 0].map fun k : UInt64 =>
      (v.toUInt64 >>> k).toUInt8

section stable

theorem decodeMagic_stable : Decode.Stable decodeMagic := by
  refine ⟨rfl, ?_, ?_⟩
  · intro b a n h
    unfold decodeMagic at h
    split at h
    · split at h
      · cases h
        simp
      · split at h <;> cases h
        simp
    · cases h
  · intro b x h
    rcases b with _ | ⟨a, _ | ⟨b, _ | ⟨c, _ | ⟨d, b⟩⟩⟩⟩
    case cons.cons.cons.cons => rfl
    all_goals exact absurd rfl h

theorem decodeMetadata_stable : Decode.Stable decodeMetadata := by
  refine ⟨rfl, ?_, ?_⟩
  · intro b a n h
    unfold decodeMetadata at h
    split at h
    · split at h
      · cases h
      · split at h
        · cases h
        · cases h
          simp only [List.length_cons]
          omega
    · cases h
  · intro b x h
    rcases b with _ | ⟨type, _ | ⟨tag, _ | ⟨len, rest⟩⟩⟩
    case cons.cons.cons =>
      simp only [decodeMetadata, List.cons_append, List.length_append] at h ⊢
      split
      · rfl
      · rename_i ht
        rw [if_neg ht] at h
        split at h
        · exact absurd rfl h
        · rename_i hl
          rw [if_neg hl, if_neg (by omega)]
    all_goals exact absurd rfl h

theorem decodeMetadata_size {b : List UInt8} {m : Int8 × ℕ} {n : ℕ}
    (h : decodeMetadata b = .ok (m, n)) : 3 + m.2 = n := by
  unfold decodeMetadata at h
  split at h
  · split at h
    · cases h
    · split at h
      · cases h
      · cases h
        rfl
  · cases h

theorem decodeTag_stable : Decode.Stable decodeTag := by
  refine ⟨rfl, ?_, ?_⟩
  · intro b a n h
    cases b <;> cases h
    simp
  · intro b x h
    cases b with
    | nil => exact absurd rfl h
    | cons tag b => rfl

theorem decodeTimestamp_stable (enc : Encoding) : Decode.Stable (decodeTimestamp enc) := by
  refine ⟨by cases enc <;> rfl, ?_, ?_⟩
  · intro b a n h
    rcases b with _ | ⟨tag, rest⟩
    · cases enc <;> cases h
    · cases enc <;> simp only [decodeTimestamp] at h <;> split at h
      · cases h
      · split at h
        · cases h
        · cases h
          simp only [List.length_cons]
          omega
      · cases h
      · cases rest <;> cases h
        simp
  · intro b x h
    rcases b with _ | ⟨tag, rest⟩
    · cases enc <;> exact absurd rfl h
    · cases enc with
      | eightByte =>
        simp only [decodeTimestamp, List.cons_append, List.length_append] at h ⊢
        split
        · rfl
        · rename_i ht
          rw [if_neg ht] at h
          split at h
          · exact absurd rfl h
          · rename_i hl
            rw [if_neg hl, if_neg (by omega), List.take_append_of_le_length (by omega)]
      | fourByte =>
        simp only [decodeTimestamp, List.cons_append] at h ⊢
        split
        · rfl
        · rename_i ht
          rw [if_neg ht] at h
          cases rest with
          | nil => exact absurd rfl h
          | cons delta rest => rfl

theorem decodeEvent_stable (enc : Encoding) (tag : UInt8) :
    Decode.Stable (decodeEvent enc tag) := by
  refine ⟨rfl, ?_, ?_⟩
  · intro b a n h
    rcases b with _ | ⟨len, rest⟩
    · cases h
    · simp only [decodeEvent] at h
      split at h
      · cases h
      · split at h
        · cases h
        · split at h
          · cases h
          · rename_i hl _ _ _ hd
            have hn := (decodeTimestamp_stable enc).bounds hd
            cases h
            simp only [List.length_drop, List.length_cons] at hn ⊢
            omega
  · intro b x h
    rcases b with _ | ⟨len, rest⟩
    · exact absurd rfl h
    · simp only [decodeEvent, List.cons_append, List.length_append] at h ⊢
      split
      · rfl
      · rename_i ht
        rw [if_neg ht] at h
        split at h
        · exact absurd rfl h
        · rename_i hl
          have hts : decodeTimestamp enc (rest.drop len.toNat) ≠ .error .incompleteIr := by
            intro hm
            rw [hm] at h
            exact h rfl
          rw [if_neg hl, if_neg (by omega), List.drop_append_of_le_length (by omega),
            List.take_append_of_le_length (by omega), (decodeTimestamp_stable enc).extend _ _ hts]

end stable

section positions

variable {α : Type}

def atPos (f : Decode α) (r : BufferReader) : Except IRErrorCode (α × ℕ) :=
  (f (r.data.drop r.pos)).map (fun a => (a.1, r.pos + a.2))

theorem atPos_bounds {f : Decode α} (hf : f.Stable) {r : BufferReader} {a : α} {p : ℕ}
    (h : atPos f r = .ok (a, p)) : r.pos < r.data.length ∧ r.pos ≤ p ∧ p ≤ r.data.length := by
  rw [atPos] at h
  rcases hd : f (r.data.drop r.pos) with err | ⟨a', n⟩
  · rw [hd] at h
    cases h
  · rw [hd] at h
    cases h
    have hn := hf.bounds hd
    have hlt : r.pos < r.data.length := by
      by_contra hge
      rw [List.drop_eq_nil_of_le (by omega), hf.nil] at hd
      cases hd
    rw [List.length_drop] at hn
    exact ⟨hlt, by dsimp only; omega, by dsimp only; omega⟩

theorem atPos_shift (f : Decode α) (pre b : List UInt8) (p : ℕ) :
    atPos f ⟨pre ++ b, pre.length + p⟩ =
      (atPos f ⟨b, p⟩).map (fun r => (r.1, pre.length + r.2)) := by
  have hd : (pre ++ b).drop (pre.length + p) = b.drop p := by
    rw [← List.drop_drop, List.drop_left]
  simp only [atPos, hd]
  cases f (b.drop p) with
  | error err => rfl
  | ok r => simp [Except.map, Nat.add_assoc]

theorem atPos_extend {f : Decode α} (hf : f.Stable) (b x : List UInt8) (p : ℕ)
    (h : atPos f ⟨b, p⟩ ≠ .error .incompleteIr) : atPos f ⟨b ++ x, p⟩ = atPos f ⟨b, p⟩ := by
  have hp : p ≤ b.length := by
    by_contra hlt
    apply h
    simp only [atPos]
    rw [List.drop_eq_nil_of_le (by omega), hf.nil]
    rfl
  have hne : f (b.drop p) ≠ .error .incompleteIr := by
    intro hm
    apply h
    simp only [atPos, hm]
    rfl
  simp only [atPos]
  rw [List.drop_append_of_le_length hp, hf.extend _ _ hne]

end positions

section json

def splitQuotes : List UInt8 → List GoString
  | [] => [[]]
  | c :: cs =>
    if c = 34 then [] :: splitQuotes cs
    else match splitQuotes cs with
      | [] => [[c]]
      | p :: ps => (c :: p) :: ps

def fields : List GoString → Option (List (GoString × GoString))
  | [key, [58], value, [125]] => some [(key, value)]
  | key :: [58] :: value :: [44] :: rest => (fields rest).map ((key, value) :: ·)
  | _ => none

def unmarshal (b : List UInt8) : Except Unit Metadata :=
  match splitQuotes b with
  | [123] :: rest => match fields rest with
    | some kvs => .ok (fun key => (kvs.lookup key).map .str)
    | none => .error ()
  | _ => .error ()

def jsonApi : JsonApi Unit := ⟨unmarshal⟩

def field (key value : GoString) : List UInt8 := 34 :: key ++ [34, 58, 34] ++ value ++ [34]

def marshal (tsPattern tsPatternSyntax timeZoneId : GoString) (ref : List (List UInt8)) :
    List UInt8 :=
  123 :: List.intercalate [44] (ref ++ [field metadataTimestampPatternKey tsPattern,
    field metadataTimestampPatternSyntaxKey tsPatternSyntax, field metadataTzIdKey timeZoneId,
    field (ascii "VERSION") (ascii "0.0.1")]) ++ [125]

theorem length_le_intercalate {α : Type} (sep : List α) {x : List α} {l : List (List α)}
    (h : x ∈ l) : x.length ≤ (List.intercalate sep l).length := by
  induction l with
  | nil => cases h
  | cons y l ih =>
    cases l with
    | nil =>
      rw [List.mem_singleton] at h
      rw [h, List.intercalate_singleton]
    | cons z l =>
      rw [List.intercalate_cons_cons, List.length_append, List.length_append]
      rcases List.mem_cons.mp h with rfl | h
      · omega
      · have hle := ih h
        omega

theorem length_timeZoneId_le (tsPattern tsPatternSyntax timeZoneId : GoString)
    (ref : List (List UInt8)) :
    timeZoneId.length ≤ (marshal tsPattern tsPatternSyntax timeZoneId ref).length := by
  have hfield : timeZoneId.length ≤ (field metadataTzIdKey timeZoneId).length := by
    simp only [field, List.length_append]
    omega
  have hmem : field metadataTzIdKey timeZoneId ∈
      ref ++ [field metadataTimestampPatternKey tsPattern,
        field metadataTimestampPatternSyntaxKey tsPatternSyntax, field metadataTzIdKey timeZoneId,
        field (ascii "VERSION") (ascii "0.0.1")] := by simp
  have hle := length_le_intercalate [44] hmem
  rw [marshal, List.length_append, List.length_cons]
  omega

def carries (text : List UInt8) (key value : GoString) : Bool :=
  match unmarshal text with
  | .ok metadata => metadata key = some (.str value)
  | .error _ => false

theorem carries_metadata {text : List UInt8} {key value : GoString}
    (h : carries text key value = true) :
    ∃ metadata, unmarshal text = .ok metadata ∧ metadata key = some (.str value) := by
  rw [carries] at h
  split at h
  · rename_i metadata hm
    exact ⟨metadata, hm, by simpa using h⟩
  · cases h

end json

def readApi : IrReadApi where
  eof := 0
  getEncodingType := atPos decodeMagic
  deserializePreamble r := (atPos decodeMetadata r).map fun m =>
    (⟨m.1.1, r.pos + 3, m.1.2⟩, m.2)
  deserializeTag := atPos decodeTag
  deserializeLogEvent enc r tag := atPos (decodeEvent enc tag) r
  tryGetPos r := some r.pos
  wildcardMatchUnsafe tame wild _ := wild = [42] ∨ tame = wild
  preamble_bounds := by
    rintro ⟨b, pos⟩ m p h
    rcases hd : atPos decodeMetadata ⟨b, pos⟩ with err | ⟨⟨type, len⟩, q⟩
    · rw [hd] at h
      cases h
    · rw [hd] at h
      cases h
      refine ⟨?_, (atPos_bounds decodeMetadata_stable hd).2.2⟩
      rw [atPos] at hd
      rcases hm : decodeMetadata (b.drop pos) with err | ⟨⟨type', len'⟩, n⟩
      · rw [hm] at hd
        cases hd
      · have hn := decodeMetadata_size hm
        rw [hm] at hd
        cases hd
        dsimp only
        omega
  tag_bounds := by
    intro r t p h
    rw [atPos] at h
    rcases hd : r.data.drop r.pos with _ | ⟨tag, rest⟩
    · rw [hd] at h
      cases h
    · have hl := congrArg List.length hd
      rw [hd] at h
      cases h
      rw [List.length_drop, List.length_cons] at hl
      dsimp only
      omega
  tag_end := by
    intro r h
    rw [atPos, List.drop_eq_nil_of_le h]
    rfl
  event_bounds := by
    intro enc r t e p h
    exact (atPos_bounds (decodeEvent_stable enc t) h).2
  tryGetPos_eq _ := rfl

theorem readApi_positionIndependent : readApi.PositionIndependent where
  tag := atPos_shift decodeTag
  event enc pre b p t := atPos_shift (decodeEvent enc t) pre b p

theorem readApi_prefixStable : readApi.PrefixStable where
  encoding b p x h := atPos_extend decodeMagic_stable b x p h
  preamble b p x h := by
    have hne : atPos decodeMetadata ⟨b, p⟩ ≠ .error .incompleteIr := by
      intro hm
      apply h
      simp only [readApi, hm]
      rfl
    simp only [readApi, atPos_extend decodeMetadata_stable b x p hne]
  tag b p x h := atPos_extend decodeTag_stable b x p h
  event enc b p x t h := atPos_extend (decodeEvent_stable enc t) b x p h

def magic : Encoding → List UInt8
  | .fourByte => [0xFD, 0x2F, 0xB5, 0x29]
  | .eightByte => [0xFD, 0x2F, 0xB5, 0x30]

def preamble (enc : Encoding) (text : List UInt8) : List UInt8 :=
  magic enc ++ 1 :: 0x11 :: UInt8.ofNat text.length :: text

def event (enc : Encoding) (msg : GoString) (v : EpochTimeMs) : List UInt8 :=
  0x21 :: UInt8.ofNat msg.length :: (msg ++ encodeTimestamp enc v)

def writeApi : IrWriteApi where
  eightByteSerializePreamble a b c irBuf :=
    let text := marshal a b c []
    (text.length < 256 ∧ carries text metadataTzIdKey c, irBuf ++ preamble .eightByte text)
  fourByteSerializePreamble a b c ref irBuf :=
    let text := marshal a b c [field metadataReferenceTimestampKey (formatInt ref)]
    (text.length < 256 ∧ carries text metadataReferenceTimestampKey (formatInt ref),
      irBuf ++ preamble .fourByte text)
  serializeLogEvent enc v msg _ irBuf :=
    (msg.length < 256 ∧ decodeTimestamp enc (encodeTimestamp enc v) =
      .ok (v, (encodeTimestamp enc v).length), msg, irBuf ++ event enc msg v)

theorem eightByte_timeZoneId_lt {a b c : GoString}
    (h : (writeApi.eightByteSerializePreamble a b c []).1 = true) : c.length < 256 :=
  (length_timeZoneId_le a b c _).trans_lt (of_decide_eq_true h).1

theorem fourByte_timeZoneId_lt {a b c : GoString} {ref : EpochTimeMs}
    (h : (writeApi.fourByteSerializePreamble a b c ref []).1 = true) : c.length < 256 :=
  (length_timeZoneId_le a b c _).trans_lt (of_decide_eq_true h).1

section codec

theorem eventBytes {enc : Encoding} {msg : GoString} {v : EpochTimeMs} (hl : msg.length < 256)
    (hv : decodeTimestamp enc (encodeTimestamp enc v) = .ok (v, (encodeTimestamp enc v).length)) :
    EventBytes readApi enc (event enc msg v) (msg, v) := by
  have hne : (0x21 : UInt8) ≠ readApi.eof := by decide
  have hbody : decodeEvent enc 0x21 (UInt8.ofNat msg.length :: (msg ++ encodeTimestamp enc v)) =
      .ok ((msg, v), (UInt8.ofNat msg.length :: (msg ++ encodeTimestamp enc v)).length) := by
    have hlen : (UInt8.ofNat msg.length).toNat = msg.length := by
      simp [Nat.mod_eq_of_lt hl]
    simp only [decodeEvent, hlen, List.length_append, List.drop_left, hv, List.take_left,
      List.length_cons]
    rw [if_neg (by simp), if_neg (by omega)]
    congr 2
    omega
  have hstable := decodeEvent_stable enc 0x21
  refine ⟨fun rest => ⟨0x21, 1, rfl, hne, ?_⟩, fun u hu hlt => ?_⟩
  · have he := hstable.extend _ rest (by rw [hbody]; simp)
    simp only [readApi, atPos, event, List.cons_append, List.drop_succ_cons, List.drop_zero]
    rw [← List.cons_append, he, hbody]
    simp only [Except.map, List.length_cons]
    congr 2
    omega
  · cases u with
    | nil => exact .inl rfl
    | cons tag u =>
      obtain ⟨rfl, hbodyu⟩ := List.cons_prefix_cons.mp hu
      have hpart := hstable.part hbody hbodyu (fun h => hlt (by rw [h]; rfl))
      refine .inr ⟨0x21, 1, rfl, hne, ?_⟩
      simp only [readApi, atPos, List.drop_succ_cons, List.drop_zero, hpart]
      rfl

theorem preambleBytes {enc : Encoding} {text : List UInt8} {metadata : Metadata}
    (hl : text.length < 256) (hm : unmarshal text = .ok metadata) :
    PreambleBytes readApi jsonApi enc metadata (preamble enc text) := by
  have hmagic : decodeMagic (magic enc) = .ok (fourByteFlag enc, (magic enc).length) := by
    cases enc <;> rfl
  have hfour : (magic enc).length = 4 := by cases enc <;> rfl
  have hbody : decodeMetadata (1 :: 0x11 :: UInt8.ofNat text.length :: text) =
      .ok ((1, text.length), (1 :: 0x11 :: UInt8.ofNat text.length :: text).length) := by
    have hlen : (UInt8.ofNat text.length).toNat = text.length := by
      simp [Nat.mod_eq_of_lt hl]
    simp only [decodeMetadata, hlen, List.length_cons]
    rw [if_neg (by simp), if_neg (by omega), Nat.add_comm 3]
    rfl
  have hget : ∀ rest, readApi.getEncodingType ⟨magic enc ++ rest, 0⟩ =
      .ok (fourByteFlag enc, 4) := by
    intro rest
    have he := decodeMagic_stable.extend (magic enc) rest (by rw [hmagic]; simp)
    simp only [readApi, atPos, List.drop_zero, he, hmagic, hfour]
    rfl
  refine ⟨⟨4, ⟨1, 7, text.length⟩, rfl, ?_, fun rest => ⟨?_, ?_⟩⟩, fun u hu hlt => ?_⟩
  · have hb : Slice.between (preamble enc text) 7 (7 + text.length) = text := by
      cases enc <;> simp [Slice.between, preamble, magic]
    simp only [jsonApi, hb, hm]
  · rw [preamble, List.append_assoc]
    exact hget _
  · have he := decodeMetadata_stable.extend _ rest (by rw [hbody]; simp)
    have hd : (preamble enc text ++ rest).drop 4 =
        (1 :: 0x11 :: UInt8.ofNat text.length :: text) ++ rest := by
      cases enc <;> rfl
    simp only [readApi, atPos, hd, he, hbody, Except.map]
    congr 2
    simp only [preamble, List.length_append, hfour]
  · rcases List.prefix_or_prefix_of_prefix hu (List.prefix_append (magic enc) _) with
      hp | ⟨r, rfl⟩
    · by_cases hm : u = magic enc
      · subst hm
        refine .inr ⟨_, 4, by simpa using hget [], ?_⟩
        simp only [readApi, atPos]
        rw [List.drop_eq_nil_of_le (by omega)]
        rfl
      · left
        simp only [readApi, atPos, List.drop_zero, decodeMagic_stable.part hmagic hp hm]
        rfl
    · have hr := (List.prefix_append_right_inj _).mp hu
      have hpart := decodeMetadata_stable.part hbody hr (fun h => hlt (by rw [h]; rfl))
      refine .inr ⟨_, 4, hget r, ?_⟩
      have hd : (magic enc ++ r).drop 4 = r := by rw [← hfour, List.drop_left]
      simp only [readApi, atPos, hd, hpart]
      rfl

theorem codec : Codec readApi writeApi jsonApi where
  eof := ⟨rfl, fun _ => ⟨1, rfl⟩⟩
  eightBytePreamble h := by
    simp only [writeApi, List.nil_append, Prod.mk.injEq, decide_eq_true_eq] at h
    obtain ⟨⟨hl, hc⟩, rfl⟩ := h
    obtain ⟨metadata, hm, _⟩ := carries_metadata hc
    exact ⟨metadata, preambleBytes hl hm⟩
  fourBytePreamble h := by
    simp only [writeApi, List.nil_append, Prod.mk.injEq, decide_eq_true_eq] at h
    obtain ⟨⟨hl, hc⟩, rfl⟩ := h
    obtain ⟨metadata, hm, href⟩ := carries_metadata hc
    exact ⟨metadata, href, preambleBytes hl hm⟩
  event h := by
    simp only [writeApi, List.nil_append, Prod.mk.injEq, decide_eq_true_eq] at h
    obtain ⟨⟨hl, hv⟩, _, rfl⟩ := h
    exact eventBytes hl hv

theorem jsonApi_rejectsEmpty : jsonApi.RejectsEmpty := by
  intro metadata h
  cases h

end codec

section streams

theorem ok_of_toOption {ε α : Type} {x : Except ε α} {a : α} (h : x.toOption = some a) :
    x = .ok a := by
  cases x with
  | error err => cases h
  | ok a' => exact congrArg Except.ok (Option.some.inj h)

abbrev source : IoReader (List (List UInt8)) Unit := IoReader.chunked

def text (enc : Encoding) (timeZoneId : GoString) (ref : EpochTimeMs) : List UInt8 :=
  marshal [] [] timeZoneId (match enc with
    | .eightByte => []
    | .fourByte => [field metadataReferenceTimestampKey (formatInt ref)])

def valid (enc : Encoding) (i : GoString × EpochTimeMs) : Bool :=
  i.1.length < 256 ∧ decodeTimestamp enc (encodeTimestamp enc i.2) =
    .ok (i.2, (encodeTimestamp enc i.2).length)

def stream (enc : Encoding) (timeZoneId : GoString) (ref : EpochTimeMs)
    (is : List (GoString × EpochTimeMs)) : List UInt8 :=
  preamble enc (text enc timeZoneId ref) ++
    ((is.map (fun i => event enc i.1 i.2)).flatten ++ [0])

theorem eventParts {enc : Encoding} {is : List (GoString × EpochTimeMs)}
    (hi : ∀ i ∈ is, valid enc i = true) :
    List.Forall₂ (EventBytes readApi enc) (is.map (fun i => event enc i.1 i.2)) is := by
  rw [List.forall₂_map_left_iff, List.forall₂_same]
  intro i his
  have hv := hi i his
  simp only [valid, decide_eq_true_eq] at hv
  exact eventBytes hv.1 hv.2

theorem streamParts (enc : Encoding) (timeZoneId : GoString) (ref : EpochTimeMs)
    (is : List (GoString × EpochTimeMs))
    (ht : (text enc timeZoneId ref).length < 256 ∧
      (unmarshal (text enc timeZoneId ref)).isOk = true) (hi : ∀ i ∈ is, valid enc i = true) :
    ∃ metadata, PreambleBytes readApi jsonApi enc metadata
        (preamble enc (text enc timeZoneId ref)) ∧
      List.Forall₂ (EventBytes readApi enc) (is.map (fun i => event enc i.1 i.2)) is := by
  cases hm : unmarshal (text enc timeZoneId ref) with
  | error err =>
    rw [hm] at ht
    cases ht.2
  | ok metadata =>
    exact ⟨metadata, preambleBytes ht.1 hm, eventParts hi⟩

theorem irStream (enc : Encoding) (timeZoneId : GoString) (ref : EpochTimeMs)
    (is : List (GoString × EpochTimeMs))
    (ht : (text enc timeZoneId ref).length < 256 ∧
      (unmarshal (text enc timeZoneId ref)).isOk = true) (hi : ∀ i ∈ is, valid enc i = true) :
    ∃ metadata, IrStream readApi jsonApi enc metadata is (stream enc timeZoneId ref is) := by
  obtain ⟨metadata, hpre, hps⟩ := streamParts enc timeZoneId ref is ht hi
  exact ⟨metadata, codec.eof, _, _, rfl, hpre, hps⟩

def replay (chunks : List (List UInt8)) (size fuel : ℕ) (ops : List ReaderOp) :
    Option (List (OpResult Unit)) :=
  match newReaderSize readApi jsonApi source chunks size fuel with
  | some (.ok rd) => (execAll readApi source fuel rd ops).map Prod.snd
  | _ => none

theorem replay_eq {chunks : List (List UInt8)} {size fuel : ℕ} {ops : List ReaderOp}
    {results : List (OpResult Unit)} (h : replay chunks size fuel ops = some results) :
    ∃ rd rd', newReaderSize readApi jsonApi source chunks size fuel = some (.ok rd) ∧
      execAll readApi source fuel rd ops = some (rd', results) := by
  rw [replay] at h
  split at h
  · rename_i rd hnew
    obtain ⟨⟨rd', _⟩, hx, rfl⟩ := Option.map_eq_some_iff.mp h
    exact ⟨rd, rd', hnew, hx⟩
  · cases h

end streams

section wide

theorem bytes_above (n k : ℕ) : n / 2 ^ (k + 8) * 256 + n / 2 ^ k % 256 = n / 2 ^ k := by
  rw [Nat.pow_add, ← Nat.div_div_eq_div_mul]
  exact Nat.div_add_mod' (n / 2 ^ k) 256

theorem foldl_bytes (n : UInt64) : ([56, 48, 40, 32, 24, 16, 8, 0].map fun k : UInt64 =>
    (n >>> k).toUInt8).foldl (fun m b => m * 256 + b.toNat) 0 = n.toNat := by
  have htop : n.toNat / 2 ^ 56 % 256 = n.toNat / 2 ^ 56 := by
    apply Nat.mod_eq_of_lt
    have hn := n.toNat_lt
    omega
  have habove := bytes_above n.toNat
  simp only [List.map_cons, List.map_nil, List.foldl_cons, List.foldl_nil, UInt64.toNat_toUInt8,
    UInt64.toNat_shiftRight, UInt64.toNat_ofNat, Nat.shiftRight_eq_div_pow, Nat.zero_mul,
    Nat.zero_add]
  rw [htop, habove 48, habove 40, habove 32, habove 24, habove 16, habove 8, habove 0,
    Nat.pow_zero, Nat.div_one]

theorem decode_encode_eightByte (v : EpochTimeMs) :
    decodeTimestamp .eightByte (encodeTimestamp .eightByte v) =
      .ok (v, (encodeTimestamp .eightByte v).length) := by
  simp only [decodeTimestamp, encodeTimestamp]
  rw [if_neg (by simp), if_neg (by simp), List.take_of_length_le (by simp), foldl_bytes]
  simp

-- The deltas of `readApi` have eight bits; the wide format writes them as the timestamps of the
-- eight-byte encoding, so that it carries any `int64`.
def wideReadApi : IrReadApi :=
  { readApi with
    deserializeLogEvent := fun _ r tag => readApi.deserializeLogEvent .eightByte r tag
    event_bounds := fun h => readApi.event_bounds h }

def wideWriteApi : IrWriteApi :=
  { writeApi with
    serializeLogEvent := fun _ v msg logtype irBuf =>
      writeApi.serializeLogEvent .eightByte v msg logtype irBuf }

theorem wideReadApi_positionIndependent : wideReadApi.PositionIndependent where
  tag := readApi_positionIndependent.tag
  event _ := readApi_positionIndependent.event .eightByte

theorem wide_carriesEvents (enc : Encoding) : CarriesEvents wideReadApi wideWriteApi enc := by
  intro v msg logtype logtype' p h
  have hw : writeApi.serializeLogEvent .eightByte v msg logtype [] = (true, logtype', p) := h
  have hp := codec.event hw
  exact ⟨hp.whole, hp.part⟩

theorem wide_carriesReference : CarriesReference wideReadApi wideWriteApi jsonApi := by
  intro tsPattern tsPatternSyntax timeZoneId referenceTs p h
  obtain ⟨metadata, href, hp⟩ := codec.carriesReference h
  exact ⟨metadata, href, hp.whole, hp.part⟩

theorem wide_accepts {msg : GoString} (hl : msg.length < 256) (v : EpochTimeMs)
    (logtype : GoString) (irBuf : BufView) :
    wideWriteApi.serializeLogEvent .fourByte v msg logtype irBuf =
      (true, msg, irBuf ++ event .eightByte msg v) := by
  simp only [wideWriteApi, writeApi, Prod.mk.injEq, decide_eq_true_eq, and_true]
  exact ⟨hl, decode_encode_eightByte v⟩

end wide

end ClpFfiGo.SampleCodec
