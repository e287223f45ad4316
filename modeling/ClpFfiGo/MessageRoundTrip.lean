import ClpFfiGo.Decoder
import ClpFfiGo.SampleMessages

namespace ClpFfiGo

theorem endOffsets_of_empty {texts : List GoString} (h : texts.flatten = []) :
    ∀ x ∈ endOffsets 0 texts, x = 0 := by
  induction texts with
  | nil => simp [endOffsets]
  | cons text texts ih =>
    obtain ⟨rfl, hrest⟩ := List.append_eq_nil_iff.mp h
    simpa [endOffsets] using ih hrest

theorem empty_of_endOffsets {msg : GoString} {lo : Int} {offsets : List Int32}
    (h : inside msg lo offsets = true) (hlo : 0 ≤ lo)
    (hz : ∀ x ∈ endOffsets 0 (dictVarTexts msg offsets), x = 0) :
    (dictVarTexts msg offsets).flatten = [] := by
  fun_induction inside msg lo offsets with
  | case1 => rfl
  | case2 => cases h
  | case3 lo beginPos endPos rest ih =>
    rw [Bool.and_eq_true, decide_eq_true_eq] at h
    obtain ⟨⟨hb, he, hm⟩, hrest⟩ := h
    simp only [dictVarTexts] at hz ⊢
    generalize htext : Slice.between msg beginPos.toInt.toNat endPos.toInt.toNat = text at hz
    have hsize : text.length = endPos.toInt.toNat - beginPos.toInt.toNat := by
      rw [← htext, Slice.length_between (by omega)]
    have hmax := Int32.toInt_lt endPos
    have hfirst : Int32.ofNat text.length = 0 := by simpa using hz _ List.mem_cons_self
    have hnil : text = [] := by
      have hval := congrArg Int32.toInt hfirst
      rw [Int32.toInt_ofNat_of_lt (by omega)] at hval
      exact List.length_eq_zero_iff.mp (by simpa using hval)
    subst hnil
    rw [List.flatten_cons, List.nil_append]
    refine ih hrest (by omega) fun x hx => hz x ?_
    simpa [endOffsets] using Or.inr hx

theorem newLogMessageView_eq {enc : Encoding} (logtype : GoString) (vars : List enc.Var)
    (dictVars : GoString) (ends : List Int32) : newLogMessageView logtype vars dictVars ends =
      ⟨⟨if dictVars = [] then logtype else dictVars, vars, [], ends⟩⟩ := by
  cases vars <;> cases dictVars <;> cases ends <;> rfl

variable {clp : MessageApi} {enc : Encoding} {msg : GoString} {encoder : Encoder enc}
  {view : LogMessageView enc}

theorem encoded_view (hin : clp.Inside)
    (h : (newEncoder enc).encodeLogMessage clp msg = some (encoder, .ok view)) :
    (clp.split enc msg).success = true ∧ view.toLogMessage =
      ⟨if (clp.dictVars enc msg).flatten = [] then (clp.split enc msg).logtype
        else (clp.dictVars enc msg).flatten, (clp.split enc msg).vars, [],
        endOffsets 0 (clp.dictVars enc msg)⟩ := by
  have hnew : (newEncoder enc).cptr = some (Native.newEncoder enc) := by cases enc <;> rfl
  rw [Encoder.encodeLogMessage, hnew] at h
  rcases hn : Native.encodeLogMessage clp enc msg (some (Native.newEncoder enc)) with
    _ | ⟨cptr, err | components⟩
  · simp [hn] at h
  · simp [hn] at h
  · obtain ⟨hs, rfl⟩ := encodeLogMessage_fresh hin hn
    rw [hn] at h
    simp only [Option.some.injEq, Prod.mk.injEq, Except.ok.injEq] at h
    obtain ⟨_, rfl⟩ := h
    exact ⟨hs, by rw [newLogMessageView_eq]⟩

theorem decoded_view {decoder : Decoder enc} (hopen : decoder.cptr ≠ none)
    (irMessage : LogMessage enc) :
    (∃ decoder', decoder.decodeLogMessage clp irMessage = (decoder', .ok msg)) ↔
      clp.decodeMessage enc irMessage.logtype irMessage.vars irMessage.dictVars
        irMessage.dictVarEndOffsets = some msg := by
  obtain ⟨_ | native⟩ := decoder
  · exact absurd rfl hopen
  · unfold Decoder.decodeLogMessage Native.decodeLogMessage
    cases clp.decodeMessage enc irMessage.logtype irMessage.vars irMessage.dictVars
      irMessage.dictVarEndOffsets with
    | none => simp
    | some logMsg => simp

def MessageApi.withDecode (clp : MessageApi)
    (decode : (enc : Encoding) → GoString → List enc.Var → GoString → List Int32 →
      Option GoString) : MessageApi := { clp with decodeMessage := decode }

theorem roundTrip_of_decode (hin : clp.Inside)
    (h : (newEncoder enc).encodeLogMessage clp msg = some (encoder, .ok view))
    {decoder : Decoder enc} (hopen : decoder.cptr ≠ none)
    (decode : (enc : Encoding) → GoString → List enc.Var → GoString → List Int32 →
      Option GoString) :
    (∃ decoder', decoder.decodeLogMessage (clp.withDecode decode) view.toLogMessage =
      (decoder', .ok msg)) ↔
      decode enc (if (clp.dictVars enc msg).flatten = [] then (clp.split enc msg).logtype
        else (clp.dictVars enc msg).flatten) (clp.split enc msg).vars []
        (endOffsets 0 (clp.dictVars enc msg)) = some msg := by
  rw [decoded_view hopen, (encoded_view hin h).2]
  rfl

-- The core is any that splits messages like `clp` and whose decoder undoes the split.
theorem encode_decode_iff (hin : clp.Inside) (hundo : clp.Undoes)
    (h : (newEncoder enc).encodeLogMessage clp msg = some (encoder, .ok view))
    {decoder : Decoder enc} (hopen : decoder.cptr ≠ none) :
    (∀ decode, (clp.withDecode decode).Undoes → ∃ decoder',
      decoder.decodeLogMessage (clp.withDecode decode) view.toLogMessage = (decoder', .ok msg)) ↔
      ∀ text ∈ clp.dictVars enc msg, text = [] := by
  have hs := (encoded_view hin h).1
  rw [← List.flatten_eq_nil_iff]
  simp only [roundTrip_of_decode hin h hopen]
  constructor
  · intro hall
    by_contra hne
    let decode (e : Encoding) (logtype : GoString) (vars : List e.Var) (dictVars : GoString)
        (ends : List Int32) : Option GoString :=
      if dictVars = [] ∧ ends = endOffsets 0 (clp.dictVars enc msg) then none
      else clp.decodeMessage e logtype vars dictVars ends
    have hdecode : (clp.withDecode decode).Undoes := by
      intro e m hm
      have hsplit : ¬ ((clp.dictVars e m).flatten = [] ∧
          endOffsets 0 (clp.dictVars e m) = endOffsets 0 (clp.dictVars enc msg)) := by
        rintro ⟨hempty, hends⟩
        have hzero := endOffsets_of_empty hempty
        rw [hends] at hzero
        exact hne (empty_of_endOffsets (hin enc msg hs) (Int.le_refl 0) hzero)
      exact (if_neg hsplit).trans (hundo e m hm)
    have hsome := hall decode hdecode
    rw [if_neg hne] at hsome
    simp [decode] at hsome
  · intro hempty decode hdecode
    have hmsg := hdecode enc msg hs
    change decode enc (clp.split enc msg).logtype (clp.split enc msg).vars
      (clp.dictVars enc msg).flatten (endOffsets 0 (clp.dictVars enc msg)) = some msg at hmsg
    rw [hempty] at hmsg
    rw [if_pos hempty, hmsg]

open SampleMessages in
theorem encoded_vars_roundTrip : ∃ encoder view,
    (newEncoder .fourByte).encodeLogMessage messageApi (ascii "took 42 of 100 ms") =
      some (encoder, .ok view) ∧
    view.toLogMessage =
      ⟨ascii "took " ++ [0x11] ++ ascii " of " ++ [0x11] ++ ascii " ms",
        [(42 : Int32), (100 : Int32)], [], []⟩ ∧
    ∀ decode, (messageApi.withDecode decode).Undoes → ∃ decoder,
      fourByteDecoder.decodeLogMessage (messageApi.withDecode decode) view.toLogMessage =
        (decoder, .ok (ascii "took 42 of 100 ms")) := by
  have hok : ((newEncoder .fourByte).encodeLogMessage messageApi
      (ascii "took 42 of 100 ms")).any (fun r => r.2.isOk) = true := by decide +kernel
  have hnone : ∀ text ∈ messageApi.dictVars .fourByte (ascii "took 42 of 100 ms"), text = [] := by
    decide +kernel
  rcases henc : (newEncoder .fourByte).encodeLogMessage messageApi (ascii "took 42 of 100 ms") with
    _ | ⟨encoder, err | view⟩
  · simp [henc] at hok
  · simp [henc, Except.isOk, Except.toBool] at hok
  · refine ⟨encoder, view, rfl, ?_, (encode_decode_iff messageApi_inside messageApi_undoes henc
      (by simp [fourByteDecoder])).mpr hnone⟩
    rw [(encoded_view messageApi_inside henc).2]
    decide +kernel

open SampleMessages in
theorem dictVars_lost : messageApi.Inside ∧ messageApi.Undoes ∧ ∃ encoder view decoder,
    (newEncoder .fourByte).encodeLogMessage messageApi (ascii "id a1") =
      some (encoder, .ok view) ∧
    fourByteDecoder.decodeLogMessage messageApi view.toLogMessage =
      (decoder, .ok (ascii "a1")) := by
  refine ⟨messageApi_inside, messageApi_undoes, ?_⟩
  have hok : ((newEncoder .fourByte).encodeLogMessage messageApi (ascii "id a1")).any
      (fun r => r.2.isOk) = true := by decide +kernel
  rcases henc : (newEncoder .fourByte).encodeLogMessage messageApi (ascii "id a1") with
    _ | ⟨encoder, err | view⟩
  · simp [henc] at hok
  · simp [henc, Except.isOk, Except.toBool] at hok
  · have hdecode : ∃ decoder, fourByteDecoder.decodeLogMessage messageApi view.toLogMessage =
        (decoder, .ok (ascii "a1")) := by
      rw [decoded_view (by simp [fourByteDecoder]), (encoded_view messageApi_inside henc).2]
      decide +kernel
    obtain ⟨decoder, hdecode⟩ := hdecode
    exact ⟨encoder, view, decoder, rfl, hdecode⟩

end ClpFfiGo
