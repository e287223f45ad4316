import ClpFfiGo.Encoder

namespace ClpFfiGo

def inside (msg : GoString) : Int → List Int32 → Bool
  | _, [] => true
  | _, [_] => false
  | lo, beginPos :: endPos :: rest =>
    (lo ≤ beginPos.toInt ∧ beginPos.toInt ≤ endPos.toInt ∧ endPos.toInt ≤ msg.length) &&
      inside msg endPos.toInt rest

def dictVarTexts (msg : GoString) : List Int32 → List GoString
  | beginPos :: endPos :: rest =>
    Slice.between msg beginPos.toInt.toNat endPos.toInt.toNat :: dictVarTexts msg rest
  | _ => []

def endOffsets : ℕ → List GoString → List Int32
  | _, [] => []
  | prev, text :: texts =>
    Int32.ofNat (prev + text.length) :: endOffsets (prev + text.length) texts

@[simp] theorem length_endOffsets (prev : ℕ) (texts : List GoString) :
    (endOffsets prev texts).length = texts.length := by
  induction texts generalizing prev with
  | nil => rfl
  | cons t ts ih => simp [endOffsets, ih]

-- Each piece goes in behind the pieces packed before it, in front of what the buffer held.
theorem packDictVars_eq {msg : GoString} {lo : Int} {offsets : List Int32}
    (h : inside msg lo offsets = true) (prev : ℕ) (dictVars : List UInt8) (hlo : (prev : Int) ≤ lo)
    (hprev : prev ≤ dictVars.length) (ends : List Int32) :
    Native.packDictVars msg offsets prev dictVars ends =
      some (dictVars.take prev ++ (dictVarTexts msg offsets).flatten ++ dictVars.drop prev,
        ends ++ endOffsets prev (dictVarTexts msg offsets)) := by
  fun_induction inside msg lo offsets generalizing prev dictVars ends with
  | case1 => simp [Native.packDictVars, dictVarTexts, endOffsets]
  | case2 => cases h
  | case3 lo beginPos endPos rest ih =>
    rw [Bool.and_eq_true, decide_eq_true_eq] at h
    obtain ⟨⟨hb, he, hm⟩, hrest⟩ := h
    generalize htext : Slice.between msg beginPos.toInt.toNat endPos.toInt.toNat = text
    have hsize : text.length = endPos.toInt.toNat - beginPos.toInt.toNat := by
      rw [← htext, Slice.length_between (by omega)]
    have hmax := Int32.toInt_lt endPos
    have hnext : (prev : Int) + (endPos.toInt - beginPos.toInt) =
        ((prev + text.length : ℕ) : Int) := by omega
    have htake : (dictVars.take prev).length = prev := List.length_take_of_le hprev
    have hih := ih hrest (prev + text.length)
      (dictVars.take prev ++ text ++ dictVars.drop prev) (by omega)
      (by simp only [List.length_append, htake]; omega)
      (ends ++ [Int32.ofInt ((prev + text.length : ℕ) : Int)])
    simp only [Native.packDictVars, dictVarTexts, hnext, htext, endOffsets, Int.toNat_natCast]
    rw [if_pos ⟨by omega, he, hm, by omega, by omega, by omega⟩, hih]
    have hcut : (dictVars.take prev ++ text).length = prev + text.length := by
      rw [List.length_append, htake]
    rw [← hcut, List.take_left, List.drop_left, hcut, Int32.ofInt_eq_ofNat, List.flatten_cons,
      List.append_assoc ends, List.append_assoc (dictVars.take prev) text]
    rfl

theorem dictVarTexts_nil {msg : GoString} {lo : Int} {offsets : List Int32}
    (h : inside msg lo offsets = true) : dictVarTexts msg offsets = [] ↔ offsets = [] := by
  fun_cases inside msg lo offsets with
  | case1 => simp [dictVarTexts]
  | case2 => cases h
  | case3 lo beginPos endPos rest => simp [dictVarTexts]

structure Split (enc : Encoding) where
  success : Bool
  logtype : GoString
  vars : List enc.Var
  dictVarOffsets : List Int32

namespace MessageApi

variable (clp : MessageApi)

def split (enc : Encoding) (msg : GoString) : Split enc :=
  let (success, logtype, vars, dictVarOffsets) := clp.encodeMessage enc msg [] [] []
  ⟨success, logtype, vars, dictVarOffsets⟩

def dictVars (enc : Encoding) (msg : GoString) : List GoString :=
  dictVarTexts msg (clp.split enc msg).dictVarOffsets

def Inside : Prop := ∀ enc msg, (clp.split enc msg).success = true →
  inside msg 0 (clp.split enc msg).dictVarOffsets = true

def Appends : Prop := ∀ enc msg logtype vars dictVarOffsets,
  clp.encodeMessage enc msg logtype vars dictVarOffsets =
    ((clp.split enc msg).success, (clp.split enc msg).logtype, vars ++ (clp.split enc msg).vars,
      dictVarOffsets ++ (clp.split enc msg).dictVarOffsets)

def Undoes : Prop := ∀ enc msg, (clp.split enc msg).success = true →
  clp.decodeMessage enc (clp.split enc msg).logtype (clp.split enc msg).vars
    (clp.dictVars enc msg).flatten (endOffsets 0 (clp.dictVars enc msg)) = some msg

end MessageApi

section encoding

variable {clp : MessageApi} {enc : Encoding} {msg : GoString}

theorem encodeLogMessage_ok {irLogMsg : Native.LogMessage enc} {logtype : GoString}
    {vars : List enc.Var} {offsets : List Int32}
    (h : clp.encodeMessage enc msg irLogMsg.logtype irLogMsg.vars [] =
      (true, logtype, vars, offsets)) (hin : inside msg 0 offsets = true) :
    Native.encodeLogMessage clp enc msg (some ⟨irLogMsg⟩) =
      let components := ⟨logtype, vars, (dictVarTexts msg offsets).flatten ++ irLogMsg.dictVars,
        irLogMsg.dictVarEndOffsets ++ endOffsets 0 (dictVarTexts msg offsets)⟩
      some (some ⟨components⟩, .ok components) := by
  have hpack := packDictVars_eq hin 0 irLogMsg.dictVars (by simp) (Nat.zero_le _)
    irLogMsg.dictVarEndOffsets
  rw [Int.natCast_zero, List.take_zero, List.drop_zero, List.nil_append] at hpack
  simp only [Native.encodeLogMessage, h, hpack]
  rfl

theorem encodeLogMessage_failed {irLogMsg : Native.LogMessage enc} {logtype : GoString}
    {vars : List enc.Var} {offsets : List Int32}
    (h : clp.encodeMessage enc msg irLogMsg.logtype irLogMsg.vars [] =
      (false, logtype, vars, offsets)) :
    Native.encodeLogMessage clp enc msg (some ⟨irLogMsg⟩) =
      some (some ⟨{ irLogMsg with logtype, vars }⟩, .error IRErrorCode.corruptedIr.toInt) := by
  simp only [Native.encodeLogMessage, h]
  rfl

theorem encodeLogMessage_fresh (hin : clp.Inside) {encoder : Option (Native.Encoder enc)}
    {components : Native.LogMessage enc}
    (h : Native.encodeLogMessage clp enc msg (some (Native.newEncoder enc)) =
      some (encoder, .ok components)) : (clp.split enc msg).success = true ∧
      components = ⟨(clp.split enc msg).logtype, (clp.split enc msg).vars,
        (clp.dictVars enc msg).flatten, endOffsets 0 (clp.dictVars enc msg)⟩ := by
  have hi := hin enc msg
  rw [MessageApi.dictVars]
  unfold MessageApi.split at hi ⊢
  rcases he : clp.encodeMessage enc msg [] [] [] with ⟨success, logtype, vars, offsets⟩
  rw [he] at hi
  cases success with
  | false =>
    rw [Native.newEncoder, encodeLogMessage_failed he] at h
    cases h
  | true =>
    rw [Native.newEncoder, encodeLogMessage_ok he (hi rfl)] at h
    cases h
    simp

end encoding

end ClpFfiGo
