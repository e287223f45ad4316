import ClpFfiGo.SampleMessages

namespace ClpFfiGo

def Native.encodeAll (clp : MessageApi) (enc : Encoding) :
    Native.Encoder enc → List GoString → Option (Native.Encoder enc)
  | encoder, [] => some encoder
  | encoder, msg :: msgs =>
    match Native.encodeLogMessage clp enc msg (some encoder) with
    | some (some encoder, _) => Native.encodeAll clp enc encoder msgs
    | _ => none

-- What one call leaves behind: a failed call has moved the variables but packed nothing.
def MessageApi.packed (clp : MessageApi) (enc : Encoding) (msg : GoString) : List GoString :=
  if (clp.split enc msg).success then clp.dictVars enc msg else []

variable {clp : MessageApi} {enc : Encoding}

theorem packed_nil (hin : clp.Inside) (msg : GoString) : clp.packed enc msg = [] ↔
    ((clp.split enc msg).success = true → (clp.split enc msg).dictVarOffsets = []) := by
  rw [MessageApi.packed]
  cases hs : (clp.split enc msg).success with
  | false => simp
  | true => simpa [MessageApi.dictVars] using dictVarTexts_nil (hin enc msg hs)

theorem encode_step (hap : clp.Appends) (hin : clp.Inside) (encoder : Native.Encoder enc)
    (msg : GoString) : Native.encodeLogMessage clp enc msg (some encoder) =
      let irLogMsg : Native.LogMessage enc := ⟨(clp.split enc msg).logtype,
        encoder.logMessage.vars ++ (clp.split enc msg).vars,
        (clp.packed enc msg).flatten ++ encoder.logMessage.dictVars,
        encoder.logMessage.dictVarEndOffsets ++ endOffsets 0 (clp.packed enc msg)⟩
      some (some ⟨irLogMsg⟩, if (clp.split enc msg).success then .ok irLogMsg
        else .error IRErrorCode.corruptedIr.toInt) := by
  obtain ⟨irLogMsg⟩ := encoder
  have hcall := hap enc msg irLogMsg.logtype irLogMsg.vars []
  have hi := hin enc msg
  rw [List.nil_append] at hcall
  rw [MessageApi.packed]
  cases hs : (clp.split enc msg).success with
  | false =>
    rw [hs] at hcall
    rw [encodeLogMessage_failed hcall]
    simp [endOffsets]
  | true =>
    rw [hs] at hcall
    rw [encodeLogMessage_ok hcall (hi hs)]
    rfl

theorem encodeAll_eq (hap : clp.Appends) (hin : clp.Inside) (encoder : Native.Encoder enc)
    (msgs : List GoString) : ∃ logtype, Native.encodeAll clp enc encoder msgs =
      some ⟨⟨logtype,
        encoder.logMessage.vars ++ (msgs.map fun m => (clp.split enc m).vars).flatten,
        (msgs.reverse.map fun m => (clp.packed enc m).flatten).flatten ++
          encoder.logMessage.dictVars,
        encoder.logMessage.dictVarEndOffsets ++
          (msgs.map fun m => endOffsets 0 (clp.packed enc m)).flatten⟩⟩ := by
  induction msgs generalizing encoder with
  | nil => exact ⟨encoder.logMessage.logtype, by simp [Native.encodeAll]⟩
  | cons msg msgs ih =>
    rw [Native.encodeAll, encode_step hap hin]
    obtain ⟨logtype, hrest⟩ := ih _
    refine ⟨logtype, hrest.trans ?_⟩
    simp

theorem leftovers_nil (hin : clp.Inside) (msgs : List GoString) :
    ((msgs.map fun m => (clp.split enc m).vars).flatten = [] ∧
      (msgs.reverse.map fun m => (clp.packed enc m).flatten).flatten = [] ∧
      (msgs.map fun m => endOffsets 0 (clp.packed enc m)).flatten = []) ↔
    ∀ m ∈ msgs, (clp.split enc m).vars = [] ∧
      ((clp.split enc m).success = true → (clp.split enc m).dictVarOffsets = []) := by
  have hends : ∀ m, endOffsets 0 (clp.packed enc m) = [] ↔ clp.packed enc m = [] := by
    intro m
    rw [← List.length_eq_zero_iff, length_endOffsets, List.length_eq_zero_iff]
  simp only [List.flatten_eq_nil_iff, List.forall_mem_map, List.mem_reverse, hends,
    ← packed_nil hin]
  constructor
  · rintro ⟨hvars, _, hpacked⟩ m hm
    exact ⟨hvars m hm, hpacked m hm⟩
  · intro h
    refine ⟨fun m hm => (h m hm).1, fun m hm => ?_, fun m hm => (h m hm).2⟩
    simp [(h m hm).2]

theorem components_fresh_iff (hap : clp.Appends) (hin : clp.Inside) {earlier : List GoString}
    {msg : GoString} {encoder : Native.Encoder enc} {next : Option (Native.Encoder enc)}
    {components : Native.LogMessage enc}
    (hrun : Native.encodeAll clp enc (Native.newEncoder enc) earlier = some encoder)
    (h : Native.encodeLogMessage clp enc msg (some encoder) = some (next, .ok components)) :
    (∃ fresh, Native.encodeLogMessage clp enc msg (some (Native.newEncoder enc)) =
      some (fresh, .ok components)) ↔
    ∀ m ∈ earlier, (clp.split enc m).vars = [] ∧
      ((clp.split enc m).success = true → (clp.split enc m).dictVarOffsets = []) := by
  obtain ⟨logtype, hstate⟩ := encodeAll_eq hap hin (Native.newEncoder enc) earlier
  obtain rfl := Option.some.inj (hrun.symm.trans hstate)
  rw [← leftovers_nil hin]
  rw [encode_step hap hin] at h ⊢
  cases hs : (clp.split enc msg).success with
  | false => simp [hs] at h
  | true =>
    simp only [hs, if_true, Option.some.injEq, Prod.mk.injEq, Except.ok.injEq] at h ⊢
    obtain ⟨_, rfl⟩ := h
    simp only [Native.newEncoder, List.nil_append, List.append_nil, exists_eq_left',
      Native.LogMessage.mk.injEq, true_and]
    rw [List.self_eq_append_left, List.self_eq_append_right, List.self_eq_append_left]

open SampleMessages in
theorem plain_history_forgotten : ∃ encoder next components,
    Native.encodeAll messageApi .fourByte (Native.newEncoder .fourByte) [ascii "log in"] =
      some encoder ∧
    Native.encodeLogMessage messageApi .fourByte (ascii "id a1") (some encoder) =
      some (next, .ok components) ∧
    ∃ fresh, Native.encodeLogMessage messageApi .fourByte (ascii "id a1")
      (some (Native.newEncoder .fourByte)) = some (fresh, .ok components) := by
  have hrun : Native.encodeAll messageApi .fourByte (Native.newEncoder .fourByte)
      [ascii "log in"] = some ⟨⟨ascii "log in", [], [], []⟩⟩ := by decide +kernel
  have hcall : Native.encodeLogMessage messageApi .fourByte (ascii "id a1")
      (some ⟨⟨ascii "log in", [], [], []⟩⟩) =
        some (some ⟨⟨ascii "id " ++ [0x12], [], ascii "a1", [2]⟩⟩,
          .ok ⟨ascii "id " ++ [0x12], [], ascii "a1", [2]⟩) := by decide +kernel
  exact ⟨_, _, _, hrun, hcall, (components_fresh_iff messageApi_appends messageApi_inside
    hrun hcall).mpr (by decide +kernel)⟩

open SampleMessages in
theorem dictVars_leak : messageApi.Appends ∧ messageApi.Inside ∧
    (Native.encodeAll messageApi .fourByte (Native.newEncoder .fourByte) [ascii "id a1"]).bind
      (fun encoder => Native.encodeLogMessage messageApi .fourByte (ascii "id b2") (some encoder)
        |>.map Prod.snd) =
      some (.ok ⟨ascii "id " ++ [0x12], [], ascii "b2a1", [2, 2]⟩) ∧
    (Native.encodeLogMessage messageApi .fourByte (ascii "id b2")
      (some (Native.newEncoder .fourByte))).map Prod.snd =
      some (.ok ⟨ascii "id " ++ [0x12], [], ascii "b2", [2]⟩) :=
  ⟨messageApi_appends, messageApi_inside, by decide +kernel, by decide +kernel⟩

end ClpFfiGo
