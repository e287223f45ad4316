import ClpFfiGo.Cursor

namespace ClpFfiGo

variable {σ ε : Type} {clp : IrReadApi} {json : JsonApi ε} {io : IoReader σ ε}
  {src : σ → List UInt8 → Prop} {full : List UInt8}

def Cut (r : Except (GoError ε) (Deserializer × ℕ)) : Prop :=
  ∃ err, r = .error err ∧ err.isIncomplete = true

def PreambleSettled (clp : IrReadApi) (json : JsonApi ε) (full : List UInt8) : Prop :=
  ∀ u p, u <+: p → p <+: full → Cut (deserializePreamble clp json u) ∨
    deserializePreamble clp json u = deserializePreamble clp json p

section preamble

theorem newDeserializer_bounds {b : List UInt8} {n : Native.NewDeserializer}
    (h : Native.newDeserializerWithPreamble clp b = .ok n) :
    n.metadataPos + n.metadataSize ≤ n.pos ∧ n.pos ≤ b.length := by
  unfold Native.newDeserializerWithPreamble at h
  cases hg : clp.getEncodingType ⟨b, 0⟩ with
  | error err => simp [hg] at h
  | ok r =>
    simp only [hg] at h
    cases hp : clp.deserializePreamble ⟨b, r.2⟩ with
    | error err => simp [hp] at h
    | ok m =>
      simp only [hp, clp.tryGetPos_eq, Except.ok.injEq] at h
      subst h
      exact clp.preamble_bounds hp

theorem newDeserializer_prefixStable (h : clp.PrefixStable) (b x : List UInt8)
    (hb : Native.newDeserializerWithPreamble clp b ≠ .error IRErrorCode.incompleteIr.toInt) :
    Native.newDeserializerWithPreamble clp (b ++ x) =
      Native.newDeserializerWithPreamble clp b := by
  unfold Native.newDeserializerWithPreamble at hb ⊢
  have he : clp.getEncodingType ⟨b, 0⟩ ≠ .error .incompleteIr := by
    intro hm
    simp [hm] at hb
  rw [h.encoding b 0 x he]
  cases hg : clp.getEncodingType ⟨b, 0⟩ with
  | error err => rfl
  | ok r =>
    rw [hg] at hb
    dsimp only at hb ⊢
    have hp : clp.deserializePreamble ⟨b, r.2⟩ ≠ .error .incompleteIr := by
      intro hm
      simp [hm] at hb
    rw [h.preamble b r.2 x hp]
    simp only [clp.tryGetPos_eq]

theorem deserializePreamble_prefixStable (h : clp.PrefixStable) (b x : List UInt8)
    (hb : ¬ Cut (deserializePreamble clp json b)) :
    deserializePreamble clp json (b ++ x) = deserializePreamble clp json b := by
  have hne : ¬ 0 ≥ b.length := by
    intro h0
    exact hb ⟨.ir .incompleteIr, by simp [deserializePreamble, h0], rfl⟩
  have hnx : ¬ 0 ≥ (b ++ x).length := by
    rw [List.length_append]
    omega
  have hn : Native.newDeserializerWithPreamble clp b ≠
      .error IRErrorCode.incompleteIr.toInt := by
    intro hm
    exact hb ⟨.ir .incompleteIr, by
      rw [deserializePreamble]
      rw [if_neg hne, hm]
      rfl, rfl⟩
  unfold deserializePreamble
  rw [if_neg hne, if_neg hnx, newDeserializer_prefixStable h b x hn]
  cases hd : Native.newDeserializerWithPreamble clp b with
  | error err => rfl
  | ok n =>
    have hbound := newDeserializer_bounds hd
    dsimp only
    rw [Slice.slice?_eq_some (Nat.le_add_right _ _) (by rw [List.length_append]; omega),
      Slice.slice?_eq_some (Nat.le_add_right _ _) (by omega), Slice.between_append _ (by omega)]

theorem PrefixStable.preambleSettled (json : JsonApi ε) (h : clp.PrefixStable) (full : List UInt8) :
    PreambleSettled clp json full := by
  rintro u p ⟨x, rfl⟩ _
  by_cases hu : Cut (deserializePreamble clp json u)
  · exact .inl hu
  · exact .inr (deserializePreamble_prefixStable h u x hu).symm

theorem deserializePreamble_ok {b : List UInt8} {d : Deserializer} {pos : ℕ}
    (h : deserializePreamble clp json b = .ok (d, pos)) :
    pos ≤ b.length ∧ ∃ t, d = d.at t := by
  rw [deserializePreamble] at h
  split at h
  · cases h
  · cases hn : Native.newDeserializerWithPreamble clp b with
    | error err => simp [hn] at h
    | ok n =>
      have hb := newDeserializer_bounds hn
      simp only [hn] at h
      split at h
      · cases h
      · split at h
        · cases h
        · split at h <;> cases h
          refine ⟨hb.2, ?_⟩
          rename_i metadata _
          cases he : n.irEncoding with
          | eightByte => exact ⟨n.deserializer.timestamp, rfl⟩
          | fourByte => exact ⟨metadata.refTs, rfl⟩

end preamble

section loop

inductive Built (clp : IrReadApi) (json : JsonApi ε) (io : IoReader σ ε)
    (src : σ → List UInt8 → Prop) (full : List UInt8) : Except (GoError ε) (Reader σ) → Prop
  | sourceFailed {e} : io.Fails src e → Built clp json io src full (.error (.io e))
  | rejected {err} : deserializePreamble clp json full = .error err →
      err.isIncomplete = false → Built clp json io src full (.error err)
  | returned {rd d t pos} : deserializePreamble clp json full = .ok (d, pos) → d = d.at t →
      rd.Holds src d ⟨t, full.drop pos⟩ → Built clp json io src full (.ok rd)

theorem construct_keeps (hsrc : io.Conserves src) {rb rb' : ReadBuf σ}
    (ho : rb.Over src full) (h0 : rb.start = 0) (ht : newReaderTurn clp json io rb = .inl rb') :
    rb'.Over src full ∧ rb'.start = 0 := by
  have hcases := construct_cases clp json io ho.wf h0
  rw [ht] at hcases
  cases hcases with
  | refilled _ _ hr _ => exact ⟨ho.refill hsrc hr, hr.start⟩

theorem construct_built (hs : PreambleSettled clp json full) {rb : ReadBuf σ}
    {r : Except (GoError ε) (Reader σ)} (ho : rb.Over src full) (h0 : rb.start = 0)
    (ht : newReaderTurn clp json io rb = .inr r) : Built clp json io src full r := by
  have hcases := construct_cases clp json io ho.wf h0
  rw [ht] at hcases
  have hset := hs _ _ ho.unread_prefix List.prefix_rfl
  cases hcases with
  | @returned d pos ha =>
    obtain ⟨hp, t, hd⟩ := deserializePreamble_ok ha
    have hfull : deserializePreamble clp json full = .ok (d, pos) := by
      rcases hset with ⟨err, he, _⟩ | he
      · rw [ha] at he
        cases he
      · rw [← he, ha]
    have hov := ho.advance hp
    rw [h0, Nat.zero_add] at hov
    exact .returned hfull hd ⟨hov, hd⟩
  | @rejected err ha hm =>
    refine .rejected ?_ hm
    rcases hset with ⟨err', he, hm'⟩ | he
    · rw [ha] at he
      cases he
      rw [hm] at hm'
      cases hm'
    · rw [← he, ha]
  | sourceFailed _ _ hr he => exact .sourceFailed (ho.fails hr he)

theorem newReaderSize_built (hsrc : io.Conserves src) (hs : PreambleSettled clp json full)
    {r : σ} {size fuel : ℕ} {res : Except (GoError ε) (Reader σ)} (hsize : 0 < size)
    (hf : src r full) (h : newReaderSize clp json io r size fuel = some res) :
    Built clp json io src full res := by
  obtain ⟨rb, p, -, hr, heq⟩ := newReaderSize_eq clp json io r size
  rw [heq] at h
  have hinit := ReadBuf.Over.initial hsize hf
  have ho := hinit.refill hsrc hr
  rcases hio : (io.read r p).err with _ | ⟨⟩ | e
  case some.other =>
    rw [hio] at h
    cases h
    exact .sourceFailed (hinit.fails hr hio)
  all_goals
    rw [hio] at h
    exact (Loop.ends_of_run h).post (P := fun rb => rb.Over src full ∧ rb.start = 0)
      (fun _ _ hp ht => construct_keeps hsrc hp.1 hp.2 ht)
      (fun _ _ hp ht => construct_built hs hp.1 hp.2 ht) ⟨ho, hr.start⟩

theorem construct_ends {allowed : ε → Prop} (hne : ¬ Cut (deserializePreamble clp json full))
    {rb : ReadBuf σ} (ho : rb.Over (io.Delivers allowed) full) (h0 : rb.start = 0) :
    ∃ r, Loop.Ends (newReaderTurn clp json io) rb r := by
  obtain ⟨rest, hu, hd⟩ := ho.source
  generalize hs : rb.ioReader = s at hd
  induction hd generalizing rb with
  | drained _ =>
    have hcases := construct_cases clp json io ho.wf h0
    cases ht : newReaderTurn clp json io rb with
    | inr r => exact ⟨r, .stop ht⟩
    | inl rb' =>
      rw [ht] at hcases
      cases hcases with
      | refilled ha hm _ _ =>
        rw [List.append_nil] at hu
        rw [hu] at ha
        exact absurd ⟨_, ha, hm⟩ hne
  | @chunk s b hdata htol hnext ih =>
    have hcases := construct_cases clp json io ho.wf h0
    cases ht : newReaderTurn clp json io rb with
    | inr r => exact ⟨r, .stop ht⟩
    | inl rb' =>
      rw [ht] at hcases
      cases hcases with
      | @refilled err rb' p ha hm hr _ =>
        have hp := hr.room ho.room
        have hdrop := IoReader.data_append_drop (hdata p hp)
        obtain ⟨r, hends⟩ := ih p hp
          (ho.refill (IoReader.delivers_conserves allowed) hr) hr.start
          (by rw [hr.unread, hs, List.append_assoc, hdrop, hu]) (by rw [hr.ioReader, hs])
        exact ⟨r, .turn ht hends⟩

theorem newReaderSize_ends {allowed : ε → Prop}
    (hne : ¬ Cut (deserializePreamble clp json full)) {r : σ} {size : ℕ} (hsize : 0 < size)
    (hf : io.Delivers allowed r full) :
    ∃ fuel res, newReaderSize clp json io r size fuel = some res := by
  obtain ⟨rb, p, -, hr, heq⟩ := newReaderSize_eq clp json io r size
  have ho := (ReadBuf.Over.initial hsize hf).refill (IoReader.delivers_conserves allowed) hr
  cases hio : ReadBuf.ioErr (io.read r p).err with
  | some err => exact ⟨0, .error err, by rw [heq, hio, Option.elim_some]⟩
  | none =>
    obtain ⟨res, hends⟩ := construct_ends hne ho hr.start
    obtain ⟨fuel, hrun⟩ := Loop.run_of_ends hends
    exact ⟨fuel, res, by rw [heq, hio]; exact hrun⟩

end loop

end ClpFfiGo
