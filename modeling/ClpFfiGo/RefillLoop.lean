import ClpFfiGo.Refill

namespace ClpFfiGo

variable {σ ε β : Type} {io : IoReader σ ε} {src : σ → List UInt8 → Prop} {full : List UInt8}

structure ReadBuf.Over (src : σ → List UInt8 → Prop) (full : List UInt8) (rb : ReadBuf σ) :
    Prop where
  wf : rb.WF
  room : 0 < rb.buf.length
  source : ∃ rest, rb.unread ++ rest = full ∧ src rb.ioReader rest

namespace ReadBuf.Over

theorem unread_prefix {rb : ReadBuf σ} (h : rb.Over src full) : rb.unread <+: full := by
  obtain ⟨rest, rfl, _⟩ := h.source
  exact List.prefix_append _ _

theorem refill (hsrc : io.Conserves src) {rb rb' : ReadBuf σ} {p : List UInt8}
    (h : rb.Over src full) (hr : ReadBuf.Refilled io rb rb' p) : rb'.Over src full := by
  obtain ⟨rest, hu, hs⟩ := h.source
  obtain ⟨r, hd, hn⟩ := hsrc _ _ p hs (hr.room h.room)
  refine ⟨hr.wf, lt_of_lt_of_le h.room hr.length, r, ?_, ?_⟩
  · rw [hr.unread, List.append_assoc, hd, hu]
  · rw [hr.ioReader]
    exact hn

theorem fails {rb rb' : ReadBuf σ} {p : List UInt8} {e : ε} (h : rb.Over src full)
    (hr : ReadBuf.Refilled io rb rb' p) (he : (io.read rb.ioReader p).err = some (.other e)) :
    io.Fails src e := by
  obtain ⟨rest, _, hs⟩ := h.source
  exact ⟨_, rest, p, hs, hr.room h.room, he⟩

theorem advance {rb : ReadBuf σ} {pos : ℕ} (h : rb.Over src full)
    (hp : pos ≤ rb.unread.length) :
    ReadBuf.Over src (full.drop pos) { rb with start := rb.start + pos } := by
  obtain ⟨rest, hu, hs⟩ := h.source
  refine ⟨h.wf.consume hp, h.room, rest, ?_, hs⟩
  rw [ReadBuf.unread_consume, ← hu, List.drop_append_of_le_length hp]

theorem initial {r : σ} {size : ℕ} (hsize : 0 < size) (hs : src r full) :
    (ReadBuf.initial r size).Over src full :=
  ⟨⟨le_refl _, Nat.zero_le _⟩, by simpa [ReadBuf.initial] using hsize, full, rfl, hs⟩

end ReadBuf.Over

namespace Reader

structure Settles (call : Call ε β) (full : List UInt8) (inv : Deserializer → Prop)
    (guard : Deserializer → List UInt8 → Prop)
    (post : Deserializer → Except (GoError ε) (β × ℕ) → Prop) : Prop where
  retry : ∀ d u d' err, inv d → u <+: full → guard d u → call d u = (d', .error err) →
    err.isIncomplete = true → inv d'
  reject : ∀ d u d' err, inv d → u <+: full → guard d u → call d u = (d', .error err) →
    err.isIncomplete = false → post d' (.error err)
  accept : ∀ d u d' event pos, inv d → u <+: full → guard d u →
    call d u = (d', .ok (event, pos)) → pos ≤ u.length ∧ post d' (.ok (event, pos))

inductive Outcome (io : IoReader σ ε) (src : σ → List UInt8 → Prop) (full : List UInt8)
    (inv : Deserializer → Prop) (post : Deserializer → Except (GoError ε) (β × ℕ) → Prop) :
    Reader σ × Except (GoError ε) β → Prop
  | sourceFailed {rd e} : io.Fails src e → rd.toReadBuf.Over src full → inv rd.deserializer →
      Outcome io src full inv post (rd, .error (.io e))
  | rejected {rd err} : rd.toReadBuf.Over src full → err.isIncomplete = false →
      post rd.deserializer (.error err) → Outcome io src full inv post (rd, .error err)
  | returned {rd event pos} : rd.toReadBuf.Over src (full.drop pos) →
      post rd.deserializer (.ok (event, pos)) → Outcome io src full inv post (rd, .ok event)

variable {call : Call ε β} {inv : Deserializer → Prop} {guard : Deserializer → List UInt8 → Prop}
  {post : Deserializer → Except (GoError ε) (β × ℕ) → Prop}

theorem turn_keeps (hsrc : io.Conserves src) (hc : Settles call full inv guard post)
    {rd rd' : Reader σ} (ho : rd.toReadBuf.Over src full) (hi : inv rd.deserializer)
    (hg : guard rd.deserializer rd.unread) (ht : turn io call rd = .inl rd') :
    rd'.toReadBuf.Over src full ∧ inv rd'.deserializer := by
  have hcases := turn_cases io call ho.wf
  rw [ht] at hcases
  cases hcases with
  | refilled ha hm hr _ =>
    exact ⟨ho.refill hsrc hr, hc.retry _ _ _ _ hi ho.unread_prefix hg ha hm⟩

theorem turn_outcome (hsrc : io.Conserves src) (hc : Settles call full inv guard post)
    {rd : Reader σ} {r : Reader σ × Except (GoError ε) β} (ho : rd.toReadBuf.Over src full)
    (hi : inv rd.deserializer) (hg : guard rd.deserializer rd.unread)
    (ht : turn io call rd = .inr r) : Outcome io src full inv post r := by
  have hcases := turn_cases io call ho.wf
  rw [ht] at hcases
  cases hcases with
  | returned ha =>
    obtain ⟨hp, hpost⟩ := hc.accept _ _ _ _ _ hi ho.unread_prefix hg ha
    exact .returned (ho.advance hp) hpost
  | rejected ha hm => exact .rejected ho hm (hc.reject _ _ _ _ hi ho.unread_prefix hg ha hm)
  | sourceFailed ha hm hr he =>
    exact .sourceFailed (ho.fails hr he) (ho.refill hsrc hr)
      (hc.retry _ _ _ _ hi ho.unread_prefix hg ha hm)

def Guarded (io : IoReader σ ε) (call : Call ε β) (guard : Deserializer → List UInt8 → Prop)
    (rd : Reader σ) : Prop :=
  ∀ rd', Loop.Turns (turn io call) rd rd' → guard rd'.deserializer rd'.unread

theorem loop_outcome (hsrc : io.Conserves src) (hc : Settles call full inv guard post)
    {rd : Reader σ} {r : Reader σ × Except (GoError ε) β} (ho : rd.toReadBuf.Over src full)
    (hi : inv rd.deserializer) (hg : Guarded io call guard rd)
    (he : Loop.Ends (turn io call) rd r) : Outcome io src full inv post r := by
  induction he with
  | stop ht => exact turn_outcome hsrc hc ho hi (hg _ .refl) ht
  | turn ht _ ih =>
    obtain ⟨ho', hi'⟩ := turn_keeps hsrc hc ho hi (hg _ .refl) ht
    exact ih ho' hi' (fun _ h => hg _ (.head ht h))

theorem loop_ends {allowed : ε → Prop} {I : Deserializer → Prop}
    (hretry : ∀ d u d' err, I d → u <+: full → call d u = (d', .error err) →
      err.isIncomplete = true → I d')
    (hfinal : ∀ d d' err, I d → call d full = (d', .error err) → err.isIncomplete = false)
    {rd : Reader σ} (hi : I rd.deserializer)
    (ho : rd.toReadBuf.Over (io.Delivers allowed) full) :
    ∃ r, Loop.Ends (turn io call) rd r := by
  obtain ⟨rest, hu, hd⟩ := ho.source
  generalize hs : rd.ioReader = s at hd
  induction hd generalizing rd with
  | drained _ =>
    have hcases := turn_cases io call ho.wf
    cases ht : turn io call rd with
    | inr r => exact ⟨r, .stop ht⟩
    | inl rd' =>
      rw [ht] at hcases
      cases hcases with
      | refilled ha hm _ _ =>
        rw [List.append_nil] at hu
        rw [hu] at ha
        have := hfinal _ _ _ hi ha
        rw [hm] at this
        cases this
  | @chunk s b hdata htol hnext ih =>
    have hcases := turn_cases io call ho.wf
    cases ht : turn io call rd with
    | inr r => exact ⟨r, .stop ht⟩
    | inl rd' =>
      have hd : io.Delivers allowed s b := .chunk hdata htol hnext
      rw [ht] at hcases
      cases hcases with
      | @refilled d err rb p ha hm hr _ =>
        have hp := hr.room ho.room
        have hdrop := IoReader.data_append_drop (hdata p hp)
        have ho' := ho.refill (IoReader.delivers_conserves allowed) hr
        obtain ⟨r, hends⟩ := @ih p hp ⟨rb, d⟩
          (hretry _ _ _ _ hi ho.unread_prefix ha hm) ho'
          (by rw [hr.unread, hs, List.append_assoc, hdrop, hu]) (by rw [hr.ioReader, hs])
        exact ⟨r, .turn ht hends⟩

end Reader

end ClpFfiGo
