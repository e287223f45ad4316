import ClpFfiGo.ReaderBuffer
import ClpFfiGo.SearchEnumeration
import ClpFfiGo.Foundation.FaultySource

namespace ClpFfiGo

open Seek

variable {σ ε β : Type} {clp : IrReadApi} {json : JsonApi ε} {io : IoReader σ ε} {k : ℕ}

def sourceFailed : OpResult ε → Bool
  | .error (.io _) => true
  | _ => false

structure Reader.Faces (io : IoReader σ ε) (k : ℕ) (rd : Reader σ) : Prop where
  wf : rd.WF
  room : 0 < rd.buf.length
  faults : io.FaultsWithin k rd.ioReader

theorem ReaderCall.not_io {call : Reader.Call ε β} (h : ReaderCall clp call)
    {d d' : Deserializer} {b : List UInt8} {err : GoError ε} (hc : call d b = (d', .error err))
    (e : ε) : err ≠ .io e := by
  cases h with
  | event =>
    rw [deserializeLogEvent] at hc
    split at hc
    · cases hc
      simp
    · dsimp only at hc
      split at hc <;> cases hc
      simp
  | search queries iv =>
    rw [deserializeWildcardMatch] at hc
    split at hc
    · cases hc
      simp
    · cases hn : d.cptr with
      | none =>
        simp only [Native.deserializeWildcardMatch, hn] at hc
        cases hc
        simp
      | some n =>
        simp only [Native.deserializeWildcardMatch, hn, splitQueries_view] at hc
        split at hc <;> cases hc <;> simp_all

def Spends (io : IoReader σ ε) (k : ℕ) (rd' : Reader σ) (failed : Prop) : Prop :=
  rd'.Faces io k ∧ (failed → ∃ j, k = j + 1 ∧ rd'.Faces io j)

variable (clp) in
theorem call_spends {call : Reader.Call ε β} (hcall : ReaderCall clp call) {rd rd' : Reader σ}
    {res : Except (GoError ε) β} (h : rd.Faces io k)
    (he : Loop.Ends (Reader.turn io call) rd (rd', res)) :
    Spends io k rd' (∃ e, res = .error (.io e)) := by
  refine he.post (P := Reader.Faces io k)
    (Q := fun r => Spends io k r.1 (∃ e, r.2 = .error (.io e))) ?_ ?_ h
  · intro rd rd' h ht
    have hcases := Reader.turn_cases io call h.wf
    rw [ht] at hcases
    cases hcases with
    | refilled _ _ hr _ =>
      refine ⟨hr.wf, h.room.trans_le hr.length, ?_⟩
      rw [hr.ioReader]
      exact h.faults.next (hr.room h.room)
  · intro rd r h ht
    have hcases := Reader.turn_cases io call h.wf
    rw [ht] at hcases
    cases hcases with
    | returned hc => exact ⟨⟨h.wf.consume (hcall.bounds hc), h.room, h.faults⟩, nofun⟩
    | rejected hc _ =>
      refine ⟨⟨h.wf, h.room, h.faults⟩, fun ⟨e, he⟩ => ?_⟩
      exact absurd (Except.error.inj he) (hcall.not_io hc e)
    | sourceFailed _ _ hr hio =>
      have hp := hr.room h.room
      have hroom := h.room.trans_le hr.length
      obtain ⟨j, hj, hfaults⟩ := h.faults.fail hp hio
      rw [← hr.ioReader] at hfaults
      have hnext := h.faults.next hp
      rw [← hr.ioReader] at hnext
      exact ⟨⟨hr.wf, hroom, hnext⟩, fun _ => ⟨j, hj, hr.wf, hroom, hfaults⟩⟩

theorem readToFunc_spends (f : LogEventView → Bool) {fuel : ℕ} {rd rd' : Reader σ}
    {res : Except (GoError ε) LogEventView} (h : rd.Faces io k)
    (he : Reader.readToFunc clp io f fuel rd = some (rd', res)) :
    Spends io k rd' (∃ e, res = .error (.io e)) := by
  induction fuel generalizing rd with
  | zero => cases he
  | succ fuel ih =>
    rw [Reader.readToFunc] at he
    cases hread : rd.read clp io (fuel + 1) with
    | none =>
      rw [hread] at he
      cases he
    | some r =>
      obtain ⟨rd₁, res₁⟩ := r
      have hspends := call_spends clp .event h (Loop.ends_of_run hread)
      rw [hread] at he
      cases res₁ with
      | error err =>
        cases he
        exact hspends
      | ok event =>
        dsimp only at he
        split at he
        · cases he
          exact hspends
        · exact ih hspends.1 he

theorem spends_map {f : β → LogEventView × Option ℕ}
    {call : Option (Reader σ × Except (GoError ε) β)} {rd' : Reader σ} {res : OpResult ε}
    (hcall : ∀ rd' r, call = some (rd', r) → Spends io k rd' (∃ e, r = .error (.io e)))
    (he : call.map (Prod.map id (Except.map f)) = some (rd', res)) :
    Spends io k rd' (sourceFailed res = true) := by
  obtain ⟨⟨rd₁, r⟩, hr, hmap⟩ := Option.map_eq_some_iff.mp he
  cases hmap
  obtain ⟨hkept, hfailed⟩ := hcall rd₁ r hr
  refine ⟨hkept, fun hs => hfailed ?_⟩
  rcases r with err | event
  · cases err <;> first | exact ⟨_, rfl⟩ | cases hs
  · cases hs

theorem exec_spends {op : ReaderOp} {fuel : ℕ} {rd rd' : Reader σ} {res : OpResult ε}
    (h : rd.Faces io k) (he : op.exec clp io fuel rd = some (rd', res)) :
    Spends io k rd' (sourceFailed res = true) := by
  have hread : ∀ rd' r, rd.read clp io fuel = some (rd', r) →
      Spends io k rd' (∃ e, r = .error (.io e)) :=
    fun _ _ hr => call_spends clp .event h (Loop.ends_of_run hr)
  have hsearch : ∀ queries iv rd' r,
      rd.readToWildcardMatchWithTimeInterval clp io queries iv fuel = some (rd', r) →
      Spends io k rd' (∃ e, r = .error (.io e)) :=
    fun queries iv _ _ hr => call_spends clp (.search queries iv) h (Loop.ends_of_run hr)
  cases op with
  | read => exact spends_map hread he
  | readToFunc f => exact spends_map (fun _ _ => readToFunc_spends f h) he
  | readToEpochTime time => exact spends_map (fun _ _ => readToFunc_spends _ h) he
  | readToContains sub => exact spends_map (fun _ _ => readToFunc_spends _ h) he
  | readToPrefix pre => exact spends_map (fun _ _ => readToFunc_spends _ h) he
  | readToSuffix suffix => exact spends_map (fun _ _ => readToFunc_spends _ h) he
  | readToWildcardMatch queries => exact spends_map (hsearch queries _) he
  | readToWildcardMatchWithTimeInterval queries iv => exact spends_map (hsearch queries iv) he

theorem execAll_failures {ops : List ReaderOp} {fuel : ℕ} {rd rd' : Reader σ}
    {results : List (OpResult ε)} (h : rd.Faces io k)
    (he : execAll clp io fuel rd ops = some (rd', results)) :
    results.countP sourceFailed ≤ k := by
  induction ops generalizing rd results k with
  | nil =>
    cases he
    exact Nat.zero_le _
  | cons op ops ih =>
    rw [execAll] at he
    cases hop : op.exec clp io fuel rd with
    | none =>
      rw [hop] at he
      cases he
    | some r =>
      obtain ⟨rd₁, res⟩ := r
      rw [hop] at he
      obtain ⟨⟨rd₂, rest⟩, hrest, hmap⟩ := Option.map_eq_some_iff.mp he
      cases hmap
      obtain ⟨hkept, hfailed⟩ := exec_spends h hop
      cases hs : sourceFailed res with
      | false =>
        rw [List.countP_cons_of_neg (by simp [hs])]
        exact ih hkept hrest
      | true =>
        obtain ⟨j, rfl, hj⟩ := hfailed hs
        rw [List.countP_cons_of_pos hs]
        exact Nat.succ_le_succ (ih hj hrest)

theorem length_unconcluded {results : List (OpResult ε)} (h : ¬ Concluded results) :
    results.length = (returned results).length + results.countP sourceFailed := by
  induction results with
  | nil => rfl
  | cons res results ih =>
    have hrest : ¬ Concluded results := fun ⟨err, hmem, hio⟩ =>
      h ⟨err, List.mem_cons_of_mem _ hmem, hio⟩
    rcases res with err | event
    · have hio : ∃ e, err = .io e := by
        by_contra hne
        exact h ⟨err, List.mem_cons_self, fun e he => hne ⟨e, he⟩⟩
      obtain ⟨e, rfl⟩ := hio
      rw [List.countP_cons_of_pos rfl, List.length_cons, ih hrest]
      rfl
    · rw [List.countP_cons_of_neg (by simp [sourceFailed]), List.length_cons, ih hrest]
      exact Nat.add_right_comm _ _ _

section completion

variable {allowed : ε → Prop} {d : Deserializer} {tail : IRErrorCode} {xs : List LogEventView}

theorem Reader.Before.returns (hpi : clp.PositionIndependent) (htail : tail ≠ .incompleteIr)
    {rd : Reader σ} (h : rd.Before clp (io.Delivers allowed) d tail xs) (op : ReaderOp) :
    ∃ fuel r, op.exec clp io fuel rd = some r := by
  obtain ⟨⟨t, b⟩, hh, hr, _, hend⟩ := h.place
  exact exec_ends hpi hr (hend ▸ htail) hh op

theorem execAll_returns (hpi : clp.PositionIndependent) (htail : tail ≠ .incompleteIr)
    {ops : List ReaderOp} (hsearch : ∀ op ∈ ops, op.searches = true → d.encoding = .eightByte)
    {rd : Reader σ} (h : rd.Before clp (io.Delivers allowed) d tail xs) :
    ∃ fuel rd' results, execAll clp io fuel rd ops = some (rd', results) := by
  induction ops generalizing rd xs with
  | nil => exact ⟨0, rd, [], rfl⟩
  | cons op ops ih =>
    rw [List.forall_mem_cons] at hsearch
    obtain ⟨fuel, ⟨rd₁, res⟩, hop⟩ := h.returns hpi htail op
    obtain ⟨_, _, _, _, _, h₁⟩ :=
      exec_answers (io.delivers_conserves allowed) hpi op hsearch.1 h hop
    obtain ⟨k, rd', results, hops⟩ := ih hsearch.2 h₁
    exact ⟨fuel + k, rd', _,
      execAll_cons (exec_mono hop (by omega)) (execAll_mono hops (by omega))⟩

end completion

theorem retried_call_completes (hp : clp.PrefixStable) (hpi : clp.PositionIndependent)
    {b : List UInt8} {d : Deserializer} {pos : ℕ} {events : List LogEventView} {last : GoError ε}
    (hpre : deserializePreamble clp json b = .ok (d, pos))
    (hdes : Deserializes clp d (b.drop pos) events last) (hlast : last.isIncomplete = false)
    {allowed : ε → Prop} {s : σ} {size : ℕ} (hsize : 0 < size) (hd : io.Delivers allowed s b)
    (hk : io.FaultsWithin k s) {fuel : ℕ} {rd : Reader σ}
    (hnew : newReaderSize clp json io s size fuel = some (.ok rd)) {op : ReaderOp}
    (hsearch : op.searches = true → d.encoding = .eightByte) :
    ∃ fuel rd' results, execAll clp io fuel rd
        (List.replicate ((op.hits clp events).length + k + 1) op) = some (rd', results) ∧
      returned results = op.hits clp events := by
  have hsrc : io.Conserves (io.Delivers allowed) := io.delivers_conserves allowed
  obtain ⟨tail, rfl, hbefore⟩ := newReaderSize_before hsrc hp hpre hdes hsize hd hnew
  have htail : tail ≠ .incompleteIr := by
    rintro rfl
    cases hlast
  have hfaces : rd.Faces io k := by
    obtain ⟨_, _, hwithin⟩ := newReaderSize_before
      (IoReader.delivers_within_conserves allowed k) hp hpre hdes hsize ⟨hd, hk⟩ hnew
    obtain ⟨c, hh, _⟩ := hwithin.place
    obtain ⟨_, _, _, hfaults⟩ := hh.buffered.source
    exact ⟨hh.buffered.wf, hh.buffered.room, hfaults⟩
  obtain ⟨fuel', rd', results, hrun⟩ := execAll_returns hpi htail
    (fun op' (hop : op' ∈ List.replicate ((op.hits clp events).length + k + 1) op) =>
      List.eq_of_mem_replicate hop ▸ hsearch) hbefore
  refine ⟨fuel', rd', results, hrun, ?_⟩
  have hfailures := execAll_failures hfaces hrun
  obtain ⟨os, rest, hlen, hseek, rfl⟩ := replicate_run hsrc hpi hbefore hsearch hrun
  obtain ⟨hstart, hall⟩ := run_enumerates (.ir ⟨tail.toInt⟩) hseek
  apply hall
  -- Fewer calls than were made return a hit or fail, so one of them has concluded.
  by_contra hopen
  have hcount := length_unconcluded hopen
  have hshort := hstart.length_le
  rw [List.length_map] at hcount
  omega

namespace SampleCodec

def interruptions : List Bool := List.replicate 100 false ++ [true, false, true]

end SampleCodec

open SampleCodec IoReader in
theorem interrupted_hourly_completes : ∃ fuel rd rd' results,
    newReaderSize readApi jsonApi (source.interrupted ()) (interruptions, bytewise hourly) 1 256 =
      some (.ok rd) ∧
    execAll readApi (source.interrupted ()) fuel rd
      (List.replicate 5 (.readToContains (ascii "b"))) = some (rd', results) ∧
    returned results = [(⟨ascii "b", 5⟩, none), (⟨ascii "b", 10⟩, none)] := by
  have hopen : ((newReaderSize readApi jsonApi (source.interrupted ())
      (interruptions, bytewise hourly) 1 256).bind Except.toOption).isSome = true := by
    decide +kernel
  obtain ⟨rd, hrd⟩ := Option.isSome_iff_exists.mp hopen
  obtain ⟨res, hnew, hres⟩ := Option.bind_eq_some_iff.mp hrd
  rw [ok_of_toOption hres] at hnew
  obtain ⟨d, pos, hpre, henc, hdes⟩ := hourly_deserializes
  have hd : (source.interrupted ()).Delivers (fun _ => True) (interruptions, bytewise hourly)
      hourly := interrupted_delivers trivial (bytewise_delivers _ _) _
  have hk : (source.interrupted ()).FaultsWithin 2 (interruptions, bytewise hourly) :=
    fun n t ht => interrupted_faults ht (chunked_faults _)
  obtain ⟨fuel, rd', results, hrun, hall⟩ := retried_call_completes
    readApi_prefixStable readApi_positionIndependent hpre hdes rfl Nat.one_pos hd hk hnew
    (fun _ : (ReaderOp.readToContains (ascii "b")).searches = true => henc)
  exact ⟨fuel, rd, rd', results, hnew, hrun, hall⟩

end ClpFfiGo
