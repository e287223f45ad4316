import ClpFfiGo.ReaderBuffer
import ClpFfiGo.SeekingReader
import ClpFfiGo.Termination

namespace ClpFfiGo

variable {σ ε β : Type} {clp : IrReadApi} {io : IoReader σ ε} {src : σ → List UInt8 → Prop}
  {full : List UInt8}

def refusal (u : List UInt8) : IrError := if u = [] then .incompleteIr else .corruptedIr

theorem Deserializer.setCptr_closed {d : Deserializer} (h : d.cptr = none) :
    d.setCptr none = d := by
  cases d with
  | eightByte c =>
    obtain ⟨tsInfo, cptr⟩ := c
    obtain rfl : cptr = none := h
    rfl
  | fourByte c prev =>
    obtain ⟨tsInfo, cptr⟩ := c
    obtain rfl : cptr = none := h
    rfl

theorem ReaderCall.closed {call : Reader.Call ε β} (h : ReaderCall clp call) {d : Deserializer}
    (hd : d.cptr = none) (u : List UInt8) : call d u = (d, .error (.ir (refusal u))) := by
  cases u with
  | nil => cases h <;> rfl
  | cons x u =>
    cases h with
    | event =>
      rw [deserializeLogEvent, if_neg (by simp), hd]
      show (d.setCptr none, _) = _
      rw [Deserializer.setCptr_closed hd]
      rfl
    | search queries iv =>
      rw [deserializeWildcardMatch, if_neg (by simp), hd]
      show (d.setCptr none, _) = _
      rw [Deserializer.setCptr_closed hd]
      rfl

structure Reader.Shut (src : σ → List UInt8 → Prop) (full : List UInt8) (rd : Reader σ) :
    Prop where
  buffered : rd.toReadBuf.Over src full
  cptr : rd.deserializer.cptr = none

theorem Reader.Shut.close {rd : Reader σ} (h : rd.toReadBuf.Over src full) :
    rd.close.Shut src full :=
  ⟨h, Deserializer.cptr_setCptr _ _⟩

def Refused (io : IoReader σ ε) (src : σ → List UInt8 → Prop) (res : Except (GoError ε) β) :
    Prop :=
  res = .error (.ir .corruptedIr) ∨ ∃ e, io.Fails src e ∧ res = .error (.io e)

theorem refusal_incomplete (ε : Type) (u : List UInt8) :
    (GoError.ir (ε := ε) (refusal u)).isIncomplete = true ↔ u = [] := by
  cases u with
  | nil => simp [refusal, GoError.isIncomplete]
  | cons x u => simp [refusal, GoError.isIncomplete, IrError.corruptedIr, IrError.incompleteIr]

section calls

variable {call : Reader.Call ε β} {rd rd' : Reader σ} {res : Except (GoError ε) β}

theorem ReaderCall.settles (h : ReaderCall clp call) : Reader.Settles call full
    (fun d => d.cptr = none) (fun _ _ => True)
    (fun d r => d.cptr = none ∧ r = .error (.ir .corruptedIr)) := by
  constructor
  · intro d u d' err hd _ _ hc _
    rw [h.closed hd] at hc
    cases hc
    exact hd
  · intro d u d' err hd _ _ hc hi
    rw [h.closed hd] at hc
    cases hc
    have hu : u ≠ [] := fun hu => by simp [(refusal_incomplete ε u).mpr hu] at hi
    exact ⟨hd, by rw [refusal, if_neg hu]⟩
  · intro d u d' event pos hd _ _ hc
    rw [h.closed hd] at hc
    cases hc

theorem call_refused (hsrc : io.Conserves src) (h : ReaderCall clp call)
    (hs : rd.Shut src full) (he : Loop.Ends (Reader.turn io call) rd (rd', res)) :
    rd'.Shut src full ∧ Refused io src res := by
  have hout := Reader.loop_outcome hsrc h.settles hs.buffered hs.cptr
    (fun _ _ => trivial) he
  cases hout with
  | sourceFailed hf ho hi => exact ⟨⟨ho, hi⟩, .inr ⟨_, hf, rfl⟩⟩
  | rejected ho _ hp =>
    obtain ⟨hd, herr⟩ := hp
    cases herr
    exact ⟨⟨ho, hd⟩, .inl rfl⟩
  | returned _ hp => cases hp.2

theorem call_ends {allowed : ε → Prop} (h : ReaderCall clp call)
    (hs : rd.Shut (io.Delivers allowed) full) (hne : full ≠ []) :
    ∃ r, Loop.Ends (Reader.turn io call) rd r := by
  refine Reader.loop_ends (I := fun d => d.cptr = none) ?_ ?_ hs.cptr hs.buffered
  · intro d u d' err hd _ hc _
    rw [h.closed hd] at hc
    cases hc
    exact hd
  · intro d d' err hd hc
    rw [h.closed hd] at hc
    cases hc
    rw [← Bool.not_eq_true, refusal_incomplete]
    exact hne

theorem call_spins {allowed : ε → Prop} (hno : ∀ e, ¬ allowed e) (h : ReaderCall clp call)
    (hs : rd.Shut (io.Delivers allowed) []) (r : Reader σ × Except (GoError ε) β) :
    ¬ Loop.Ends (Reader.turn io call) rd r := by
  apply Loop.not_ends (P := Reader.Shut (io.Delivers allowed) []) _ hs
  intro rd hs
  have hu : rd.unread = [] := List.prefix_nil.mp hs.buffered.unread_prefix
  have ha := h.closed hs.cptr rd.unread
  have hi := (refusal_incomplete ε rd.unread).mpr hu
  have hcases := Reader.turn_cases io call hs.buffered.wf
  generalize Reader.turn io call rd = out at hcases ⊢
  cases hcases with
  | returned hc =>
    rw [ha] at hc
    cases hc
  | rejected hc hne =>
    rw [ha] at hc
    cases hc
    rw [hi] at hne
    cases hne
  | refilled hc _ hr _ =>
    rw [ha] at hc
    cases hc
    exact ⟨_, rfl, hs.buffered.refill (io.delivers_conserves _) hr, hs.cptr⟩
  | sourceFailed _ _ hr he => exact absurd (hs.buffered.fails hr he).allowed (hno _)

end calls

section operations

variable {rd rd' : Reader σ} {fuel : ℕ}

theorem readToFunc_closed (hsrc : io.Conserves src) (f : LogEventView → Bool)
    (hs : rd.Shut src full) (fuel : ℕ) :
    Reader.readToFunc clp io f fuel rd = rd.read clp io fuel := by
  cases fuel with
  | zero => rfl
  | succ fuel =>
    rw [Reader.readToFunc]
    rcases hread : rd.read clp io (fuel + 1) with _ | ⟨rd', err | event⟩
    · rfl
    · rfl
    · obtain ⟨_, hres | ⟨_, _, hres⟩⟩ :=
        call_refused hsrc .event hs (Loop.ends_of_run hread)
      · cases hres
      · cases hres

variable (clp) in
-- On a closed Reader each operation is one run of the loop of `Read` or of the wildcard reads.
theorem exec_closed (hsrc : io.Conserves src) (hs : rd.Shut src full) (op : ReaderOp) :
    ∃ (β : Type) (call : Reader.Call ε β) (g : Except (GoError ε) β → OpResult ε),
      ReaderCall clp call ∧ (∀ err, g (.error err) = .error err) ∧
      ∀ fuel, op.exec clp io fuel rd =
        (Loop.run (Reader.turn io call) fuel rd).map (Prod.map id g) := by
  have hfunc : ∀ f, ∃ (β : Type) (call : Reader.Call ε β) (g : Except (GoError ε) β → OpResult ε),
      ReaderCall clp call ∧ (∀ err, g (.error err) = .error err) ∧
      ∀ fuel, (Reader.readToFunc clp io f fuel rd).map (Prod.map id plain) =
        (Loop.run (Reader.turn io call) fuel rd).map (Prod.map id g) := by
    intro f
    refine ⟨_, _, plain, .event, fun _ => rfl, fun fuel => ?_⟩
    rw [readToFunc_closed hsrc f hs]
    rfl
  cases op with
  | read => exact ⟨_, _, plain, .event, fun _ => rfl, fun _ => rfl⟩
  | readToFunc f => exact hfunc f
  | readToEpochTime time => exact hfunc _
  | readToContains substr => exact hfunc _
  | readToPrefix pre => exact hfunc _
  | readToSuffix suffix => exact hfunc _
  | readToWildcardMatch queries =>
    exact ⟨_, _, indexed, .search queries _, fun _ => rfl, fun _ => rfl⟩
  | readToWildcardMatchWithTimeInterval queries iv =>
    exact ⟨_, _, indexed, .search queries iv, fun _ => rfl, fun _ => rfl⟩

theorem exec_refused (hsrc : io.Conserves src) (hs : rd.Shut src full) {op : ReaderOp}
    {res : OpResult ε} (he : op.exec clp io fuel rd = some (rd', res)) :
    rd'.Shut src full ∧ Refused io src res := by
  obtain ⟨β, call, g, hcall, hg, hexec⟩ := exec_closed clp hsrc hs op
  rw [hexec] at he
  obtain ⟨⟨rd₁, res₁⟩, hrun, hmap⟩ := Option.map_eq_some_iff.mp he
  cases hmap
  obtain ⟨hs', hres | ⟨e, hf, hres⟩⟩ := call_refused hsrc hcall hs (Loop.ends_of_run hrun)
  · exact ⟨hs', .inl (by rw [hres]; exact hg _)⟩
  · exact ⟨hs', .inr ⟨e, hf, by rw [hres]; exact hg _⟩⟩

theorem execAll_refused (hsrc : io.Conserves src) (hs : rd.Shut src full) {ops : List ReaderOp}
    {results : List (OpResult ε)} (he : execAll clp io fuel rd ops = some (rd', results)) :
    rd'.Shut src full ∧ ∀ res ∈ results, Refused io src res := by
  induction ops generalizing rd results with
  | nil =>
    cases he
    exact ⟨hs, by simp⟩
  | cons op ops ih =>
    rw [execAll] at he
    rcases hop : op.exec clp io fuel rd with _ | ⟨rd₁, res⟩
    · rw [hop] at he
      cases he
    · rw [hop] at he
      obtain ⟨⟨rd₂, rest⟩, hrest, hmap⟩ := Option.map_eq_some_iff.mp he
      cases hmap
      obtain ⟨hs₁, hres⟩ := exec_refused hsrc hs hop
      obtain ⟨hs₂, hall⟩ := ih hs₁ hrest
      exact ⟨hs₂, List.forall_mem_cons.mpr ⟨hres, hall⟩⟩

theorem execAll_ends {allowed : ε → Prop} (hs : rd.Shut (io.Delivers allowed) full)
    (hne : full ≠ []) (ops : List ReaderOp) :
    ∃ fuel r, execAll clp io fuel rd ops = some r := by
  induction ops generalizing rd with
  | nil => exact ⟨0, _, rfl⟩
  | cons op ops ih =>
    have hsrc := io.delivers_conserves allowed
    obtain ⟨β, call, g, hcall, _, hexec⟩ := exec_closed clp hsrc hs op
    obtain ⟨⟨rd₁, res⟩, hends⟩ := call_ends hcall hs hne
    obtain ⟨fuel, hrun⟩ := Loop.run_of_ends hends
    obtain ⟨k, r, hops⟩ := ih (call_refused hsrc hcall hs hends).1
    have hop : op.exec clp io fuel rd = some (rd₁, g res) := by
      rw [hexec, hrun]
      rfl
    exact ⟨fuel + k, _, execAll_cons (exec_mono hop (by omega)) (execAll_mono hops (by omega))⟩

theorem execAll_spins {allowed : ε → Prop} (hno : ∀ e, ¬ allowed e)
    (hs : rd.Shut (io.Delivers allowed) []) {ops : List ReaderOp} (hops : ops ≠ []) (fuel : ℕ) :
    execAll clp io fuel rd ops = none := by
  cases ops with
  | nil => exact absurd rfl hops
  | cons op ops =>
    obtain ⟨β, call, g, hcall, _, hexec⟩ :=
      exec_closed clp (io.delivers_conserves allowed) hs op
    have hnone : op.exec clp io fuel rd = none := by
      rw [hexec]
      cases hrun : Loop.run (Reader.turn io call) fuel rd with
      | none => rfl
      | some r => exact absurd (Loop.ends_of_run hrun) (call_spins hno hcall hs r)
    rw [execAll, hnone]

end operations

def Reader.Within (src : σ → List UInt8 → Prop) (b : List UInt8) (rd : Reader σ) : Prop :=
  ∃ n, rd.toReadBuf.Over src (b.drop n)

theorem call_within {call : Reader.Call ε β} (hsrc : io.Conserves src)
    (h : ReaderCall clp call) (b : List UInt8) :
    Loop.Keeps (Reader.Within src b) (fun _ => True) (Loop.run (Reader.turn io call)) := by
  apply Loop.keeps_run
  · rintro rd rd' ⟨n, ho⟩ ht
    have hcases := Reader.turn_cases io call ho.wf
    rw [ht] at hcases
    cases hcases with
    | refilled _ _ hr _ => exact ⟨n, ho.refill hsrc hr⟩
  · rintro rd rd' res ⟨n, ho⟩ ht
    refine ⟨?_, fun _ _ => trivial⟩
    have hcases := Reader.turn_cases io call ho.wf
    rw [ht] at hcases
    cases hcases with
    | @returned d event pos hc =>
      have hadvance := ho.advance (h.bounds hc)
      rw [List.drop_drop] at hadvance
      exact ⟨_, hadvance⟩
    | rejected _ _ => exact ⟨n, ho⟩
    | sourceFailed _ _ hr _ => exact ⟨n, ho.refill hsrc hr⟩

theorem execAll_within (hsrc : io.Conserves src) {b : List UInt8} {ops : List ReaderOp} {fuel : ℕ}
    {rd rd' : Reader σ} {results : List (OpResult ε)} (h : rd.Within src b)
    (he : execAll clp io fuel rd ops = some (rd', results)) : rd'.Within src b :=
  (execAll_keeps (fun op _ => exec_keeps (call_within hsrc .event b) op
    (fun _ queries iv => call_within hsrc (.search queries iv) b)) h he).1

theorem closed_reader_refuses (hp : clp.PrefixStable) {json : JsonApi ε} {allowed : ε → Prop}
    {b : List UInt8} {s : σ} {size : ℕ} (hsize : 0 < size) (hd : io.Delivers allowed s b)
    {fuel₀ fuel₁ : ℕ} {rd rd₁ : Reader σ}
    (hnew : newReaderSize clp json io s size fuel₀ = some (.ok rd)) {before : List ReaderOp}
    {results₁ : List (OpResult ε)}
    (hbefore : execAll clp io fuel₁ rd before = some (rd₁, results₁)) :
    ∃ n, rd₁.toReadBuf.Over (io.Delivers allowed) (b.drop n) ∧ ∀ ops : List ReaderOp,
      (∀ fuel rd₂ results, execAll clp io fuel rd₁.close ops = some (rd₂, results) →
        rd₂.toReadBuf.Over (io.Delivers allowed) (b.drop n) ∧ ∀ res ∈ results,
          res = .error (.ir .corruptedIr) ∨ ∃ e, allowed e ∧ res = .error (.io e)) ∧
      (n < b.length → ∃ fuel r, execAll clp io fuel rd₁.close ops = some r) ∧
      (b.length ≤ n → (∀ e, ¬ allowed e) → ops ≠ [] →
        ∀ fuel, execAll clp io fuel rd₁.close ops = none) := by
  have hsrc := io.delivers_conserves allowed
  have hbuilt := newReaderSize_built hsrc (PrefixStable.preambleSettled json hp b) hsize hd hnew
  have hwithin : rd.Within (io.Delivers allowed) b := by
    cases hbuilt with
    | returned _ _ hh => exact ⟨_, hh.buffered⟩
  obtain ⟨n, ho⟩ := execAll_within hsrc hwithin hbefore
  have hshut := Reader.Shut.close ho
  refine ⟨n, ho, fun ops => ⟨?_, ?_, ?_⟩⟩
  · intro fuel rd₂ results he
    obtain ⟨hs₂, hall⟩ := execAll_refused hsrc hshut he
    refine ⟨hs₂.buffered, fun res hres => ?_⟩
    rcases hall res hres with hc | ⟨e, hf, he⟩
    · exact .inl hc
    · exact .inr ⟨e, hf.allowed, he⟩
  · intro hn
    exact execAll_ends hshut (by simpa using hn) ops
  · intro hn hno hops fuel
    rw [List.drop_eq_nil_of_le hn] at hshut
    exact execAll_spins hno hshut hops fuel

open SampleCodec IoReader in
theorem closed_hourly_refuses : ∃ rd rd₁ : Reader (List (List UInt8)),
    newReaderSize readApi jsonApi source (bytewise hourly) 1 256 = some (.ok rd) ∧
    execAll readApi source 256 rd [.read] = some (rd₁, [.ok (⟨ascii "a", 1⟩, none)]) ∧
    ∀ (ops : List ReaderOp) fuel rd₂ (results : List (OpResult Unit)),
      execAll readApi source fuel rd₁.close ops = some (rd₂, results) →
        ∀ res ∈ results, res = .error (.ir .corruptedIr) := by
  have hrun : replay (bytewise hourly) 1 256 [.read] = some [.ok (⟨ascii "a", 1⟩, none)] := by
    decide +kernel
  obtain ⟨rd, rd₁, hnew, hbefore⟩ := replay_eq hrun
  obtain ⟨n, _, hrefuses⟩ := closed_reader_refuses readApi_prefixStable Nat.one_pos
    (bytewise_delivers NoError hourly) hnew hbefore
  refine ⟨rd, rd₁, hnew, hbefore, fun ops fuel rd₂ results he res hres => ?_⟩
  rcases ((hrefuses ops).1 fuel rd₂ results he).2 res hres with hc | ⟨_, hno, _⟩
  · exact hc
  · exact hno.elim

end ClpFfiGo
