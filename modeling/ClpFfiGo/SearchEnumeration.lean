import ClpFfiGo.SeekingReader

namespace ClpFfiGo

open Seek

variable {σ ε : Type} {clp : IrReadApi} {json : JsonApi ε} {io : IoReader σ ε}

namespace ReaderOp

def hits (clp : IrReadApi) (op : ReaderOp) (events : List LogEventView) :
    List (LogEventView × Option ℕ) :=
  (wanted (op.request clp).choose events).map fun e => (e, op.index clp e)

end ReaderOp

def returned (results : List (OpResult ε)) : List (LogEventView × Option ℕ) :=
  results.filterMap Except.toOption

def Concluded (results : List (OpResult ε)) : Prop :=
  ∃ err, .error err ∈ results ∧ ∀ e, err ≠ .io e

section outcomes

variable {last : GoError ε} {op : ReaderOp} {os : List (Outcome LogEventView ε)}

theorem returned_outcomes (os : List (Outcome LogEventView ε)) :
    returned (os.map (op.result clp last)) =
      (os.filterMap Outcome.item).map fun e => (e, op.index clp e) := by
  induction os with
  | nil => rfl
  | cons o os ih =>
    cases o with
    | found e => exact congrArg ((e, op.index clp e) :: ·) ih
    | barred => exact ih
    | finished => exact ih
    | failed e => exact ih

theorem concluded_outcomes (h : Concluded (os.map (op.result clp last))) :
    ∃ o ∈ os, o.conclusive = true := by
  obtain ⟨err, hmem, hio⟩ := h
  obtain ⟨o, ho, hres⟩ := List.mem_map.mp hmem
  refine ⟨o, ho, ?_⟩
  cases o with
  | found e => cases hres
  | barred => rfl
  | finished => rfl
  | failed e =>
    cases hres
    exact absurd rfl (hio e)

variable (last) in
theorem run_enumerates {allowed : ε → Prop} {events rest : List LogEventView} {n : ℕ}
    (h : Run allowed events (List.replicate n (op.request clp)) os rest) :
    returned (os.map (op.result clp last)) <+: op.hits clp events ∧
      (Concluded (os.map (op.result clp last)) →
        returned (os.map (op.result clp last)) = op.hits clp events) := by
  rw [returned_outcomes, ReaderOp.hits, ← h.account, List.map_append]
  refine ⟨List.prefix_append _ _, fun hc => ?_⟩
  rw [h.conclusive (concluded_outcomes hc), List.map_nil, List.append_nil]

end outcomes

theorem results_replicate {last : GoError ε} {op : ReaderOp} {n : ℕ}
    {os : List (Outcome LogEventView ε)} (h : os.length = n) :
    List.zipWith (ReaderOp.result clp last) (List.replicate n op) os =
      os.map (op.result clp last) := by
  induction os generalizing n with
  | nil =>
    subst h
    rfl
  | cons o os ih =>
    subst h
    exact congrArg (op.result clp last o :: ·) (ih rfl)

theorem replicate_run {src : σ → List UInt8 → Prop} (hsrc : io.Conserves src)
    (hpi : clp.PositionIndependent) {d : Deserializer} {tail : IRErrorCode}
    {events : List LogEventView} {rd rd' : Reader σ} (h : rd.Before clp src d tail events)
    {op : ReaderOp} (hsearch : op.searches = true → d.encoding = .eightByte) {n fuel : ℕ}
    {results : List (OpResult ε)}
    (hrun : execAll clp io fuel rd (List.replicate n op) = some (rd', results)) :
    ∃ os rest, os.length = n ∧
      Run (io.Fails src) events (List.replicate n (op.request clp)) os rest ∧
      results = os.map (op.result clp (.ir ⟨tail.toInt⟩)) := by
  obtain ⟨_, os, rest, hseek, rfl, _⟩ := execAll_run hsrc hpi
    (fun op' hop => List.eq_of_mem_replicate hop ▸ hsearch) h hrun
  rw [List.map_replicate] at hseek
  have hlen := hseek.length_eq
  rw [List.length_replicate] at hlen
  exact ⟨os, rest, hlen, hseek, results_replicate hlen⟩

theorem repeated_call_enumerates (hp : clp.PrefixStable) (hpi : clp.PositionIndependent)
    {b : List UInt8} {d : Deserializer} {pos : ℕ} {events : List LogEventView} {last : GoError ε}
    (hpre : deserializePreamble clp json b = .ok (d, pos))
    (hdes : Deserializes clp d (b.drop pos) events last) {s : σ} {size : ℕ} (hsize : 0 < size)
    (hs : io.Feeds s b) {fuel : ℕ} {rd rd' : Reader σ}
    (hnew : newReaderSize clp json io s size fuel = some (.ok rd)) {op : ReaderOp}
    (hsearch : op.searches = true → d.encoding = .eightByte) {n : ℕ}
    {results : List (OpResult ε)}
    (hrun : execAll clp io fuel rd (List.replicate n op) = some (rd', results)) :
    returned results <+: op.hits clp events ∧
      (Concluded results → returned results = op.hits clp events) := by
  obtain ⟨tail, rfl, hbefore⟩ :=
    newReaderSize_before io.feeds_conserves hp hpre hdes hsize hs hnew
  obtain ⟨os, rest, _, hseek, rfl⟩ :=
    replicate_run io.feeds_conserves hpi hbefore hsearch hrun
  exact run_enumerates _ hseek

open SampleCodec in
theorem hourly_contains_enumerated :
    (ReaderOp.readToContains (ascii "b")).hits readApi
      [⟨ascii "a", 1⟩, ⟨ascii "b", 5⟩, ⟨ascii "c", 9⟩, ⟨ascii "b", 10⟩] =
      [(⟨ascii "b", 5⟩, none), (⟨ascii "b", 10⟩, none)] := by
  have hrun : replay (IoReader.bytewise hourly) 1 256
      (List.replicate 3 (.readToContains (ascii "b"))) =
      some [.ok (⟨ascii "b", 5⟩, none), .ok (⟨ascii "b", 10⟩, none), .error (.ir .endOfIr)] := by
    decide +kernel
  obtain ⟨rd, rd', hnew, hexec⟩ := replay_eq hrun
  obtain ⟨d, pos, hpre, henc, hdes⟩ := hourly_deserializes
  exact ((repeated_call_enumerates readApi_prefixStable readApi_positionIndependent hpre hdes
    Nat.one_pos hourly_feeds hnew (fun _ => henc) hexec).2
    ⟨.ir .endOfIr, by simp, fun _ h => by cases h⟩).symm

section chronological

def within (iv : TimestampInterval) (e : LogEventView) : Bool :=
  iv.lower ≤ e.timestamp ∧ e.timestamp < iv.upper

variable {query : GoString → Option ℕ} {iv : TimestampInterval} {events : List LogEventView}

end chronological

end ClpFfiGo
