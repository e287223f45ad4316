import ClpFfiGo.ReadEvents
import ClpFfiGo.Termination
import ClpFfiGo.SampleCodec

namespace ClpFfiGo

variable {σ ε : Type} {clp : IrReadApi} {json : JsonApi ε} {io : IoReader σ ε}
  {src : σ → List UInt8 → Prop}

def Deserializer.time (d : Deserializer) : EpochTimeMs :=
  match d.cptr with
  | some n => n.timestamp
  | none => 0

@[simp] theorem Deserializer.time_at (d : Deserializer) (t : EpochTimeMs) : (d.at t).time = t := by
  simp [Deserializer.time]

def scanned (enc : Encoding) (iv : TimestampInterval) (query : GoString → Option ℕ) :
    EpochTimeMs → List Item → List Item
  | _, [] => []
  | t, ((m, v), n) :: is =>
    if iv.upper ≤ stamp enc t v then [((m, v), n)]
    else if iv.lower > stamp enc t v then
      ((m, v), n) :: scanned enc iv query (stamp enc t v) is
    else match query m with
      | none => ((m, v), n) :: scanned enc iv query (stamp enc t v) is
      | some _ => [((m, v), n)]

def scannedDeltas (clp : IrReadApi) (queries : List WildcardQuery) (iv : TimestampInterval)
    (rd : Reader σ) : Int64 :=
  ((scanned rd.deserializer.encoding iv (matchingQuery clp queries) rd.deserializer.time
    ((itemDecoder clp rd.deserializer.encoding).parse rd.unread).1).map (fun i => i.1.2)).sum

-- Every try of the search counts the events it decodes, also those an earlier try decoded.
def drift (clp : IrReadApi) (io : IoReader σ ε) (queries : List WildcardQuery)
    (iv : TimestampInterval) (fuel : ℕ) (rd : Reader σ) : Int64 :=
  ((Loop.trace (Reader.searchTurn clp io queries iv) fuel rd).map
    (scannedDeltas clp queries iv)).sum

section drifting

variable {d : Deserializer} {iv : TimestampInterval} {query : GoString → Option ℕ}

theorem scan_last (pos : ℕ) (enc : Encoding) (t : EpochTimeMs) (is : List Item) :
    (scan enc iv query pos t is).1 = elapsed enc t (scanned enc iv query t is) := by
  induction is generalizing pos t with
  | nil => rfl
  | cons i is ih =>
    obtain ⟨⟨m, v⟩, n⟩ := i
    simp only [scan, scanned]
    split
    · rfl
    · split
      · exact ih _ _
      · cases query m with
        | none => exact ih _ _
        | some k => rfl

variable (clp iv query) in
theorem searchAnswer_state (d : Deserializer) (t : EpochTimeMs) (u : List UInt8) :
    (searchAnswer (ε := ε) clp iv query d t u).1 = d.at
      (elapsed d.encoding t (scanned d.encoding iv query t
        ((itemDecoder clp d.encoding).parse u).1)) := by
  rw [← scan_last 0]
  rw [searchAnswer]
  dsimp only
  split <;> rfl

theorem search_time (hpi : clp.PositionIndependent) (hd : d.encoding = .fourByte)
    (queries : List WildcardQuery) {rd : Reader σ} {t : EpochTimeMs}
    {r : Deserializer × Except (GoError ε) ((LogEventView × ℕ) × ℕ)}
    (h : rd.deserializer = d.at t)
    (ha : deserializeWildcardMatch clp (mergeWildcardQueries queries) iv rd.deserializer
      rd.unread = r) :
    (∃ t', r.1 = d.at t') ∧
      r.1.time = rd.deserializer.time + scannedDeltas clp queries iv rd := by
  rw [h, deserializeWildcardMatch_at hpi] at ha
  have hs := searchAnswer_state (ε := ε) clp iv (matchingQuery clp queries) d t rd.unread
  rw [ha] at hs
  refine ⟨⟨_, hs⟩, ?_⟩
  rw [hs, hd, elapsed_fourByte]
  simp [scannedDeltas, h, hd]

theorem foldl_add (l : List (Reader σ)) (f : Reader σ → Int64) (t : Int64) :
    l.foldl (fun a rd => a + f rd) t = t + (l.map f).sum := by
  induction l generalizing t with
  | nil => simp
  | cons x l ih => rw [List.foldl_cons, ih, List.map_cons, List.sum_cons, Int64.add_assoc]

theorem search_drift (hpi : clp.PositionIndependent) (hd : d.encoding = .fourByte)
    {queries : List WildcardQuery} {fuel : ℕ} {rd rd' : Reader σ} {t : EpochTimeMs}
    {res : Except (GoError ε) (LogEventView × ℕ)} (hw : rd.WF) (h : rd.deserializer = d.at t)
    (hrun : rd.readToWildcardMatchWithTimeInterval clp io queries iv fuel = some (rd', res)) :
    rd'.deserializer.time = t + drift clp io queries iv fuel rd := by
  have hrun : Loop.run (Reader.searchTurn clp io queries iv) fuel rd = some (rd', res) := hrun
  have hfold := Loop.fold_trace
    (P := fun rd : Reader σ => rd.WF ∧ ∃ t, rd.deserializer = d.at t)
    (m := fun rd => rd.deserializer.time) (f := fun r => r.1.deserializer.time)
    (w := fun a rd => a + scannedDeltas clp queries iv rd) ?_ ?_ ⟨hw, t, h⟩ hrun
  · rw [hfold, foldl_add, drift, h, Deserializer.time_at]
  · rintro rd rd' ⟨hw, t, h⟩ ht
    have hcases := Reader.turn_cases io
      (deserializeWildcardMatch clp (mergeWildcardQueries queries) iv) hw
    rw [Reader.searchTurn] at ht
    rw [ht] at hcases
    cases hcases with
    | refilled ha _ hr _ =>
      obtain ⟨hat, htime⟩ := search_time hpi hd queries h ha
      exact ⟨⟨hr.wf, hat⟩, htime⟩
  · rintro rd ⟨rd', res⟩ ⟨hw, t, h⟩ ht
    have hcases := Reader.turn_cases io
      (deserializeWildcardMatch clp (mergeWildcardQueries queries) iv) hw
    rw [Reader.searchTurn] at ht
    rw [ht] at hcases
    cases hcases with
    | returned ha => exact (search_time hpi hd queries h ha).2
    | rejected ha _ => exact (search_time hpi hd queries h ha).2
    | sourceFailed ha _ _ _ => exact (search_time hpi hd queries h ha).2

end drifting

section reached

variable {enc : Encoding} {metadata : Metadata} {is : List (GoString × EpochTimeMs)}
  {b stream : List UInt8}

theorem reached_later (hsrc : io.Conserves src) (hpi : clp.PositionIndependent)
    (h : IrStream clp json enc metadata is stream) (hb : b <+: stream) {s : σ} {size : ℕ}
    (hsize : 0 < size) (hs : src s b) {rd : Reader σ} (hrd : Reached clp json io s size rd) :
    ∃ c, rd.Later clp src (newDeserializer enc metadata ⟨0⟩) c := by
  obtain ⟨fuel, rd₀, ops, results, hnew, hexec⟩ := hrd
  obtain ⟨pos, hf⟩ := h.facts
  have hset : PreambleSettled clp json b := fun u p hu hp => hf.settled u p hu (hp.trans hb)
  have hbuilt := newReaderSize_built hsrc hset hsize hs hnew
  cases hbuilt with
  | @returned _ d t pos' ha _ hh =>
    have he : deserializePreamble clp json stream = .ok (d, pos') := by
      rcases hf.settled b stream hb List.prefix_rfl with ⟨err, hc, _⟩ | hc
      · rw [ha] at hc
        cases hc
      · rw [← hc, ha]
    rw [hf.answer] at he
    obtain ⟨rfl, rfl⟩ := Prod.mk.inj (Except.ok.inj he)
    have hr : (itemDecoder clp (newDeserializer enc metadata ⟨0⟩).encoding).Regular
        (b.drop pos) := by
      rw [encoding_newDeserializer]
      exact hf.regular.of_prefix (hb.drop pos)
    exact ⟨_, execAll_later hsrc hpi ⟨hr, t, _, .refl, hh⟩ hexec⟩

theorem search_error_bytes {iv : TimestampInterval} {query : GoString → Option ℕ} {c c' : Cursor}
    {err : GoError ε} (h : Cursor.search clp enc iv query c = some (c', .error err)) :
    c'.bytes = c.bytes := by
  rw [Cursor.search] at h
  split at h <;> cases h <;> rfl

theorem remaining_eightByte (t t' : EpochTimeMs) (c : List UInt8) :
    remaining clp .eightByte ⟨t, c⟩ = remaining clp .eightByte ⟨t', c⟩ :=
  decoded_eightByte _ _ _

theorem remaining_fourByte {t t' : EpochTimeMs} {c : List UInt8}
    (h : remaining clp .fourByte ⟨t, c⟩ = remaining clp .fourByte ⟨t', c⟩) :
    t = t' ∨ ((itemDecoder clp .fourByte).parse c).1 = [] := by
  cases hp : ((itemDecoder clp .fourByte).parse c).1 with
  | nil => exact .inr rfl
  | cons i items =>
    obtain ⟨⟨m, v⟩, n⟩ := i
    simp only [remaining, hp, List.map_cons, decoded] at h
    have hv : t + v = t' + v := congrArg LogEventView.timestamp (List.cons.inj h).1
    left
    grind

theorem prefixes_eq_iff {α : Type} {l l' : List α} :
    (∀ p, p <+: l ↔ p <+: l') ↔ l = l' := by
  constructor
  · intro h
    have h₁ := (h l).mp List.prefix_rfl
    have h₂ := (h l').mpr List.prefix_rfl
    exact h₁.eq_of_length_le h₂.length_le
  · rintro rfl p
    rfl

theorem failed_search_holds {d : Deserializer} (hsrc : io.Conserves src)
    (hpi : clp.PositionIndependent) {queries : List WildcardQuery} {iv : TimestampInterval}
    {fuel : ℕ} {rd rd' : Reader σ} {err : GoError ε} {t : EpochTimeMs} {c : List UInt8}
    (hr : (itemDecoder clp d.encoding).Regular c) (h : rd.Holds src d ⟨t, c⟩)
    (hsearch : rd.readToWildcardMatchWithTimeInterval clp io queries iv fuel =
      some (rd', .error err)) : ∃ t', rd'.Holds src d ⟨t', c⟩ := by
  rcases search_refines hsrc hpi queries (fun _ => True) hr trivial h
      (fun _ _ _ _ _ _ _ => trivial) (Loop.ends_of_run hsearch) with
    ⟨_, t', _, _, _, h'⟩ | ⟨t', c', _, hc, h'⟩
  · exact ⟨t', h'⟩
  · obtain ⟨u, bytes⟩ := c'
    obtain rfl : bytes = c := search_error_bytes hc
    exact ⟨u, h'⟩

theorem sum_zero {l : List (Reader σ)} {f : Reader σ → Int64} (h : ∀ x ∈ l, f x = 0) :
    (l.map f).sum = 0 := by
  induction l with
  | nil => rfl
  | cons x l ih =>
    rw [List.map_cons, List.sum_cons, h x (by simp), ih (fun y hy => h y (by simp [hy]))]
    rfl

theorem drift_nil {d : Deserializer} (hsrc : io.Conserves src) (hpi : clp.PositionIndependent)
    {queries : List WildcardQuery} {iv : TimestampInterval} {fuel : ℕ} {rd : Reader σ}
    {t : EpochTimeMs} {c : List UInt8} (hr : (itemDecoder clp d.encoding).Regular c)
    (h : rd.Holds src d ⟨t, c⟩) (hnil : ((itemDecoder clp d.encoding).parse c).1 = []) :
    drift clp io queries iv fuel rd = 0 := by
  apply sum_zero
  intro x hx
  have hc := search_settles (ε := ε) iv hpi queries hr (fun _ => True)
  obtain ⟨ho, t', _, hd⟩ := (Loop.mem_trace hx).invariant
    (P := fun rd : Reader σ => rd.toReadBuf.Over src c ∧ ∃ t, True ∧ rd.deserializer = d.at t)
    (fun _ _ hp ht => Reader.turn_keeps hsrc hc hp.1 hp.2 (fun _ _ _ _ _ => trivial) ht)
    ⟨h.buffered, t, trivial, h.deserializer⟩
  have hpre := (ItemDecoder.parse_prefix hr ho.unread_prefix).1
  rw [hnil, List.prefix_nil] at hpre
  simp [scannedDeltas, hd, hpre, scanned]

theorem failed_search_iff (hpi : clp.PositionIndependent)
    (h : IrStream clp json enc metadata is stream) (hb : b <+: stream) {allowed : ε → Prop}
    {s : σ} {size : ℕ} (hsize : 0 < size) (hs : io.Delivers allowed s b) {rd rd' : Reader σ}
    (hrd : Reached clp json io s size rd) {queries : List WildcardQuery} {iv : TimestampInterval}
    {fuel : ℕ} {err : GoError ε}
    (hsearch : rd.readToWildcardMatchWithTimeInterval clp io queries iv fuel =
      some (rd', .error err)) :
    (∀ l, ReadEvents clp io rd l ↔ ReadEvents clp io rd' l) ↔
      enc = .eightByte ∨ drift clp io queries iv fuel rd = 0 := by
  have hsrc := io.delivers_conserves allowed
  obtain ⟨c₀, hr₀, t, c, hafter, hh⟩ := reached_later hsrc hpi h hb hsize hs hrd
  have hr := hafter.regular hr₀
  obtain ⟨t', h'⟩ := failed_search_holds hsrc hpi hr hh hsearch
  have hevents : (∀ l, ReadEvents clp io rd l ↔ ReadEvents clp io rd' l) ↔
      remaining clp enc ⟨t, c⟩ = remaining clp enc ⟨t', c⟩ := by
    rw [← prefixes_eq_iff]
    simp only [readEvents_iff hr hh, readEvents_iff hr h', encoding_newDeserializer]
  rw [hevents]
  cases enc with
  | eightByte => simp [remaining_eightByte t t' c]
  | fourByte =>
    have htime := search_drift hpi (by simp) hh.buffered.wf hh.deserializer hsearch
    rw [h'.deserializer, Deserializer.time_at] at htime
    constructor
    · intro heq
      rcases remaining_fourByte heq with ht | hnil
      · right
        grind
      · exact .inr (drift_nil hsrc hpi hr hh (by simpa using hnil))
    · rintro (hcontra | hzero)
      · cases hcontra
      · have ht : t' = t := by simpa [hzero] using htime
        rw [ht]

end reached

open SampleCodec IoReader in
theorem failed_search_harmless :
    (∃ rd rd', newReaderSize readApi jsonApi source
        (bytewise (stream .eightByte (ascii "UTC") 0 [(ascii "a", 5), (ascii "b", 10)])) 1 256 =
          some (.ok rd) ∧
      rd.readToWildcardMatchWithTimeInterval readApi source [] ⟨20, 30⟩ 256 =
        some (rd', .error (.ir .endOfIr)) ∧
      ∀ l, ReadEvents readApi source rd l ↔ ReadEvents readApi source rd' l) ∧
    ∃ rd rd', newReaderSize readApi jsonApi source
        [stream .fourByte (ascii "UTC") 0 [(ascii "a", 5), (ascii "b", -5)]] 256 4 =
          some (.ok rd) ∧
      rd.readToWildcardMatchWithTimeInterval readApi source [] ⟨20, 30⟩ 4 =
        some (rd', .error (.ir .endOfIr)) ∧
      ∀ l, ReadEvents readApi source rd l ↔ ReadEvents readApi source rd' l := by
  constructor
  · obtain ⟨metadata, hb⟩ := irStream .eightByte (ascii "UTC") 0
      [(ascii "a", 5), (ascii "b", 10)] (by decide +kernel) (by decide +kernel)
    have hreplay : replay
        (bytewise (stream .eightByte (ascii "UTC") 0 [(ascii "a", 5), (ascii "b", 10)])) 1 256
        [.readToWildcardMatchWithTimeInterval [] ⟨20, 30⟩] = some [.error (.ir .endOfIr)] := by
      decide +kernel
    obtain ⟨rd, rd', hnew, hx⟩ := replay_eq hreplay
    have hsearch := search_of_execAll hx
    exact ⟨rd, rd', hnew, hsearch, (failed_search_iff readApi_positionIndependent hb
      List.prefix_rfl Nat.one_pos (bytewise_delivers NoError _) ⟨256, rd, [], [], hnew, rfl⟩
      hsearch).mpr (.inl rfl)⟩
  · obtain ⟨metadata, hb⟩ := irStream .fourByte (ascii "UTC") 0
      [(ascii "a", 5), (ascii "b", -5)] (by decide +kernel) (by decide +kernel)
    have hreplay : replay
        [stream .fourByte (ascii "UTC") 0 [(ascii "a", 5), (ascii "b", -5)]] 256 4
        [.readToWildcardMatchWithTimeInterval [] ⟨20, 30⟩] = some [.error (.ir .endOfIr)] := by
      decide +kernel
    have hdrift : ((newReaderSize readApi jsonApi source
        [stream .fourByte (ascii "UTC") 0 [(ascii "a", 5), (ascii "b", -5)]] 256 4).bind
          Except.toOption).map (drift readApi source [] ⟨20, 30⟩ 4) = some 0 := by
      decide +kernel
    obtain ⟨rd, rd', hnew, hx⟩ := replay_eq hreplay
    have hsearch := search_of_execAll hx
    rw [hnew] at hdrift
    have hs := chunked_delivers (ε := Unit) NoError
      [stream .fourByte (ascii "UTC") 0 [(ascii "a", 5), (ascii "b", -5)]]
    rw [List.flatten_singleton] at hs
    exact ⟨rd, rd', hnew, hsearch, (failed_search_iff readApi_positionIndependent hb
      List.prefix_rfl (by decide) hs ⟨4, rd, [], [], hnew, rfl⟩ hsearch).mpr
        (.inr (Option.some.inj hdrift))⟩

open SampleCodec in
theorem failed_search_moves_timestamps :
    (∃ metadata, IrStream readApi jsonApi .fourByte metadata [(ascii "a", 5), (ascii "b", 5)]
      (stream .fourByte (ascii "UTC") 0 [(ascii "a", 5), (ascii "b", 5)])) ∧
    replay [stream .fourByte (ascii "UTC") 0 [(ascii "a", 5), (ascii "b", 5)]] 256 4
      [.read, .read] = some [.ok (⟨ascii "a", 5⟩, none), .ok (⟨ascii "b", 10⟩, none)] ∧
    replay [stream .fourByte (ascii "UTC") 0 [(ascii "a", 5), (ascii "b", 5)]] 256 4
      [.readToWildcardMatchWithTimeInterval [] ⟨0, 3⟩, .read, .read] =
        some [.error (.ir .queryNotFound), .ok (⟨ascii "a", 10⟩, none),
          .ok (⟨ascii "b", 15⟩, none)] :=
  ⟨irStream _ _ _ _ (by decide +kernel) (by decide +kernel), by decide +kernel, by decide +kernel⟩

end ClpFfiGo
