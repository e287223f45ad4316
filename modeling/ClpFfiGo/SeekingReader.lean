import ClpFfiGo.Foundation.Seek
import ClpFfiGo.EventCursor
import ClpFfiGo.ReadEvents

namespace ClpFfiGo

open Seek

variable {σ ε : Type} {clp : IrReadApi} {json : JsonApi ε} {io : IoReader σ ε}
  {src : σ → List UInt8 → Prop}

-- What a caller's own loop over `DeserializeLogEvent` makes of a stream held in memory.
inductive Deserializes (clp : IrReadApi) :
    Deserializer → List UInt8 → List LogEventView → GoError ε → Prop
  | stop {d d' b err} : deserializeLogEvent clp d b = (d', .error err) →
      Deserializes clp d b [] err
  | event {d d' b event n es err} : deserializeLogEvent (ε := ε) clp d b = (d', .ok (event, n)) →
      Deserializes clp d' (b.drop n) es err → Deserializes clp d b (event :: es) err

def funcRequest (f : LogEventView → Bool) : Request LogEventView where
  choose e := if f e then .take else .pass
  keeps := true

def searchRequest (query : GoString → Option ℕ) (iv : TimestampInterval) :
    Request LogEventView where
  choose e := if iv.upper ≤ e.timestamp then .bar
    else if iv.lower > e.timestamp then .pass
    else if (query e.logMessageView).isSome then .take else .pass
  keeps := false

def reported (last : GoError ε) : Outcome LogEventView ε → Except (GoError ε) LogEventView
  | .found e => .ok e
  | .barred => .error (.ir .queryNotFound)
  | .finished => .error last
  | .failed e => .error (.io e)

namespace ReaderOp

def request (clp : IrReadApi) : ReaderOp → Request LogEventView
  | .read => funcRequest fun _ => true
  | .readToFunc f => funcRequest f
  | .readToEpochTime time => funcRequest fun e => e.timestamp ≥ time
  | .readToContains s => funcRequest fun e => decide (s <:+: e.logMessageView)
  | .readToPrefix s => funcRequest fun e => s.isPrefixOf e.logMessageView
  | .readToSuffix s => funcRequest fun e => s.isSuffixOf e.logMessageView
  | .readToWildcardMatch qs => searchRequest (matchingQuery clp qs) ⟨0, Int64.maxValue⟩
  | .readToWildcardMatchWithTimeInterval qs iv => searchRequest (matchingQuery clp qs) iv

def index (clp : IrReadApi) (e : LogEventView) : ReaderOp → Option ℕ
  | .readToWildcardMatch qs => matchingQuery clp qs e.logMessageView
  | .readToWildcardMatchWithTimeInterval qs _ => matchingQuery clp qs e.logMessageView
  | _ => none

def result (clp : IrReadApi) (last : GoError ε) (op : ReaderOp)
    (o : Outcome LogEventView ε) : OpResult ε :=
  (reported last o).map fun e => (e, op.index clp e)

end ReaderOp

structure Reader.Before (clp : IrReadApi) (src : σ → List UInt8 → Prop) (d : Deserializer)
    (tail : IRErrorCode) (xs : List LogEventView) (rd : Reader σ) : Prop where
  place : ∃ c, rd.Holds src d c ∧ (itemDecoder clp d.encoding).Regular c.bytes ∧
    remaining clp d.encoding c = xs ∧ ((itemDecoder clp d.encoding).parse c.bytes).2 = tail

section steps

variable {d : Deserializer} {tail : IRErrorCode} {xs : List LogEventView} {rd rd' : Reader σ}
  {fuel : ℕ}

theorem read_before (hsrc : io.Conserves src) {res : Except (GoError ε) LogEventView}
    (h : rd.Before clp src d tail xs) (he : rd.read clp io fuel = some (rd', res)) :
    (∃ e, io.Fails src e ∧ res = .error (.io e) ∧ rd'.Before clp src d tail xs) ∨
      (∃ e ys, xs = e :: ys ∧ res = .ok e ∧ rd'.Before clp src d tail ys) ∨
      (xs = [] ∧ res = .error (.ir ⟨tail.toInt⟩) ∧ tail ≠ .incompleteIr ∧
        rd'.Before clp src d tail []) := by
  obtain ⟨c, hh, hr, hxs, htail⟩ := h.place
  rcases read_refines hsrc hr.settled hh (Loop.ends_of_run he) with
    ⟨e, hf, rfl, h'⟩ | ⟨c', hc, h'⟩
  · exact .inl ⟨e, hf, rfl, c, h', hr, hxs, htail⟩
  right
  cases hdec : (itemDecoder clp d.encoding).dec c.bytes with
  | ok r =>
    obtain ⟨⟨m, v⟩, n⟩ := r
    rw [Cursor.read_of_ok hdec] at hc
    cases hc
    rw [ItemDecoder.parse_ok hdec] at htail
    rw [remaining, ItemDecoder.parse_ok hdec] at hxs
    exact .inl ⟨_, _, hxs.symm, rfl, _, h', hr.drop hdec, rfl, htail⟩
  | error err =>
    have hnil : remaining clp d.encoding c = [] := by
      rw [remaining, ItemDecoder.parse_error hdec]
      rfl
    have herr : err = tail := by rw [← htail, ItemDecoder.parse_error hdec]
    subst herr
    rw [hnil] at hxs
    subst hxs
    rw [Cursor.read, hdec] at hc
    have hne : err ≠ .incompleteIr := by
      rintro rfl
      cases hc
    have hres : c' = c ∧ res = .error (.ir ⟨err.toInt⟩) := by
      cases err <;> cases hc <;> exact ⟨rfl, rfl⟩
    obtain ⟨rfl, rfl⟩ := hres
    exact .inr ⟨rfl, rfl, hne, c', h', hr, hnil, htail⟩

theorem readToFunc_scans (hsrc : io.Conserves src) (f : LogEventView → Bool)
    {res : Except (GoError ε) LogEventView} (h : rd.Before clp src d tail xs)
    (he : Reader.readToFunc clp io f fuel rd = some (rd', res)) :
    ∃ ys o, Scans (io.Fails src) (funcRequest f).choose xs ys o ∧
      res = reported (.ir ⟨tail.toInt⟩) o ∧ (o = .finished → tail ≠ .incompleteIr) ∧
      rd'.Before clp src d tail ys := by
  induction fuel generalizing rd xs with
  | zero => cases he
  | succ fuel ih =>
    rw [Reader.readToFunc] at he
    cases hread : rd.read clp io (fuel + 1) with
    | none =>
      rw [hread] at he
      cases he
    | some r =>
      obtain ⟨rd₁, res₁⟩ := r
      rw [hread] at he
      rcases read_before hsrc h hread with ⟨e, hf, rfl, h'⟩ | ⟨e, ys, rfl, rfl, h'⟩ |
        ⟨rfl, rfl, hne, h'⟩
      · cases he
        exact ⟨xs, .failed e, .failed hf, rfl, (fun h => by cases h), h'⟩
      · dsimp only at he
        by_cases hf : f e = true
        · rw [if_pos hf] at he
          cases he
          exact ⟨ys, .found e, .found (if_pos hf), rfl, (fun h => by cases h), h'⟩
        · rw [if_neg hf] at he
          obtain ⟨zs, o, hs, hrest⟩ := ih h' he
          exact ⟨zs, o, .pass (if_neg hf) hs, hrest⟩
      · cases he
        exact ⟨[], .finished, .finished, rfl, fun _ => hne, h'⟩

theorem decoded_views (t : EpochTimeMs) (is : List (GoString × EpochTimeMs)) :
    decoded .eightByte t is = is.map view := by
  induction is generalizing t with
  | nil => rfl
  | cons i is ih => exact congrArg (view i :: ·) (ih i.2)

-- What `scan` decides about eight-byte items, where the base of the timestamps does not matter.
inductive Sought (allowed : ε → Prop) (iv : TimestampInterval) (query : GoString → Option ℕ)
    (pos : ℕ) (items : List Item) : Option Verdict → Prop
  | finished : Scans allowed (searchRequest query iv).choose (items.map (view ∘ Prod.fst)) []
      .finished → Sought allowed iv query pos items none
  | reached {ys} : Scans allowed (searchRequest query iv).choose (items.map (view ∘ Prod.fst)) ys
      .barred → Sought allowed iv query pos items (some .reached)
  | found {e k j} : j ≤ items.length → query e.logMessageView = some k →
      Scans allowed (searchRequest query iv).choose (items.map (view ∘ Prod.fst))
        ((items.drop j).map (view ∘ Prod.fst)) (.found e) →
      Sought allowed iv query pos items
        (some (.found e k (pos + ((items.take j).map Prod.snd).sum)))

theorem Sought.later {allowed : ε → Prop} {iv : TimestampInterval} {query : GoString → Option ℕ}
    {pos : ℕ} {item : Item} {items : List Item} {verdict : Option Verdict}
    (hpass : (searchRequest query iv).choose (view item.1) = .pass)
    (h : Sought allowed iv query (pos + item.2) items verdict) :
    Sought allowed iv query pos (item :: items) verdict := by
  cases h with
  | finished h => exact .finished (.pass hpass h)
  | reached h => exact .reached (.pass hpass h)
  | @found e k j hj hk h =>
    have hpos : pos + item.2 + ((items.take j).map Prod.snd).sum =
        pos + (((item :: items).take (j + 1)).map Prod.snd).sum := by
      rw [List.take_succ_cons, List.map_cons, List.sum_cons, Nat.add_assoc]
    rw [hpos]
    exact .found (Nat.succ_le_succ hj) hk (.pass hpass h)

theorem scan_sought {allowed : ε → Prop} (iv : TimestampInterval) (query : GoString → Option ℕ)
    (pos : ℕ) (t : EpochTimeMs) (items : List Item) :
    Sought allowed iv query pos items (scan .eightByte iv query pos t items).2 := by
  induction items generalizing pos t with
  | nil => exact .finished .finished
  | cons item items ih =>
    obtain ⟨⟨m, v⟩, n⟩ := item
    have hnext := ih (pos + n) v
    by_cases hu : iv.upper ≤ v
    · have hscan : scan .eightByte iv query pos t (((m, v), n) :: items) = (v, some .reached) :=
        if_pos hu
      rw [hscan]
      exact .reached (.barred (if_pos hu))
    by_cases hl : iv.lower > v
    · have hscan : scan .eightByte iv query pos t (((m, v), n) :: items) =
          scan .eightByte iv query (pos + n) v items := (if_neg hu).trans (if_pos hl)
      rw [hscan]
      exact .later ((if_neg hu).trans (if_pos hl)) hnext
    have hchoose : (searchRequest query iv).choose ⟨m, v⟩ =
        if (query m).isSome then .take else .pass := (if_neg hu).trans (if_neg hl)
    cases hq : query m with
    | none =>
      rw [hq] at hchoose
      have hscan : scan .eightByte iv query pos t (((m, v), n) :: items) =
          scan .eightByte iv query (pos + n) v items := by simp [scan, hu, hl, hq]
      rw [hscan]
      exact .later hchoose hnext
    | some k =>
      rw [hq] at hchoose
      have hscan : scan .eightByte iv query pos t (((m, v), n) :: items) =
          (v, some (.found ⟨m, v⟩ k
            (pos + ((((m, v), n) :: items).take 1 |>.map Prod.snd).sum))) := by
        simp [scan, hu, hl, hq]
      rw [hscan]
      exact .found (by simp) hq (.found hchoose)

theorem search_before (hsrc : io.Conserves src) (hpi : clp.PositionIndependent)
    (hd : d.encoding = .eightByte) (queries : List WildcardQuery) (iv : TimestampInterval)
    {res : Except (GoError ε) (LogEventView × ℕ)} (h : rd.Before clp src d tail xs)
    (he : rd.readToWildcardMatchWithTimeInterval clp io queries iv fuel = some (rd', res)) :
    ∃ ys o, Answers (io.Fails src) (searchRequest (matchingQuery clp queries) iv) xs ys o ∧
      indexed res = (reported (.ir ⟨tail.toInt⟩) o).map
        (fun e => (e, matchingQuery clp queries e.logMessageView)) ∧
      (o = .finished → tail ≠ .incompleteIr) ∧ rd'.Before clp src d tail ys := by
  obtain ⟨⟨t, b⟩, hh, hr, hxs, htail⟩ := h.place
  have hviews : ∀ u b, remaining clp d.encoding ⟨u, b⟩ =
      ((itemDecoder clp d.encoding).parse b).1.map (view ∘ Prod.fst) := by
    intro u b
    rw [remaining, hd, decoded_views, List.map_map]
  rw [hviews] at hxs
  have hback : ∀ {u}, rd'.Holds src d ⟨u, b⟩ → rd'.Before clp src d tail xs := by
    intro u h'
    exact ⟨⟨u, b⟩, h', hr, (hviews u b).trans hxs, htail⟩
  rcases search_refines hsrc hpi queries (fun _ => True) hr trivial hh
      (fun _ _ _ _ _ _ _ => trivial) (Loop.ends_of_run he) with
    ⟨e, u, hf, _, rfl, h'⟩ | ⟨u, c', _, hc, h'⟩
  · exact ⟨xs, .failed e, .ended (.failed hf) rfl, rfl, (fun h => by cases h), hback h'⟩
  have hsought : Sought (io.Fails src) iv (matchingQuery clp queries) 0
      ((itemDecoder clp d.encoding).parse b).1 _ :=
    scan_sought iv (matchingQuery clp queries) 0 u ((itemDecoder clp d.encoding).parse b).1
  rw [← hd] at hsought
  rw [Cursor.search] at hc
  dsimp only at hc hr htail
  rcases hs : scan d.encoding iv (matchingQuery clp queries) 0 u
    ((itemDecoder clp d.encoding).parse b).1 with ⟨last, verdict⟩
  rw [hs] at hc hsought
  cases hsought with
  | finished h =>
    rw [hxs] at h
    rw [htail] at hc
    have hne : tail ≠ .incompleteIr := by
      rintro rfl
      cases hc
    have hres : c' = ⟨last, b⟩ ∧ res = .error (.ir ⟨tail.toInt⟩) := by
      cases tail <;> cases hc <;> exact ⟨rfl, rfl⟩
    obtain ⟨rfl, rfl⟩ := hres
    exact ⟨xs, .finished, .ended h rfl, rfl, fun _ => hne, hback h'⟩
  | reached h =>
    rw [hxs] at h
    cases hc
    exact ⟨xs, .barred, .ended h rfl, rfl, (fun h => by cases h), hback h'⟩
  | @found e k j hj hk h =>
    rw [hxs] at h
    cases hc
    refine ⟨_, .found e, .found h, ?_, (fun h => by cases h), _, h', ?_, ?_, ?_⟩
    · simp only [indexed, reported, Except.map, hk]
    · rw [Nat.zero_add]
      exact (ItemDecoder.after_items b j hj).regular hr
    · rw [hviews, Nat.zero_add, ItemDecoder.parse_drop b j hj]
    · rw [Nat.zero_add, ItemDecoder.parse_drop b j hj]
      exact htail

theorem exec_answers (hsrc : io.Conserves src) (hpi : clp.PositionIndependent) (op : ReaderOp)
    (hsearch : op.searches = true → d.encoding = .eightByte) {res : OpResult ε}
    (h : rd.Before clp src d tail xs) (he : op.exec clp io fuel rd = some (rd', res)) :
    ∃ ys o, Answers (io.Fails src) (op.request clp) xs ys o ∧
      res = op.result clp (.ir ⟨tail.toInt⟩) o ∧ (o = .finished → tail ≠ .incompleteIr) ∧
      rd'.Before clp src d tail ys := by
  have hfunc : ∀ f, (Reader.readToFunc clp io f fuel rd).map (Prod.map id plain) =
      some (rd', res) → ∃ ys o, Answers (io.Fails src) (funcRequest f) xs ys o ∧
        res = (reported (.ir ⟨tail.toInt⟩) o).map (fun e => (e, none)) ∧
        (o = .finished → tail ≠ .incompleteIr) ∧ rd'.Before clp src d tail ys := by
    intro f he
    obtain ⟨⟨rd₁, res₁⟩, hread, hmap⟩ := Option.map_eq_some_iff.mp he
    cases hmap
    obtain ⟨ys, o, hs, rfl, hrest⟩ := readToFunc_scans hsrc f h hread
    exact ⟨ys, o, hs.answers rfl, rfl, hrest⟩
  have hwildcard : d.encoding = .eightByte → ∀ queries iv,
      (rd.readToWildcardMatchWithTimeInterval clp io queries iv fuel).map (Prod.map id indexed) =
      some (rd', res) → ∃ ys o,
        Answers (io.Fails src) (searchRequest (matchingQuery clp queries) iv) xs ys o ∧
        res = (reported (.ir ⟨tail.toInt⟩) o).map
          (fun e => (e, matchingQuery clp queries e.logMessageView)) ∧
        (o = .finished → tail ≠ .incompleteIr) ∧ rd'.Before clp src d tail ys := by
    intro hd queries iv he
    obtain ⟨⟨rd₁, res₁⟩, hread, hmap⟩ := Option.map_eq_some_iff.mp he
    cases hmap
    exact search_before hsrc hpi hd queries iv h hread
  cases op with
  | read =>
    obtain ⟨⟨rd₁, res₁⟩, hread, hmap⟩ := Option.map_eq_some_iff.mp he
    cases hmap
    rcases read_before hsrc h hread with ⟨e, hf, rfl, h'⟩ | ⟨e, ys, rfl, rfl, h'⟩ |
      ⟨rfl, rfl, hne, h'⟩
    · exact ⟨xs, .failed e, .ended (.failed hf) rfl, rfl, (fun h => by cases h), h'⟩
    · exact ⟨ys, .found e, .found (.found rfl), rfl, (fun h => by cases h), h'⟩
    · exact ⟨[], .finished, .ended .finished rfl, rfl, fun _ => hne, h'⟩
  | readToFunc f => exact hfunc f he
  | readToEpochTime time => exact hfunc _ he
  | readToContains sub => exact hfunc _ he
  | readToPrefix pre => exact hfunc _ he
  | readToSuffix suffix => exact hfunc _ he
  | readToWildcardMatch queries => exact hwildcard (hsearch rfl) queries _ he
  | readToWildcardMatchWithTimeInterval queries iv => exact hwildcard (hsearch rfl) queries iv he

theorem result_complete {op : ReaderOp} {o : Outcome LogEventView ε}
    (ho : o = .finished → tail ≠ .incompleteIr) {err : GoError ε}
    (h : op.result clp (.ir ⟨tail.toInt⟩) o = .error err) : err.isIncomplete = false := by
  cases o with
  | found e => cases h
  | barred =>
    cases h
    rfl
  | finished =>
    have hne := ho rfl
    cases h
    cases tail with
    | incompleteIr => exact absurd rfl hne
    | decodeError => rfl
    | eof => rfl
    | corruptedIr => rfl
  | failed e =>
    cases h
    rfl

theorem execAll_run (hsrc : io.Conserves src) (hpi : clp.PositionIndependent)
    {ops : List ReaderOp} (hsearch : ∀ op ∈ ops, op.searches = true → d.encoding = .eightByte)
    {results : List (OpResult ε)} (h : rd.Before clp src d tail xs)
    (he : execAll clp io fuel rd ops = some (rd', results)) :
    (∀ err, .error err ∈ results → err.isIncomplete = false) ∧ ∃ outcomes rest,
      Run (io.Fails src) xs (ops.map (ReaderOp.request clp)) outcomes rest ∧
      results = List.zipWith (ReaderOp.result clp (.ir ⟨tail.toInt⟩)) ops outcomes ∧
      rd'.Before clp src d tail rest := by
  induction ops generalizing rd xs results with
  | nil =>
    cases he
    exact ⟨nofun, [], xs, .nil, rfl, h⟩
  | cons op ops ih =>
    rw [List.forall_mem_cons] at hsearch
    rw [execAll] at he
    cases hop : op.exec clp io fuel rd with
    | none =>
      rw [hop] at he
      cases he
    | some r =>
      obtain ⟨rd₁, res⟩ := r
      rw [hop] at he
      obtain ⟨⟨rd₂, rest⟩, hrest, hmap⟩ := Option.map_eq_some_iff.mp he
      cases hmap
      obtain ⟨ys, o, ha, rfl, ho, h₁⟩ := exec_answers hsrc hpi op hsearch.1 h hop
      obtain ⟨hcomplete, outcomes, zs, hrun, rfl, h₂⟩ := ih hsearch.2 h₁ hrest
      refine ⟨fun err hmem => ?_, o :: outcomes, zs, .cons ha hrun, rfl, h₂⟩
      rcases List.mem_cons.mp hmem with hres | hmem
      · exact result_complete ho hres.symm
      · exact hcomplete err hmem

variable (clp) in
theorem deserializes_remaining (d : Deserializer) (t : EpochTimeMs) (b : List UInt8) :
    Deserializes (ε := ε) clp (d.at t) b (remaining clp d.encoding ⟨t, b⟩)
      (.ir ⟨((itemDecoder clp d.encoding).parse b).2.toInt⟩) := by
  induction b using ItemDecoder.bytesInduction (D := itemDecoder clp d.encoding)
    generalizing t with
  | error b err hdec =>
    have hstop : deserializeLogEvent (ε := ε) clp (d.at t) b =
        (d.at t, .error (.ir ⟨err.toInt⟩)) := by
      rw [deserializeLogEvent_at, readAnswer, hdec]
    rw [remaining, ItemDecoder.parse_error hdec]
    exact .stop hstop
  | item b i n hdec ih =>
    obtain ⟨m, v⟩ := i
    have hevent : deserializeLogEvent (ε := ε) clp (d.at t) b =
        (d.at (stamp d.encoding t v), .ok (⟨m, stamp d.encoding t v⟩, n)) := by
      rw [deserializeLogEvent_at, readAnswer, hdec]
    rw [remaining, ItemDecoder.parse_ok hdec]
    exact .event hevent (ih _)

end steps

theorem Deserializes.unique {d : Deserializer} {b : List UInt8} {es es' : List LogEventView}
    {last last' : GoError ε} (h : Deserializes clp d b es last)
    (h' : Deserializes clp d b es' last') : es = es' ∧ last = last' := by
  induction h generalizing es' with
  | stop hstop =>
    cases h' with
    | stop hstop' =>
      rw [hstop] at hstop'
      cases hstop'
      exact ⟨rfl, rfl⟩
    | event hevent' _ =>
      rw [hstop] at hevent'
      cases hevent'
  | event hevent _ ih =>
    cases h' with
    | stop hstop' =>
      rw [hevent] at hstop'
      cases hstop'
    | event hevent' hrest' =>
      rw [hevent] at hevent'
      cases hevent'
      obtain ⟨rfl, rfl⟩ := ih hrest'
      exact ⟨rfl, rfl⟩

theorem newReaderSize_before (hsrc : io.Conserves src) (hp : clp.PrefixStable) {b : List UInt8}
    {d : Deserializer} {pos : ℕ} {events : List LogEventView} {last : GoError ε}
    (hpre : deserializePreamble clp json b = .ok (d, pos))
    (hdes : Deserializes clp d (b.drop pos) events last) {s : σ} {size : ℕ} (hsize : 0 < size)
    (hs : src s b) {fuel : ℕ} {rd : Reader σ}
    (hnew : newReaderSize clp json io s size fuel = some (.ok rd)) :
    ∃ tail, last = .ir ⟨tail.toInt⟩ ∧ rd.Before clp src d tail events := by
  have hbuilt := newReaderSize_built hsrc (PrefixStable.preambleSettled json hp b) hsize hs hnew
  cases hbuilt with
  | @returned _ d' t pos' hpre' hd hh =>
    rw [hpre] at hpre'
    cases hpre'
    rw [hd] at hdes
    obtain ⟨rfl, rfl⟩ := hdes.unique (deserializes_remaining clp d t (b.drop pos))
    exact ⟨_, rfl, _, hh, (itemDecoder_prefixStable hp d.encoding).regular _, rfl, rfl⟩

theorem reader_refines_deserializer (hp : clp.PrefixStable) (hpi : clp.PositionIndependent)
    {b : List UInt8} {d : Deserializer} {pos : ℕ} {events : List LogEventView} {last : GoError ε}
    (hpre : deserializePreamble clp json b = .ok (d, pos))
    (hdes : Deserializes clp d (b.drop pos) events last) {s : σ} {size : ℕ} (hsize : 0 < size)
    (hs : io.Feeds s b) {fuel : ℕ} {rd rd' : Reader σ}
    (hnew : newReaderSize clp json io s size fuel = some (.ok rd)) {ops : List ReaderOp}
    (hsearch : ∀ op ∈ ops, op.searches = true → d.encoding = .eightByte)
    {results : List (OpResult ε)} (hrun : execAll clp io fuel rd ops = some (rd', results)) :
    (∀ err, .error err ∈ results → err.isIncomplete = false) ∧ ∃ outcomes rest,
      Run (io.Fails io.Feeds) events (ops.map (ReaderOp.request clp)) outcomes rest ∧
      results = List.zipWith (ReaderOp.result clp last) ops outcomes := by
  obtain ⟨tail, rfl, hbefore⟩ := newReaderSize_before io.feeds_conserves hp hpre hdes hsize hs hnew
  obtain ⟨hcomplete, outcomes, rest, hseek, hresults, _⟩ :=
    execAll_run io.feeds_conserves hpi hsearch hbefore hrun
  exact ⟨hcomplete, outcomes, rest, hseek, hresults⟩

theorem IrStream.deserializes {enc : Encoding} {metadata : Metadata}
    {is : List (GoString × EpochTimeMs)} {b : List UInt8}
    (h : IrStream clp json enc metadata is b) :
    ∃ d pos, deserializePreamble clp json b = .ok (d, pos) ∧ d.encoding = enc ∧
      Deserializes clp d (b.drop pos) (decoded enc (initialTime enc metadata) is)
        (.ir .endOfIr : GoError ε) := by
  obtain ⟨pos, hf⟩ := h.facts
  have hdes := deserializes_remaining (ε := ε) clp (newDeserializer enc metadata ⟨0⟩)
    (initialTime enc metadata) (b.drop pos)
  rw [← newDeserializer_at, remaining, encoding_newDeserializer, hf.items, hf.tail] at hdes
  exact ⟨_, pos, hf.answer, encoding_newDeserializer enc metadata ⟨0⟩, hdes⟩

namespace SampleCodec

def hourly : List UInt8 :=
  stream .eightByte (ascii "UTC") 0
    [(ascii "a", 1), (ascii "b", 5), (ascii "c", 9), (ascii "b", 10)]

theorem hourly_deserializes : ∃ d pos, deserializePreamble readApi jsonApi hourly = .ok (d, pos) ∧
    d.encoding = .eightByte ∧ Deserializes readApi d (hourly.drop pos)
      [⟨ascii "a", 1⟩, ⟨ascii "b", 5⟩, ⟨ascii "c", 9⟩, ⟨ascii "b", 10⟩]
      (.ir .endOfIr : GoError Unit) := by
  obtain ⟨metadata, hb⟩ := irStream .eightByte (ascii "UTC") 0
    [(ascii "a", 1), (ascii "b", 5), (ascii "c", 9), (ascii "b", 10)] (by decide +kernel)
    (by decide +kernel)
  exact hb.deserializes

theorem hourly_feeds : source.Feeds (IoReader.bytewise hourly) hourly :=
  (IoReader.bytewise_delivers IoReader.NoError _).feeds

end SampleCodec

open SampleCodec in
theorem hourly_refines_deserializer : ∃ outcomes rest, Run (source.Fails source.Feeds)
    [⟨ascii "a", 1⟩, ⟨ascii "b", 5⟩, ⟨ascii "c", 9⟩, ⟨ascii "b", 10⟩]
    ([.readToContains (ascii "b"), .read].map (ReaderOp.request readApi)) outcomes rest ∧
    [.ok (⟨ascii "b", 5⟩, none), .ok (⟨ascii "c", 9⟩, none)] = List.zipWith
      (ReaderOp.result readApi (.ir .endOfIr)) [.readToContains (ascii "b"), .read] outcomes := by
  have hrun : replay (IoReader.bytewise hourly) 1 256 [.readToContains (ascii "b"), .read] =
      some [.ok (⟨ascii "b", 5⟩, none), .ok (⟨ascii "c", 9⟩, none)] := by decide +kernel
  obtain ⟨rd, rd', hnew, hexec⟩ := replay_eq hrun
  obtain ⟨d, pos, hpre, henc, hdes⟩ := hourly_deserializes
  exact (reader_refines_deserializer readApi_prefixStable readApi_positionIndependent hpre hdes
    Nat.one_pos hourly_feeds hnew (fun _ _ _ => henc) hexec).2

end ClpFfiGo
