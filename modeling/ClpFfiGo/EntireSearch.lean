import ClpFfiGo.CursorSearch
import ClpFfiGo.IrStream
import ClpFfiGo.PlainSearch
import ClpFfiGo.Operations
import ClpFfiGo.ReaderBuffer

namespace ClpFfiGo

variable {σ ε : Type} {clp : IrReadApi} {io : IoReader σ ε}

def matchesAny (clp : IrReadApi) (queries : List WildcardQuery) (event : LogEventView) : Bool :=
  queries.isEmpty || queries.any (WildcardQuery.matches clp event.logMessageView)

def upToFirst (f : LogEventView → Bool) (events : List LogEventView) : List LogEventView :=
  events.take (events.findIdx f + 1)

structure InSentinels (f : LogEventView → Bool) (events : List LogEventView) : Prop where
  upper : ∀ e ∈ upToFirst f events, e.timestamp ≠ Int64.maxValue
  lower : ∀ e ∈ events.find? f, 0 ≤ e.timestamp

def firstHit (enc : Encoding) (query : GoString → Option ℕ) :
    ℕ → EpochTimeMs → List Item → Option (LogEventView × ℕ × ℕ)
  | _, _, [] => none
  | pos, t, ((m, v), n) :: is => match query m with
    | none => firstHit enc query (pos + n) (stamp enc t v) is
    | some k => some (⟨m, stamp enc t v⟩, k, pos + n)

def foundAt (r : LogEventView × ℕ × ℕ) : Verdict := .found r.1 r.2.1 r.2.2

theorem matchesAny_eq (queries : List WildcardQuery) :
    matchesAny clp queries = fun e => (matchingQuery clp queries e.logMessageView).isSome := by
  funext e
  by_cases hq : queries = []
  · subst hq
    rfl
  · have he : queries.isEmpty = false := by simpa using hq
    rw [matchingQuery_of_ne_nil clp hq, List.findIdx?_isSome, matchesAny, he, Bool.false_or]

section sentinels

variable {f : LogEventView → Bool} {e : LogEventView} {es : List LogEventView}

theorem inSentinels_of_hit (h : f e = true) :
    InSentinels f (e :: es) ↔ e.timestamp ≠ Int64.maxValue ∧ 0 ≤ e.timestamp := by
  have hup : upToFirst f (e :: es) = [e] := by
    simp [upToFirst, List.findIdx_cons, h]
  constructor
  · intro hs
    exact ⟨hs.upper e (by simp [hup]), hs.lower e (by simp [h])⟩
  · rintro ⟨hmax, hneg⟩
    constructor
    · intro e' he
      rw [hup, List.mem_singleton] at he
      exact he ▸ hmax
    · intro e' he
      rw [List.find?_cons_of_pos h, Option.mem_some_iff] at he
      exact he ▸ hneg

theorem inSentinels_of_miss (h : f e = false) :
    InSentinels f (e :: es) ↔ e.timestamp ≠ Int64.maxValue ∧ InSentinels f es := by
  have hup : upToFirst f (e :: es) = e :: upToFirst f es := by
    simp [upToFirst, List.findIdx_cons, h]
  have hfind : (e :: es).find? f = es.find? f := List.find?_cons_of_neg (by simp [h])
  constructor
  · rintro ⟨hu, hl⟩
    rw [hup, List.forall_mem_cons] at hu
    rw [hfind] at hl
    exact ⟨hu.1, hu.2, hl⟩
  · rintro ⟨hmax, hu, hl⟩
    constructor
    · rw [hup, List.forall_mem_cons]
      exact ⟨hmax, hu⟩
    · rw [hfind]
      exact hl

theorem inSentinels_nil : InSentinels f [] := by
  constructor
  · intro e he
    cases he
  · intro e he
    cases he

theorem maxValue_le {t : EpochTimeMs} : Int64.maxValue ≤ t ↔ t = Int64.maxValue := by
  constructor
  · intro h
    exact Int64.le_antisymm (Int64.le_iff_toInt_le.mpr t.toInt_le) h
  · rintro rfl
    exact Int64.le_refl _

end sentinels

section scanning

variable {enc : Encoding} {iv : TimestampInterval} {query : GoString → Option ℕ} {pos : ℕ}
  {t : EpochTimeMs} {is : List Item} {event : LogEventView} {k p : ℕ}

theorem scan_found_event {last : EpochTimeMs}
    (h : scan enc iv query pos t is = (last, some (.found event k p))) :
    last = event.timestamp ∧ iv.lower ≤ event.timestamp ∧
      query event.logMessageView = some k := by
  induction is generalizing pos t with
  | nil => cases h
  | cons i is ih =>
    obtain ⟨⟨m, v⟩, n⟩ := i
    rw [scan] at h
    split at h
    · cases h
    · split at h
      · exact ih h
      · rename_i hl
        cases hq : query m with
        | none =>
          rw [hq] at h
          exact ih h
        | some k' =>
          rw [hq] at h
          cases h
          exact ⟨rfl, Int64.not_lt.mp hl, hq⟩

theorem firstHit_query (h : firstHit enc query pos t is = some (event, k, p)) :
    query event.logMessageView = some k := by
  induction is generalizing pos t with
  | nil => cases h
  | cons i is ih =>
    obtain ⟨⟨m, v⟩, n⟩ := i
    rw [firstHit] at h
    cases hq : query m with
    | none =>
      rw [hq] at h
      exact ih h
    | some k' =>
      rw [hq] at h
      cases h
      exact hq

-- The search passes over a negative event and ends at a maximal one; on all others it
-- does what a scan without an interval does.
theorem scan_eq_firstHit_iff (pos : ℕ) (t : EpochTimeMs) (is : List Item) :
    (scan enc ⟨0, Int64.maxValue⟩ query pos t is).2 =
        (firstHit enc query pos t is).map foundAt ↔
      InSentinels (fun e => (query e.logMessageView).isSome)
        (decoded enc t (is.map Prod.fst)) := by
  induction is generalizing pos t with
  | nil =>
    simp only [scan, firstHit, Option.map_none, List.map_nil, decoded, inSentinels_nil]
  | cons i is ih =>
    obtain ⟨⟨m, v⟩, n⟩ := i
    simp only [List.map_cons, decoded]
    by_cases hmax : Int64.maxValue ≤ stamp enc t v
    · have hscan : scan enc ⟨0, Int64.maxValue⟩ query pos t (((m, v), n) :: is) =
          (stamp enc t v, some .reached) := by
        rw [scan, if_pos hmax]
      rw [hscan]
      constructor
      · intro h
        obtain ⟨r, _, hr⟩ := Option.map_eq_some_iff.mp h.symm
        cases hr
      · intro h
        exact absurd (maxValue_le.mp hmax) (h.upper ⟨m, stamp enc t v⟩ (by simp [upToFirst]))
    · have hne : stamp enc t v ≠ Int64.maxValue := fun h => hmax (maxValue_le.mpr h)
      have next := ih (pos + n) (stamp enc t v)
      rw [scan, if_neg hmax, firstHit]
      cases hq : query m with
      | none =>
        rw [inSentinels_of_miss (by simp [hq])]
        dsimp only
        rw [ite_self, next]
        exact (and_iff_right hne).symm
      | some k =>
        rw [inSentinels_of_hit (by simp [hq])]
        dsimp only
        by_cases hneg : 0 > stamp enc t v
        · rw [if_pos hneg]
          constructor
          · intro h
            rcases hs : scan enc ⟨0, Int64.maxValue⟩ query (pos + n) (stamp enc t v) is with
              ⟨last, verdict⟩
            rw [hs] at h
            dsimp only at h
            rw [h] at hs
            exact absurd (scan_found_event hs).2.1 (Int64.not_le.mpr hneg)
          · rintro ⟨_, h⟩
            exact absurd h (Int64.not_le.mpr hneg)
        · rw [if_neg hneg]
          exact iff_of_true rfl ⟨hne, Int64.not_lt.mp hneg⟩

end scanning

def Reader.advanced (rd : Reader σ) (pos : ℕ) (t : EpochTimeMs) : Reader σ :=
  { rd with start := rd.start + pos, deserializer := rd.deserializer.at t }

-- The unread part, through `Eof`, is in the buffer; `t` is the time of the event before it.
structure Reader.Buffers (clp : IrReadApi) (is : List (GoString × EpochTimeMs)) (t : EpochTimeMs)
    (rd : Reader σ) : Prop where
  wf : rd.WF
  cptr : rd.deserializer.cptr = some ⟨t⟩
  unread : ∃ ps rest, rd.unread = ps.flatten ++ 0 :: rest ∧
    List.Forall₂ (EventBytes clp rd.deserializer.encoding) ps is

structure SameAnswer (func : Reader σ × Except (GoError ε) LogEventView)
    (wild : Reader σ × Except (GoError ε) (LogEventView × ℕ)) : Prop where
  result : wild.2.map Prod.fst = func.2
  reader : ∀ event, func.2 = .ok event → wild.1 = func.1

inductive FuncAnswer (rd : Reader σ) :
    Option (LogEventView × ℕ × ℕ) → Reader σ × Except (GoError ε) LogEventView → Prop
  | found {event k pos} :
      FuncAnswer rd (some (event, k, pos)) (rd.advanced pos event.timestamp, .ok event)
  | ended {rd'} : FuncAnswer rd none (rd', .error (.ir .endOfIr))

inductive WildAnswer (rd : Reader σ) :
    Option Verdict → Reader σ × Except (GoError ε) (LogEventView × ℕ) → Prop
  | found {event k pos} : WildAnswer rd (some (.found event k pos))
      (rd.advanced pos event.timestamp, .ok (event, k))
  | reached {rd'} : WildAnswer rd (some .reached) (rd', .error (.ir .queryNotFound))
  | ended {rd'} : WildAnswer rd none (rd', .error (.ir .endOfIr))

section reading

variable {rd : Reader σ} {query : GoString → Option ℕ} {f : LogEventView → Bool}

theorem Reader.advanced_zero {t : EpochTimeMs} (h : rd.deserializer.cptr = some ⟨t⟩) :
    rd.advanced 0 t = rd := by
  rw [Reader.advanced, Deserializer.at_of_cptr h, Nat.add_zero]

theorem Reader.slice_advanced {pos : ℕ} (hw : rd.WF) (hp : pos ≤ rd.unread.length) :
    Slice.slice? rd.buf (rd.start + pos) rd.stop = some (rd.unread.drop pos) := by
  have hslice := (hw.consume hp).slice
  rw [ReadBuf.unread_consume] at hslice
  exact hslice

variable (io) in
theorem Reader.turn_advanced {β : Type} {call : Reader.Call ε β} {pos n : ℕ}
    {t t' : EpochTimeMs} {event : β} (hw : rd.WF) (hp : pos ≤ rd.unread.length)
    (h : call (rd.deserializer.at t) (rd.unread.drop pos) =
      (rd.deserializer.at t', .ok (event, n))) :
    Reader.turn io call (rd.advanced pos t) = .inr (rd.advanced (pos + n) t', .ok event) := by
  rw [Reader.turn, Reader.advanced]
  dsimp only
  rw [slice_advanced hw hp]
  dsimp only
  rw [h]
  dsimp only
  rw [Reader.advanced, Nat.add_assoc]

theorem Reader.turn_refused {β : Type} {call : Reader.Call ε β} {pos : ℕ}
    {t t' : EpochTimeMs} {err : GoError ε} (hw : rd.WF) (hp : pos ≤ rd.unread.length)
    (h : call (rd.deserializer.at t) (rd.unread.drop pos) = (rd.deserializer.at t', .error err))
    (hi : err.isIncomplete = false) :
    Reader.turn io call (rd.advanced pos t) = .inr (rd.advanced pos t', .error err) := by
  rw [Reader.turn, Reader.advanced]
  dsimp only
  rw [slice_advanced hw hp]
  dsimp only
  rw [h]
  dsimp only
  rw [hi]
  rfl

variable (io) in
-- Each item of the buffer is one `Read`, and none of them needs a refill.
theorem readToFunc_answer (hw : rd.WF) (hf : ∀ e, f e = (query e.logMessageView).isSome)
    (pos : ℕ) (t : EpochTimeMs) (hp : pos ≤ rd.unread.length)
    (htail : ((itemDecoder clp rd.deserializer.encoding).parse (rd.unread.drop pos)).2 = .eof) :
    ∃ fuel r, Reader.readToFunc clp io f fuel (rd.advanced pos t) = some r ∧
      FuncAnswer (ε := ε) rd (firstHit rd.deserializer.encoding query pos t
        ((itemDecoder clp rd.deserializer.encoding).parse (rd.unread.drop pos)).1) r := by
  generalize hb : rd.unread.drop pos = b at htail
  induction b using ItemDecoder.bytesInduction (D := itemDecoder clp rd.deserializer.encoding)
    generalizing pos t with
  | error b err hdec =>
    rw [ItemDecoder.parse_error hdec] at htail
    dsimp only at htail
    subst htail
    have hturn : Reader.readTurn clp io (rd.advanced pos t) =
        .inr (rd.advanced pos t, .error (.ir (.endOfIr : IrError) : GoError ε)) := by
      apply Reader.turn_refused hw hp
      · rw [hb, deserializeLogEvent_at, readAnswer, hdec]
        rfl
      · rfl
    refine ⟨1, (rd.advanced pos t, .error (.ir .endOfIr)), ?_, ?_⟩
    · rw [Reader.readToFunc, Reader.read, Loop.run, hturn]
    · rw [ItemDecoder.parse_error hdec]
      exact .ended
  | item b i n hdec ih =>
    obtain ⟨m, v⟩ := i
    have hn := ((itemDecoder clp rd.deserializer.encoding).advance hdec).2
    rw [← hb, List.length_drop] at hn
    rw [ItemDecoder.parse_ok hdec] at htail ⊢
    have hturn : Reader.readTurn clp io (rd.advanced pos t) =
        .inr (rd.advanced (pos + n) (stamp rd.deserializer.encoding t v),
          (.ok ⟨m, stamp rd.deserializer.encoding t v⟩ : Except (GoError ε) LogEventView)) := by
      apply Reader.turn_advanced io hw hp
      rw [hb, deserializeLogEvent_at, readAnswer, hdec]
    cases hq : query m with
    | some k =>
      refine ⟨1, (rd.advanced (pos + n) (stamp rd.deserializer.encoding t v),
        .ok ⟨m, stamp rd.deserializer.encoding t v⟩), ?_, ?_⟩
      · rw [Reader.readToFunc, Reader.read, Loop.run, hturn]
        dsimp only
        rw [hf, if_pos (by simp [hq])]
      · rw [firstHit, hq]
        exact .found
    | none =>
      obtain ⟨fuel, r, hr, hanswer⟩ := ih (pos + n)
        (stamp rd.deserializer.encoding t v) (by omega) (by rw [← hb, List.drop_drop]) htail
      refine ⟨fuel + 1, r, ?_, ?_⟩
      · rw [Reader.readToFunc, Reader.read, Loop.run, hturn]
        dsimp only
        rw [hf, if_neg (by simp [hq])]
        exact hr
      · rw [firstHit, hq]
        exact hanswer

variable (io) in
theorem wildcardMatch_answer (hpi : clp.PositionIndependent) (queries : List WildcardQuery)
    (hw : rd.WF) (t : EpochTimeMs)
    (htail : ((itemDecoder clp rd.deserializer.encoding).parse rd.unread).2 = .eof) :
    ∃ r, (rd.advanced 0 t).readToWildcardMatch clp io queries 1 = some r ∧
      WildAnswer (ε := ε) rd (scan rd.deserializer.encoding ⟨0, Int64.maxValue⟩
        (matchingQuery clp queries) 0 t
        ((itemDecoder clp rd.deserializer.encoding).parse rd.unread).1).2 r := by
  have hcall := @deserializeWildcardMatch_at clp ⟨0, Int64.maxValue⟩ ε hpi queries
    rd.deserializer t rd.unread
  rw [searchAnswer_eq, htail] at hcall
  have hrun : ∀ {r : Reader σ × Except (GoError ε) (LogEventView × ℕ)},
      Reader.turn io (deserializeWildcardMatch clp (mergeWildcardQueries queries)
        ⟨0, Int64.maxValue⟩) (rd.advanced 0 t) = .inr r →
      (rd.advanced 0 t).readToWildcardMatch clp io queries 1 = some r := by
    intro r hr
    rw [Reader.readToWildcardMatch, Reader.readToWildcardMatchWithTimeInterval, Loop.run,
      Reader.searchTurn, hr]
  rcases hs : scan rd.deserializer.encoding ⟨0, Int64.maxValue⟩ (matchingQuery clp queries) 0 t
    ((itemDecoder clp rd.deserializer.encoding).parse rd.unread).1 with ⟨last, verdict⟩
  rw [hs] at hcall
  cases verdict with
  | none => exact ⟨_, hrun (Reader.turn_refused hw (Nat.zero_le _) hcall rfl), .ended⟩
  | some v =>
    cases v with
    | reached => exact ⟨_, hrun (Reader.turn_refused hw (Nat.zero_le _) hcall rfl), .reached⟩
    | found event k pos =>
      have hturn := Reader.turn_advanced io hw (Nat.zero_le _) hcall
      rw [Nat.zero_add, (scan_found_event hs).1] at hturn
      exact ⟨_, hrun hturn, .found⟩

theorem sameAnswer_iff {hit : Option (LogEventView × ℕ × ℕ)} {verdict : Option Verdict}
    {func : Reader σ × Except (GoError ε) LogEventView}
    {wild : Reader σ × Except (GoError ε) (LogEventView × ℕ)}
    (hfunc : FuncAnswer rd hit func) (hwild : WildAnswer rd verdict wild)
    (hhit : ∀ event k pos, hit = some (event, k, pos) → query event.logMessageView = some k)
    (hverdict : ∀ event k pos, verdict = some (.found event k pos) →
      query event.logMessageView = some k) :
    SameAnswer func wild ↔ verdict = hit.map foundAt := by
  cases hfunc with
  | ended =>
    cases hwild with
    | ended => exact iff_of_true ⟨rfl, fun _ h => by cases h⟩ rfl
    | reached => exact iff_of_false (fun h => by cases h.result) (fun h => by cases h)
    | found => exact iff_of_false (fun h => by cases h.result) (fun h => by cases h)
  | @found event k pos =>
    cases hwild with
    | ended => exact iff_of_false (fun h => by cases h.result) (fun h => by cases h)
    | reached => exact iff_of_false (fun h => by cases h.result) (fun h => by cases h)
    | @found event' k' pos' =>
      constructor
      · intro h
        obtain rfl : event' = event := Except.ok.inj h.result
        have hstart := congrArg (fun rd => rd.start) (h.reader _ rfl)
        obtain rfl : pos' = pos := Nat.add_left_cancel hstart
        have hk := hhit _ _ _ rfl
        rw [hverdict _ _ _ rfl] at hk
        cases hk
        rfl
      · intro h
        cases h
        exact ⟨rfl, fun _ _ => rfl⟩

end reading

theorem Reader.Buffers.parse {is : List (GoString × EpochTimeMs)} {t : EpochTimeMs}
    {rd : Reader σ} (heof : EofByte clp) (h : rd.Buffers clp is t) :
    ((itemDecoder clp rd.deserializer.encoding).parse rd.unread).1.map Prod.fst = is ∧
      ((itemDecoder clp rd.deserializer.encoding).parse rd.unread).2 = .eof := by
  obtain ⟨ps, rest, hu, hps⟩ := h.unread
  have hexact : List.Forall₂ (itemDecoder clp rd.deserializer.encoding).Exact ps is :=
    hps.imp fun _ _ hp => hp.exact
  have hparse := ItemDecoder.parse_items hexact (0 :: rest)
  rw [ItemDecoder.parse_error (heof.dec rest), List.append_nil] at hparse
  rw [hu, hparse]
  exact ⟨List.map_fst_zip (by rw [List.length_map, hps.length_eq]), rfl⟩

theorem wildcardMatch_entire_iff (hpi : clp.PositionIndependent) (heof : EofByte clp)
    (io : IoReader σ ε) (queries : List WildcardQuery) {is : List (GoString × EpochTimeMs)}
    {t : EpochTimeMs} {rd : Reader σ} (h : rd.Buffers clp is t) :
    ∃ fuel func wild, Reader.readToFunc clp io (matchesAny clp queries) fuel rd = some func ∧
      rd.readToWildcardMatch clp io queries fuel = some wild ∧
      (SameAnswer func wild ↔
        InSentinels (matchesAny clp queries) (decoded rd.deserializer.encoding t is)) := by
  obtain ⟨hitems, htail⟩ := h.parse heof
  have hf : ∀ e, matchesAny clp queries e =
      (matchingQuery clp queries e.logMessageView).isSome := congrFun (matchesAny_eq queries)
  obtain ⟨fuel, func, hfunc, hhit⟩ := readToFunc_answer io h.wf hf 0 t (Nat.zero_le _) htail
  obtain ⟨wild, hwild, hverdict⟩ := wildcardMatch_answer io hpi queries h.wf t htail
  rw [Reader.advanced_zero h.cptr] at hfunc hwild
  refine ⟨fuel + 1, func, wild, readToFunc_mono hfunc (by omega),
    Loop.run_mono hwild (by omega), ?_⟩
  rw [sameAnswer_iff hhit hverdict, matchesAny_eq, ← hitems]
  · exact scan_eq_firstHit_iff 0 t _
  · intro event k pos he
    exact firstHit_query he
  · intro event k pos he
    exact (scan_found_event (Prod.ext rfl he)).2.2

section sampling

open SampleCodec

def SampleCodec.buffered (enc : Encoding) (is : List (GoString × EpochTimeMs)) :
    Reader (List (List UInt8)) where
  ioReader := []
  buf := (is.map (fun i : GoString × EpochTimeMs => event enc i.1 i.2)).flatten ++ [0]
  start := 0
  stop := ((is.map (fun i : GoString × EpochTimeMs => event enc i.1 i.2)).flatten ++ [0]).length
  deserializer := newDeserializer enc (fun _ => none) ⟨0⟩

theorem SampleCodec.buffers (enc : Encoding) (is : List (GoString × EpochTimeMs))
    (hi : ∀ i ∈ is, valid enc i = true) : (buffered enc is).Buffers readApi is 0 := by
  have hd : (buffered enc is).deserializer.encoding = enc := by cases enc <;> rfl
  constructor
  · exact ⟨Nat.zero_le _, le_refl _⟩
  · cases enc <;> rfl
  · refine ⟨is.map (fun i => event enc i.1 i.2), [], ?_, ?_⟩
    · exact Slice.between_length _ 0
    · rw [hd]
      exact eventParts hi

theorem second_event_entire_search : ∃ fuel func wild,
    Reader.readToFunc readApi source (matchesAny readApi [⟨ascii "b", true⟩]) fuel
      (buffered .fourByte [(ascii "a", -5), (ascii "b", 12)]) = some func ∧
    (buffered .fourByte [(ascii "a", -5), (ascii "b", 12)]).readToWildcardMatch readApi source
      [⟨ascii "b", true⟩] fuel = some wild ∧ SameAnswer func wild := by
  obtain ⟨fuel, func, wild, hfunc, hwild, hsame⟩ := wildcardMatch_entire_iff
    readApi_positionIndependent codec.eof source [⟨ascii "b", true⟩]
    (buffers .fourByte [(ascii "a", -5), (ascii "b", 12)] (by decide +kernel))
  refine ⟨fuel, func, wild, hfunc, hwild, hsame.mpr ⟨?_, ?_⟩⟩
  · decide +kernel
  · decide +kernel

theorem sentinel_events_unfound :
    (buffered .eightByte [(ascii "a", -5)]).Buffers readApi [(ascii "a", -5)] 0 ∧
    (Reader.readToFunc readApi source (matchesAny readApi []) 4
      (buffered .eightByte [(ascii "a", -5)])).map Prod.snd = some (.ok ⟨ascii "a", -5⟩) ∧
    ((buffered .eightByte [(ascii "a", -5)]).readToWildcardMatch readApi source [] 4).map
      Prod.snd = some (.error (.ir .endOfIr)) ∧
    (buffered .eightByte [(ascii "a", Int64.maxValue)]).Buffers readApi
      [(ascii "a", Int64.maxValue)] 0 ∧
    (Reader.readToFunc readApi source (matchesAny readApi []) 4
      (buffered .eightByte [(ascii "a", Int64.maxValue)])).map Prod.snd =
        some (.ok ⟨ascii "a", Int64.maxValue⟩) ∧
    ((buffered .eightByte [(ascii "a", Int64.maxValue)]).readToWildcardMatch readApi source []
      4).map Prod.snd = some (.error (.ir .queryNotFound)) ∧
    replay [stream .eightByte (ascii "UTC") 0 [(ascii "a", -5)]] 256 4
      [.readToFunc (matchesAny readApi [])] = some [.ok (⟨ascii "a", -5⟩, none)] ∧
    replay [stream .eightByte (ascii "UTC") 0 [(ascii "a", -5)]] 256 4
      [.readToWildcardMatch []] = some [.error (.ir .endOfIr)] :=
  ⟨buffers _ _ (by decide +kernel), by decide +kernel, by decide +kernel,
    buffers _ _ (by decide +kernel), by decide +kernel, by decide +kernel, by decide +kernel,
    by decide +kernel⟩

end sampling

end ClpFfiGo
