import ClpFfiGo.Deserializer
import ClpFfiGo.Foundation.ItemStream

namespace ClpFfiGo

variable {clp : IrReadApi} {enc : Encoding}

abbrev Item := (GoString × EpochTimeMs) × ℕ

def stamp (enc : Encoding) (t value : EpochTimeMs) : EpochTimeMs :=
  Native.Deserializer.stamp ⟨t⟩ enc value

@[simp] theorem stamp_eightByte (t v : EpochTimeMs) : stamp .eightByte t v = v := rfl

@[simp] theorem stamp_fourByte (t v : EpochTimeMs) : stamp .fourByte t v = t + v := rfl

def decoded (enc : Encoding) : EpochTimeMs → List (GoString × EpochTimeMs) → List LogEventView
  | _, [] => []
  | t, (m, v) :: is => ⟨m, stamp enc t v⟩ :: decoded enc (stamp enc t v) is

theorem decoded_eightByte (t u : EpochTimeMs) (is : List (GoString × EpochTimeMs)) :
    decoded .eightByte t is = decoded .eightByte u is := by
  cases is <;> rfl

theorem nextLogEvent_bounds {r : BufferReader} {e : GoString × EpochTimeMs} {p : ℕ}
    (h : Native.nextLogEvent clp enc r = .ok (e, p)) : r.pos < p ∧ p ≤ r.data.length := by
  rw [Native.nextLogEvent] at h
  cases ht : clp.deserializeTag r with
  | error err => rw [ht] at h; cases h
  | ok tp =>
    obtain ⟨tag, q⟩ := tp
    rw [ht] at h
    dsimp only at h
    split at h
    · cases h
    · have hb := clp.tag_bounds ht
      have he := clp.event_bounds h
      exact ⟨by dsimp only at he; omega, he.2⟩

theorem nextLogEvent_end {r : BufferReader} (h : r.data.length ≤ r.pos) :
    Native.nextLogEvent clp enc r = .error .incompleteIr := by
  simp [Native.nextLogEvent, clp.tag_end h]

def itemDecoder (clp : IrReadApi) (enc : Encoding) :
    ItemDecoder UInt8 (GoString × EpochTimeMs) IRErrorCode where
  dec b := Native.nextLogEvent clp enc ⟨b, 0⟩
  more := .incompleteIr
  advance h := nextLogEvent_bounds h

theorem itemDecoder_nil : (itemDecoder clp enc).dec [] = .error .incompleteIr :=
  nextLogEvent_end (le_refl _)

theorem nextLogEvent_at (h : clp.PositionIndependent) (enc : Encoding) (b : List UInt8) (p : ℕ)
    (hp : p ≤ b.length) :
    Native.nextLogEvent clp enc ⟨b, p⟩ =
      ((itemDecoder clp enc).dec (b.drop p)).map (fun r => (r.1, p + r.2)) := by
  have hl : (b.take p).length = p := by simp [hp]
  have ht := h.tag (b.take p) (b.drop p) 0
  rw [List.take_append_drop, hl, Nat.add_zero] at ht
  simp only [itemDecoder, Native.nextLogEvent]
  rw [ht]
  cases clp.deserializeTag ⟨b.drop p, 0⟩ with
  | error err => rfl
  | ok tp =>
    obtain ⟨tag, q⟩ := tp
    have he := h.event enc (b.take p) (b.drop p) q tag
    rw [List.take_append_drop, hl] at he
    simp only [Except.map]
    split
    · rfl
    · exact he

theorem itemDecoder_prefixStable (h : clp.PrefixStable) (enc : Encoding) :
    (itemDecoder clp enc).PrefixStable := by
  intro b x hb
  simp only [itemDecoder, Native.nextLogEvent] at hb ⊢
  have ht : clp.deserializeTag ⟨b, 0⟩ ≠ .error .incompleteIr := by
    intro hm
    simp [hm] at hb
  rw [h.tag b 0 x ht]
  cases hd : clp.deserializeTag ⟨b, 0⟩ with
  | error err => rfl
  | ok tp =>
    obtain ⟨tag, q⟩ := tp
    rw [hd] at hb
    dsimp only at hb ⊢
    split
    · rfl
    · rename_i htag
      rw [if_neg htag] at hb
      exact h.event enc b q x tag hb

def Deserializer.at (d : Deserializer) (t : EpochTimeMs) : Deserializer := d.setCptr (some ⟨t⟩)

@[simp] theorem Deserializer.encoding_at (d : Deserializer) (t : EpochTimeMs) :
    (d.at t).encoding = d.encoding := encoding_setCptr d _

@[simp] theorem Deserializer.cptr_at (d : Deserializer) (t : EpochTimeMs) :
    (d.at t).cptr = some ⟨t⟩ := cptr_setCptr d _

@[simp] theorem Deserializer.at_setCptr (d : Deserializer) (t u : EpochTimeMs) :
    (d.at t).setCptr (some ⟨u⟩) = d.at u := setCptr_setCptr d _ _

section answers

variable {ε : Type} (d : Deserializer) (t : EpochTimeMs) (b : List UInt8)

def readAnswer (clp : IrReadApi) : Deserializer × Except (GoError ε) (LogEventView × ℕ) :=
  match (itemDecoder clp d.encoding).dec b with
  | .error err => (d.at t, .error (.ir ⟨err.toInt⟩))
  | .ok ((m, v), n) =>
    (d.at (stamp d.encoding t v), .ok (⟨m, stamp d.encoding t v⟩, n))

theorem deserializeLogEvent_at :
    deserializeLogEvent (ε := ε) clp (d.at t) b = readAnswer d t b clp := by
  unfold deserializeLogEvent readAnswer
  by_cases hb : 0 ≥ b.length
  · have hn : b = [] := List.length_eq_zero_iff.mp (by omega)
    subst hn
    rw [if_pos hb, itemDecoder_nil]
    rfl
  · rw [if_neg hb]
    simp only [Native.deserializeLogEvent, Deserializer.cptr_at, Deserializer.encoding_at,
      itemDecoder]
    cases Native.nextLogEvent clp d.encoding ⟨b, 0⟩ with
    | error err => simp
    | ok r => simp [clp.tryGetPos_eq, stamp]

end answers

inductive Verdict where
  | found (event : LogEventView) (matchingQuery pos : ℕ)
  | reached
  deriving DecidableEq

def scan (enc : Encoding) (iv : TimestampInterval) (query : GoString → Option ℕ) :
    ℕ → EpochTimeMs → List Item → EpochTimeMs × Option Verdict
  | _, t, [] => (t, none)
  | pos, t, ((m, v), n) :: is =>
    if iv.upper ≤ stamp enc t v then (stamp enc t v, some .reached)
    else if iv.lower > stamp enc t v then scan enc iv query (pos + n) (stamp enc t v) is
    else match query m with
      | none => scan enc iv query (pos + n) (stamp enc t v) is
      | some k => (stamp enc t v, some (.found ⟨m, stamp enc t v⟩ k (pos + n)))

def verdictResult (tail : IRErrorCode) : Option Verdict → Except ℕ (ℕ × LogEventView × ℕ)
  | none => .error tail.toInt
  | some .reached => .error (IRErrorCode.incompleteIr.toInt + 1)
  | some (.found event k pos) => .ok (pos, event, k)

variable {iv : TimestampInterval} {query : GoString → Option ℕ}

theorem searchLoop_scan (h : clp.PositionIndependent) (b : List UInt8) (fuel pos : ℕ)
    (t : EpochTimeMs) (hp : pos ≤ b.length) (hf : b.length - pos < fuel) :
    Native.searchLoop clp enc b iv query fuel pos ⟨t⟩ =
      (⟨(scan enc iv query pos t ((itemDecoder clp enc).parse (b.drop pos)).1).1⟩,
        verdictResult ((itemDecoder clp enc).parse (b.drop pos)).2
          (scan enc iv query pos t ((itemDecoder clp enc).parse (b.drop pos)).1).2) := by
  induction fuel generalizing pos t with
  | zero => omega
  | succ fuel ih =>
    simp only [Native.searchLoop]
    rw [nextLogEvent_at h enc b pos hp]
    cases hd : (itemDecoder clp enc).dec (b.drop pos) with
    | error err => simp [ItemDecoder.parse_error hd, Except.map, scan, verdictResult]
    | ok r =>
      obtain ⟨⟨m, v⟩, n⟩ := r
      have hn := (itemDecoder clp enc).advance hd
      simp only [List.length_drop] at hn
      have next := ih (pos + n) (stamp enc t v) (by omega) (by omega)
      rw [← List.drop_drop] at next
      have hs : Native.Deserializer.stamp ⟨t⟩ enc v = stamp enc t v := rfl
      simp only [ItemDecoder.parse_ok hd, Except.map, scan, hs, clp.tryGetPos_eq]
      split
      · rfl
      · split
        · exact next
        · cases query m with
          | none => exact next
          | some k => rfl

theorem searchLoop_bounds (b : List UInt8) (fuel pos : ℕ) (n : Native.Deserializer)
    {n' : Native.Deserializer} {p k : ℕ} {event : LogEventView}
    (h : Native.searchLoop clp enc b iv query fuel pos n = (n', .ok (p, event, k))) :
    p ≤ b.length := by
  induction fuel generalizing pos n with
  | zero => simp [Native.searchLoop] at h
  | succ fuel ih =>
    simp only [Native.searchLoop] at h
    cases hd : Native.nextLogEvent clp enc ⟨b, pos⟩ with
    | error err => simp [hd] at h
    | ok r =>
      obtain ⟨⟨m, v⟩, q⟩ := r
      simp only [hd, clp.tryGetPos_eq] at h
      split at h
      · simp at h
      · split at h
        · exact ih _ _ h
        · split at h
          · exact ih _ _ h
          · simp only [Prod.mk.injEq, Except.ok.injEq] at h
            have hq : q ≤ b.length := (nextLogEvent_bounds hd).2
            omega

def searchAnswer {ε : Type} (clp : IrReadApi) (iv : TimestampInterval) (query : GoString → Option ℕ)
    (d : Deserializer) (t : EpochTimeMs) (b : List UInt8) :
    Deserializer × Except (GoError ε) ((LogEventView × ℕ) × ℕ) :=
  let items := (itemDecoder clp d.encoding).parse b
  let (last, verdict) := scan d.encoding iv query 0 t items.1
  match verdict with
  | none => (d.at last, .error (.ir ⟨items.2.toInt⟩))
  | some .reached => (d.at last, .error (.ir .queryNotFound))
  | some (.found event k pos) => (d.at last, .ok ((event, k), pos))

theorem deserializeWildcardMatch_at {ε : Type} (h : clp.PositionIndependent)
    (queries : List WildcardQuery) (d : Deserializer) (t : EpochTimeMs) (b : List UInt8) :
    deserializeWildcardMatch (ε := ε) clp (mergeWildcardQueries queries) iv (d.at t) b =
      searchAnswer clp iv (matchingQuery clp queries) d t b := by
  unfold deserializeWildcardMatch searchAnswer
  by_cases hb : 0 ≥ b.length
  · have hn : b = [] := List.length_eq_zero_iff.mp (by omega)
    subst hn
    rw [if_pos hb, ItemDecoder.parse_error itemDecoder_nil]
    rfl
  · rw [if_neg hb]
    simp only [Native.deserializeWildcardMatch, Deserializer.cptr_at, splitQueries_view,
      Deserializer.encoding_at, searchLoop_scan h b (b.length + 1) 0 t (by omega) (by omega),
      List.drop_zero]
    have hq : Native.queryFn clp (queries.map WildcardQuery.pair) = matchingQuery clp queries := rfl
    rw [hq]
    rcases scan d.encoding iv (matchingQuery clp queries) 0 t
      ((itemDecoder clp d.encoding).parse b).1 with ⟨last, verdict⟩
    cases verdict with
    | none => simp [verdictResult]
    | some v =>
      cases v with
      | found event k pos => simp [verdictResult]
      | reached =>
        simp only [verdictResult, Deserializer.at_setCptr]
        rfl

section bounds

variable {ε : Type}

theorem deserializeLogEvent_bounds {d d' : Deserializer} {b : List UInt8} {event : LogEventView}
    {pos : ℕ} (h : deserializeLogEvent (ε := ε) clp d b = (d', .ok (event, pos))) :
    pos ≤ b.length := by
  rw [deserializeLogEvent] at h
  split at h
  · cases h
  · cases hc : d.cptr with
    | none => simp [Native.deserializeLogEvent, hc] at h
    | some n =>
      simp only [Native.deserializeLogEvent, hc] at h
      cases hd : Native.nextLogEvent clp d.encoding ⟨b, 0⟩ with
      | error err => simp [hd] at h
      | ok r =>
        simp only [hd, clp.tryGetPos_eq, Prod.mk.injEq, Except.ok.injEq] at h
        have hb : r.2 ≤ b.length := (nextLogEvent_bounds hd).2
        omega

theorem deserializeWildcardMatch_bounds {queries : List WildcardQuery} {iv : TimestampInterval}
    {d d' : Deserializer} {b : List UInt8} {event : LogEventView × ℕ} {pos : ℕ}
    (h : deserializeWildcardMatch (ε := ε) clp (mergeWildcardQueries queries) iv d b =
      (d', .ok (event, pos))) : pos ≤ b.length := by
  rw [deserializeWildcardMatch] at h
  split at h
  · cases h
  · cases hc : d.cptr with
    | none => simp [Native.deserializeWildcardMatch, hc] at h
    | some n =>
      simp only [Native.deserializeWildcardMatch, hc, splitQueries_view] at h
      rcases hs : Native.searchLoop clp d.encoding b iv
        (Native.queryFn clp (queries.map WildcardQuery.pair)) (b.length + 1) 0 n with
        ⟨n', _ | ⟨p, event', k⟩⟩
      · simp [hs] at h
      · simp only [hs, Prod.mk.injEq, Except.ok.injEq] at h
        have hb := searchLoop_bounds b _ _ n hs
        omega

end bounds

end ClpFfiGo
