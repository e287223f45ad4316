import ClpFfiGo.ItemReading
import ClpFfiGo.QueryMerging
import ClpFfiGo.SampleCodec
import ClpFfiGo.Foundation.Loop

namespace ClpFfiGo

variable {ε : Type} {clp : IrReadApi}

def firstMatch (clp : IrReadApi) (queries : List WildcardQuery) (logMessage : GoString) :
    Option ℕ :=
  if queries = [] then some 0 else queries.findIdx? (WildcardQuery.matches clp logMessage)

abbrev SearchResult (ε : Type) := Deserializer × Except (GoError ε) ((LogEventView × ℕ) × ℕ)

-- One turn of a caller's loop over `DeserializeLogEvent`; `pos` sums the positions returned.
def plainTurn (clp : IrReadApi) (queries : List WildcardQuery) (iv : TimestampInterval)
    (irBuf : List UInt8) : ℕ × Deserializer → (ℕ × Deserializer) ⊕ SearchResult ε
  | (pos, deserializer) =>
    match deserializeLogEvent clp deserializer (irBuf.drop pos) with
    | (deserializer, .error err) => .inr (deserializer, .error err)
    | (deserializer, .ok (event, n)) =>
      if event.timestamp ≥ iv.upper then .inr (deserializer, .error (.ir .queryNotFound))
      else if event.timestamp < iv.lower then .inl (pos + n, deserializer)
      else match firstMatch clp queries event.logMessageView with
        | none => .inl (pos + n, deserializer)
        | some k => .inr (deserializer, .ok ((event, k), pos + n))

def plainSearch (clp : IrReadApi) (queries : List WildcardQuery) (iv : TimestampInterval)
    (deserializer : Deserializer) (irBuf : List UInt8) (fuel : ℕ) : Option (SearchResult ε) :=
  Loop.run (plainTurn clp queries iv irBuf) fuel (0, deserializer)

theorem firstMatch_eq (queries : List WildcardQuery) :
    firstMatch clp queries = matchingQuery clp queries := by
  funext logMessage
  rw [firstMatch]
  split
  · rename_i hq
    rw [hq, matchingQuery_nil]
  · rename_i hq
    rw [matchingQuery_of_ne_nil clp hq]

section simulation

variable {queries : List WildcardQuery} {iv : TimestampInterval} {irBuf : List UInt8}
  {d : Deserializer}

def answerOf (d : Deserializer) (tail : IRErrorCode) : EpochTimeMs × Option Verdict →
    SearchResult ε
  | (last, none) => (d.at last, .error (.ir ⟨tail.toInt⟩))
  | (last, some .reached) => (d.at last, .error (.ir .queryNotFound))
  | (last, some (.found event k pos)) => (d.at last, .ok ((event, k), pos))

theorem searchAnswer_eq (query : GoString → Option ℕ) (t : EpochTimeMs) :
    searchAnswer (ε := ε) clp iv query d t irBuf =
      answerOf d ((itemDecoder clp d.encoding).parse irBuf).2
        (scan d.encoding iv query 0 t ((itemDecoder clp d.encoding).parse irBuf).1) := by
  rw [searchAnswer]
  rcases scan d.encoding iv query 0 t ((itemDecoder clp d.encoding).parse irBuf).1 with
    ⟨last, _ | ⟨_, _⟩⟩ <;> rfl

-- The decoder splits the rest of the buffer in items; each is one turn of the loop.
theorem plain_ends (pos : ℕ) (t : EpochTimeMs) :
    Loop.Ends (plainTurn (ε := ε) clp queries iv irBuf) (pos, d.at t)
      (answerOf d ((itemDecoder clp d.encoding).parse (irBuf.drop pos)).2
        (scan d.encoding iv (matchingQuery clp queries) pos t
          ((itemDecoder clp d.encoding).parse (irBuf.drop pos)).1)) := by
  generalize hb : irBuf.drop pos = b
  induction b using ItemDecoder.bytesInduction (D := itemDecoder clp d.encoding)
    generalizing pos t with
  | error b err hdec =>
    apply Loop.Ends.stop
    rw [plainTurn, hb, deserializeLogEvent_at, readAnswer, hdec, ItemDecoder.parse_error hdec]
    rfl
  | item b i n hdec ih =>
    obtain ⟨m, v⟩ := i
    have next := ih (pos + n) (stamp d.encoding t v) (by rw [← hb, List.drop_drop])
    have hcall : deserializeLogEvent (ε := ε) clp (d.at t) (irBuf.drop pos) =
        (d.at (stamp d.encoding t v), .ok (⟨m, stamp d.encoding t v⟩, n)) := by
      rw [hb, deserializeLogEvent_at, readAnswer, hdec]
    rw [ItemDecoder.parse_ok hdec]
    by_cases hu : stamp d.encoding t v ≥ iv.upper
    · apply Loop.Ends.stop
      simp only [plainTurn, hcall, scan]
      rw [if_pos hu, if_pos hu]
      rfl
    · by_cases hl : stamp d.encoding t v < iv.lower
      · rw [scan, if_neg hu, if_pos hl]
        refine .turn ?_ next
        simp only [plainTurn, hcall]
        rw [if_neg hu, if_pos hl]
      · rw [scan, if_neg hu, if_neg hl]
        cases hq : matchingQuery clp queries m with
        | none =>
          refine .turn ?_ next
          simp only [plainTurn, hcall, firstMatch_eq, hq]
          rw [if_neg hu, if_neg hl]
        | some k =>
          apply Loop.Ends.stop
          simp only [plainTurn, hcall, firstMatch_eq, hq]
          rw [if_neg hu, if_neg hl]
          rfl

theorem Deserializer.at_of_cptr {t : EpochTimeMs} (h : d.cptr = some ⟨t⟩) : d.at t = d := by
  cases d with
  | eightByte c => exact congrArg (fun p => Deserializer.eightByte ⟨c.tsInfo, p⟩) h.symm
  | fourByte c prev => exact congrArg (fun p => Deserializer.fourByte ⟨c.tsInfo, p⟩ prev) h.symm

theorem closed_plain_ends (h : d.cptr = none) : Loop.Ends
    (plainTurn (ε := ε) clp queries iv irBuf) (0, d)
    (deserializeWildcardMatch clp (mergeWildcardQueries queries) iv d irBuf) := by
  apply Loop.Ends.stop
  rw [plainTurn, List.drop_zero, deserializeLogEvent, deserializeWildcardMatch]
  by_cases hb : 0 ≥ irBuf.length
  · rw [if_pos hb, if_pos hb]
  · rw [if_neg hb, if_neg hb, h]
    rfl

theorem native_search_refines_plain (hpi : clp.PositionIndependent) (queries : List WildcardQuery)
    (iv : TimestampInterval) (d : Deserializer) (irBuf : List UInt8) :
    ∃ fuel, plainSearch (ε := ε) clp queries iv d irBuf fuel =
      some (deserializeWildcardMatch clp (mergeWildcardQueries queries) iv d irBuf) := by
  apply Loop.run_of_ends
  cases hc : d.cptr with
  | none => exact closed_plain_ends hc
  | some native =>
    have hat := Deserializer.at_of_cptr hc
    have hsearch := @deserializeWildcardMatch_at clp iv ε hpi queries d
      native.timestamp irBuf
    have hends := @plain_ends ε clp queries iv irBuf d 0 native.timestamp
    rw [List.drop_zero, ← searchAnswer_eq, ← hsearch, hat] at hends
    exact hends

end simulation

open SampleCodec in
theorem second_event_plain_search : ∃ fuel,
    plainSearch (ε := Unit) readApi [⟨ascii "b", true⟩] ⟨0, 2000⟩
      (.fourByte ⟨⟨[], [], []⟩, some ⟨1000⟩⟩ 1000)
      (event .fourByte (ascii "a") 5 ++ event .fourByte (ascii "b") (-10)) fuel =
    some (.fourByte ⟨⟨[], [], []⟩, some ⟨995⟩⟩ 1000, .ok ((⟨ascii "b", 995⟩, 0), 10)) := by
  obtain ⟨fuel, h⟩ := native_search_refines_plain (ε := Unit) readApi_positionIndependent
    [⟨ascii "b", true⟩] ⟨0, 2000⟩ (.fourByte ⟨⟨[], [], []⟩, some ⟨1000⟩⟩ 1000)
    (event .fourByte (ascii "a") 5 ++ event .fourByte (ascii "b") (-10))
  refine ⟨fuel, h.trans ?_⟩
  decide +kernel

end ClpFfiGo
