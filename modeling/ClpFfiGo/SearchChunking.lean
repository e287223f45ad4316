import ClpFfiGo.FailedSearch
import ClpFfiGo.SampleCodec

namespace ClpFfiGo

variable {σ ε : Type} {clp : IrReadApi} {json : JsonApi ε} {io : IoReader σ ε}
  {src : σ → List UInt8 → Prop}

structure Search where
  queries : List WildcardQuery
  timeInterval : TimestampInterval

def Search.op (s : Search) : ReaderOp :=
  .readToWildcardMatchWithTimeInterval s.queries s.timeInterval

-- A try that runs out of bytes leaves the timestamp as it was.
def Steady (clp : IrReadApi) (s : Search) (d : Deserializer) (unread : List UInt8) : Prop :=
  let items := (itemDecoder clp d.encoding).parse unread
  items.2 = .incompleteIr →
    (scan d.encoding s.timeInterval (matchingQuery clp s.queries) 0 d.time items.1).2 = none →
    (items.1.map (fun i => i.1.2)).sum = 0

def SteadyFrom (clp : IrReadApi) (io : IoReader σ ε) : Reader σ → List Search → Prop
  | _, [] => True
  | rd, s :: searches =>
    (∀ rd', Loop.Turns (Reader.searchTurn clp io s.queries s.timeInterval) rd rd' →
      Steady clp s rd'.deserializer rd'.unread) ∧
    ∀ fuel rd' res,
      rd.readToWildcardMatchWithTimeInterval clp io s.queries s.timeInterval fuel =
        some (rd', res) → SteadyFrom clp io rd' searches

def Cursor.searchAll (clp : IrReadApi) (enc : Encoding) :
    Cursor → List Search → Option (List (OpResult ε))
  | _, [] => some []
  | c, s :: searches =>
    match c.search clp enc s.timeInterval (matchingQuery clp s.queries) with
    | none => none
    | some (c', res) => (Cursor.searchAll clp enc c' searches).map (indexed res :: ·)

section one

variable {d : Deserializer}

theorem steady_search (hpi : clp.PositionIndependent) (hd : d.encoding = .fourByte) (s : Search)
    {c : Cursor} {rd : Reader σ} (hr : (itemDecoder clp d.encoding).Regular c.bytes)
    (htail : ((itemDecoder clp d.encoding).parse c.bytes).2 ≠ .incompleteIr)
    (h : rd.Holds (io.Delivers IoReader.NoError) d c)
    (hsteady : ∀ rd', Loop.Turns (Reader.searchTurn clp io s.queries s.timeInterval) rd rd' →
      Steady clp s rd'.deserializer rd'.unread) :
    ∃ fuel rd' c' res,
      rd.readToWildcardMatchWithTimeInterval clp io s.queries s.timeInterval fuel =
        some (rd', res) ∧
      c.search clp d.encoding s.timeInterval (matchingQuery clp s.queries) = some (c', res) ∧
      rd'.Holds (io.Delivers IoReader.NoError) d c' := by
  obtain ⟨t, b⟩ := c
  have hgap : ∀ rd', Loop.Turns (Reader.searchTurn clp io s.queries s.timeInterval) rd rd' →
      ∀ u, u = t → rd'.deserializer = d.at u →
      ((itemDecoder clp d.encoding).parse rd'.unread).2 = .incompleteIr →
      (scan d.encoding s.timeInterval (matchingQuery clp s.queries) 0 u
        ((itemDecoder clp d.encoding).parse rd'.unread).1).2 = none →
      elapsed d.encoding u ((itemDecoder clp d.encoding).parse rd'.unread).1 = t := by
    rintro rd' hturns u rfl hat hinc hnone
    have hst := hsteady rd' hturns
    rw [hat] at hst
    simp only [Steady, Deserializer.encoding_at, Deserializer.time_at] at hst
    rw [hd] at hst hinc hnone ⊢
    rw [elapsed_fourByte, hst hinc hnone, Int64.add_zero]
  obtain ⟨⟨rd', res⟩, hends⟩ := search_ends s.timeInterval hpi s.queries htail h
  obtain ⟨fuel, hrun⟩ := Loop.run_of_ends hends
  rcases search_refines (io.delivers_conserves _) hpi s.queries (fun u => u = t) hr rfl h hgap
      hends with ⟨_, _, hf, _⟩ | ⟨u, c', rfl, hc, h'⟩
  · exact hf.allowed.elim
  · exact ⟨fuel, rd', c', res, hrun, hc, h'⟩

theorem steady_searches (hpi : clp.PositionIndependent) (hd : d.encoding = .fourByte)
    (searches : List Search) {c : Cursor} {rd : Reader σ}
    (hr : (itemDecoder clp d.encoding).Regular c.bytes)
    (htail : ((itemDecoder clp d.encoding).parse c.bytes).2 ≠ .incompleteIr)
    (h : rd.Holds (io.Delivers IoReader.NoError) d c) (hsteady : SteadyFrom clp io rd searches) :
    ∃ fuel rd' results, execAll clp io fuel rd (searches.map Search.op) = some (rd', results) ∧
      c.searchAll clp d.encoding searches = some results := by
  induction searches generalizing c rd with
  | nil => exact ⟨0, rd, [], rfl, rfl⟩
  | cons s searches ih =>
    obtain ⟨fuel, rd₁, c₁, res, hrun, hc, h₁⟩ :=
      steady_search hpi hd s hr htail h hsteady.1
    have hafter := search_after hc
    have htail₁ := hafter.tail ▸ htail
    obtain ⟨k, rd', results, hrest, hcs⟩ :=
      ih (hafter.regular hr) htail₁ h₁ (hsteady.2 fuel rd₁ res hrun)
    have hop : s.op.exec clp io fuel rd = some (rd₁, indexed res) := by
      simp only [Search.op, ReaderOp.exec, hrun]
      rfl
    refine ⟨fuel + k, rd', indexed res :: results, ?_, ?_⟩
    · exact execAll_cons (exec_mono hop (by omega)) (execAll_mono hrest (by omega))
    · simp only [Cursor.searchAll, hc, hcs]
      rfl

end one

theorem searches_independent_of_chunking {σ₁ σ₂ : Type} (hpi : clp.PositionIndependent)
    {metadata : Metadata} {is : List (GoString × EpochTimeMs)} {b : List UInt8}
    (hb : IrStream clp json .fourByte metadata is b) {io₁ : IoReader σ₁ ε} {io₂ : IoReader σ₂ ε}
    {s₁ : σ₁} {s₂ : σ₂} {size₁ size₂ : ℕ} (hsize₁ : 0 < size₁) (hsize₂ : 0 < size₂)
    (hs₁ : io₁.Delivers IoReader.NoError s₁ b) (hs₂ : io₂.Delivers IoReader.NoError s₂ b)
    (searches : List Search)
    (h₁ : ∀ fuel rd, newReaderSize clp json io₁ s₁ size₁ fuel = some (.ok rd) →
      SteadyFrom clp io₁ rd searches)
    (h₂ : ∀ fuel rd, newReaderSize clp json io₂ s₂ size₂ fuel = some (.ok rd) →
      SteadyFrom clp io₂ rd searches) :
    ∃ fuel rd₁ rd₂ rd₁' rd₂' results,
      newReaderSize clp json io₁ s₁ size₁ fuel = some (.ok rd₁) ∧
      newReaderSize clp json io₂ s₂ size₂ fuel = some (.ok rd₂) ∧
      execAll clp io₁ fuel rd₁ (searches.map Search.op) = some (rd₁', results) ∧
      execAll clp io₂ fuel rd₂ (searches.map Search.op) = some (rd₂', results) := by
  obtain ⟨pos, hf⟩ := hb.facts
  obtain ⟨n₁, rd₁, hnew₁, hh₁⟩ := hf.opens hsize₁ hs₁
  obtain ⟨n₂, rd₂, hnew₂, hh₂⟩ := hf.opens hsize₂ hs₂
  have htail : ((itemDecoder clp .fourByte).parse (b.drop pos)).2 ≠ .incompleteIr := by
    simp [hf.tail]
  obtain ⟨k₁, rd₁', results, hx₁, hc₁⟩ :=
    steady_searches (d := newDeserializer .fourByte metadata ⟨0⟩) (c := ⟨_, b.drop pos⟩) hpi rfl
      searches hf.regular htail hh₁ (h₁ n₁ rd₁ hnew₁)
  obtain ⟨k₂, rd₂', results', hx₂, hc₂⟩ :=
    steady_searches (d := newDeserializer .fourByte metadata ⟨0⟩) (c := ⟨_, b.drop pos⟩) hpi rfl
      searches hf.regular htail hh₂ (h₂ n₂ rd₂ hnew₂)
  obtain rfl : results = results' := Option.some.inj (hc₁.symm.trans hc₂)
  exact ⟨n₁ + n₂ + k₁ + k₂, rd₁, rd₂, rd₁', rd₂', results, newReaderSize_mono hnew₁ (by omega),
    newReaderSize_mono hnew₂ (by omega), execAll_mono hx₁ (by omega), execAll_mono hx₂ (by omega)⟩

instance {s : Search} {d : Deserializer} {unread : List UInt8} :
    Decidable (Steady clp s d unread) :=
  inferInstanceAs (Decidable (_ → _ → _))

section sampling

open SampleCodec IoReader

def steadyReplay (chunks : List (List UInt8)) (size fuel : ℕ) (s : Search) : Bool :=
  match newReaderSize readApi jsonApi source chunks size fuel with
  | some (.ok rd) =>
    let step := Reader.searchTurn readApi source s.queries s.timeInterval
    (Loop.run step fuel rd).isSome ∧
      ∀ rd' ∈ Loop.trace step fuel rd, Steady readApi s rd'.deserializer rd'.unread
  | _ => false

theorem steadyFrom_of_replay {chunks : List (List UInt8)} {size k : ℕ} {s : Search}
    (h : steadyReplay chunks size k s = true) (fuel : ℕ) (rd : Reader (List (List UInt8)))
    (hnew : newReaderSize readApi jsonApi source chunks size fuel = some (.ok rd)) :
    SteadyFrom readApi source rd [s] := by
  rw [steadyReplay] at h
  split at h
  · rename_i rd' hnew'
    have heq : rd' = rd := by
      have h₁ := newReaderSize_mono hnew' (Nat.le_max_left k fuel)
      have h₂ := newReaderSize_mono hnew (Nat.le_max_right k fuel)
      simpa [h₁] using h₂
    subst heq
    obtain ⟨hrun, hsteady⟩ := of_decide_eq_true h
    obtain ⟨r, hrun⟩ := Option.isSome_iff_exists.mp hrun
    exact ⟨fun x hx => hsteady x (hx.mem_trace hrun), fun _ _ _ _ => trivial⟩
  · cases h

theorem split_search_agrees :
    ∃ fuel rd₁ rd₂ rd₁' rd₂' results,
      newReaderSize readApi jsonApi source
        [stream .fourByte (ascii "UTC") 0 [(ascii "a", 5), (ascii "b", 5)]] 256 fuel =
          some (.ok rd₁) ∧
      newReaderSize readApi jsonApi source
        [(stream .fourByte (ascii "UTC") 0 [(ascii "a", 5), (ascii "b", 5)]).take 121,
          (stream .fourByte (ascii "UTC") 0 [(ascii "a", 5), (ascii "b", 5)]).drop 121] 1 fuel =
          some (.ok rd₂) ∧
      execAll readApi source fuel rd₁ [.readToWildcardMatchWithTimeInterval [] ⟨6, 100⟩] =
        some (rd₁', results) ∧
      execAll readApi source fuel rd₂ [.readToWildcardMatchWithTimeInterval [] ⟨6, 100⟩] =
        some (rd₂', results) := by
  obtain ⟨metadata, hb⟩ := irStream .fourByte (ascii "UTC") 0 [(ascii "a", 5), (ascii "b", 5)]
    (by decide +kernel) (by decide +kernel)
  have hs₁ : source.Delivers NoError
      [stream .fourByte (ascii "UTC") 0 [(ascii "a", 5), (ascii "b", 5)]] _ :=
    chunked_delivers _ _
  have hs₂ : source.Delivers NoError
      [(stream .fourByte (ascii "UTC") 0 [(ascii "a", 5), (ascii "b", 5)]).take 121,
        (stream .fourByte (ascii "UTC") 0 [(ascii "a", 5), (ascii "b", 5)]).drop 121] _ :=
    chunked_delivers _ _
  rw [List.flatten_singleton] at hs₁
  rw [List.flatten_cons, List.flatten_singleton, List.take_append_drop] at hs₂
  exact searches_independent_of_chunking readApi_positionIndependent hb (by decide) (by decide)
    hs₁ hs₂ [⟨[], ⟨6, 100⟩⟩] (steadyFrom_of_replay (k := 256) (by decide +kernel))
    (steadyFrom_of_replay (k := 256) (by decide +kernel))

theorem refill_moves_timestamps :
    (∃ metadata, IrStream readApi jsonApi .fourByte metadata [(ascii "a", 5), (ascii "b", 5)]
      (stream .fourByte (ascii "UTC") 0 [(ascii "a", 5), (ascii "b", 5)])) ∧
    [(stream .fourByte (ascii "UTC") 0 [(ascii "a", 5)]).dropLast,
        event .fourByte (ascii "b") 5 ++ [0]].flatten =
      stream .fourByte (ascii "UTC") 0 [(ascii "a", 5), (ascii "b", 5)] ∧
    replay [stream .fourByte (ascii "UTC") 0 [(ascii "a", 5), (ascii "b", 5)]] 256 4
      [.readToWildcardMatchWithTimeInterval [] ⟨6, 100⟩] =
        some [.ok (⟨ascii "b", 10⟩, some 0)] ∧
    replay [(stream .fourByte (ascii "UTC") 0 [(ascii "a", 5)]).dropLast,
        event .fourByte (ascii "b") 5 ++ [0]] 256 4
      [.readToWildcardMatchWithTimeInterval [] ⟨6, 100⟩] =
        some [.ok (⟨ascii "a", 10⟩, some 0)] :=
  ⟨irStream _ _ _ _ (by decide +kernel) (by decide +kernel), by decide +kernel, by decide +kernel,
    by decide +kernel⟩

end sampling

end ClpFfiGo
