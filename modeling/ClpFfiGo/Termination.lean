import ClpFfiGo.Operations
import ClpFfiGo.SampleCodec

namespace ClpFfiGo

variable {σ ε : Type} {clp : IrReadApi} {json : JsonApi ε} {io : IoReader σ ε}
  {d : Deserializer} {b : List UInt8} {s : σ} {size : ℕ}

def Reached (clp : IrReadApi) (json : JsonApi ε) (io : IoReader σ ε) (s : σ) (size : ℕ)
    (rd : Reader σ) : Prop :=
  ∃ fuel rd₀ ops results, newReaderSize clp json io s size fuel = some (.ok rd₀) ∧
    execAll clp io fuel rd₀ ops = some (rd, results)

def CallsReturn (clp : IrReadApi) (json : JsonApi ε) (io : IoReader σ ε) (s : σ) (size : ℕ) :
    Prop :=
  (∃ fuel res, newReaderSize clp json io s size fuel = some res) ∧
    ∀ rd, Reached clp json io s size rd → ∀ op : ReaderOp,
      ∃ fuel res, op.exec clp io fuel rd = some res

def cutOff (clp : IrReadApi) (json : JsonApi ε) (b : List UInt8) : Bool :=
  match deserializePreamble clp json b with
  | .error err => err.isIncomplete
  | .ok (d, pos) => ((itemDecoder clp d.encoding).parse (b.drop pos)).2 = .incompleteIr

section returning

variable {allowed : ε → Prop}

theorem dec_ne_incomplete {enc : Encoding}
    (h : ((itemDecoder clp enc).parse b).2 ≠ .incompleteIr) :
    (itemDecoder clp enc).dec b ≠ .error .incompleteIr := by
  intro he
  rw [ItemDecoder.parse_error he] at h
  exact h rfl

theorem readToFunc_ends (hr : (itemDecoder clp d.encoding).Regular b)
    (hne : ((itemDecoder clp d.encoding).parse b).2 ≠ .incompleteIr) (f : LogEventView → Bool)
    {t : EpochTimeMs} {rd : Reader σ} (h : rd.Holds (io.Delivers allowed) d ⟨t, b⟩) :
    ∃ fuel r, Reader.readToFunc clp io f fuel rd = some r := by
  induction hr generalizing t rd with
  | @error b err hs he =>
    obtain ⟨⟨rd', res⟩, hends⟩ := read_ends (c := ⟨t, b⟩) (dec_ne_incomplete hne) h
    obtain ⟨fuel, hrun⟩ := Loop.run_of_ends hends
    have hread : rd.read clp io (fuel + 1) = some (rd', res) := Loop.run_mono hrun (by omega)
    refine ⟨fuel + 1, (rd', res), ?_⟩
    rw [Reader.readToFunc, hread]
    cases res with
    | error err => rfl
    | ok event =>
      rcases read_refines (io.delivers_conserves _) hs h hends with ⟨_, _, hc, _⟩ | ⟨c', hc, _⟩
      · cases hc
      · exact absurd hc (Cursor.read_not_ok he)
  | @item b i n hs he _ ih =>
    rw [ItemDecoder.parse_ok he] at hne
    have hdec : (itemDecoder clp d.encoding).dec b ≠ .error .incompleteIr := by simp [he]
    obtain ⟨⟨rd', res⟩, hends⟩ := read_ends (c := ⟨t, b⟩) hdec h
    obtain ⟨fuel, hrun⟩ := Loop.run_of_ends hends
    cases res with
    | error err =>
      have hread : rd.read clp io (fuel + 1) = some (rd', .error err) :=
        Loop.run_mono hrun (by omega)
      exact ⟨fuel + 1, (rd', .error err), by rw [Reader.readToFunc, hread]⟩
    | ok event =>
      rcases read_refines (io.delivers_conserves _) hs h hends with ⟨_, _, hc, _⟩ | ⟨c', hc, h'⟩
      · cases hc
      · rw [Cursor.read_of_ok (c := ⟨t, b⟩) he] at hc
        obtain ⟨rfl, -⟩ := Prod.mk.inj (Option.some.inj hc)
        obtain ⟨k, r, hk⟩ := ih hne h'
        have hread : rd.read clp io (fuel + k + 1) = some (rd', .ok event) :=
          Loop.run_mono hrun (by omega)
        refine ⟨fuel + k + 1, if f event then (rd', .ok event) else r, ?_⟩
        rw [Reader.readToFunc, hread]
        dsimp only
        split
        · rfl
        · exact readToFunc_mono hk (by omega)

theorem exec_ends (hpi : clp.PositionIndependent) (hr : (itemDecoder clp d.encoding).Regular b)
    (hne : ((itemDecoder clp d.encoding).parse b).2 ≠ .incompleteIr) {t : EpochTimeMs}
    {rd : Reader σ} (h : rd.Holds (io.Delivers allowed) d ⟨t, b⟩) (op : ReaderOp) :
    ∃ fuel r, op.exec clp io fuel rd = some r := by
  have hfunc : ∀ f, ∃ fuel r,
      (Reader.readToFunc clp io f fuel rd).map (Prod.map id plain) = some r := by
    intro f
    obtain ⟨fuel, r, hf⟩ := readToFunc_ends hr hne f h
    exact ⟨fuel, _, by rw [hf]; rfl⟩
  have hsearch : ∀ queries iv, ∃ fuel r,
      (rd.readToWildcardMatchWithTimeInterval clp io queries iv fuel).map
        (Prod.map id indexed) = some r := by
    intro queries iv
    obtain ⟨r, hends⟩ := search_ends iv hpi queries (c := ⟨t, b⟩) hne h
    obtain ⟨fuel, hrun⟩ := Loop.run_of_ends hends
    exact ⟨fuel, _, by rw [Reader.readToWildcardMatchWithTimeInterval, hrun]; rfl⟩
  cases op with
  | read =>
    obtain ⟨r, hends⟩ := read_ends (c := ⟨t, b⟩) (dec_ne_incomplete hne) h
    obtain ⟨fuel, hrun⟩ := Loop.run_of_ends hends
    exact ⟨fuel, _, by rw [ReaderOp.exec, Reader.read, hrun]; rfl⟩
  | readToFunc f => exact hfunc f
  | readToEpochTime time => exact hfunc _
  | readToContains sub => exact hfunc _
  | readToPrefix pre => exact hfunc _
  | readToSuffix suffix => exact hfunc _
  | readToWildcardMatch queries => exact hsearch queries _
  | readToWildcardMatchWithTimeInterval queries iv => exact hsearch queries iv

end returning

section spinning

theorem read_spins {t : EpochTimeMs} {rd : Reader σ}
    {r : Reader σ × Except (GoError ε) LogEventView}
    (hs : (itemDecoder clp d.encoding).Settled b)
    (hm : (itemDecoder clp d.encoding).dec b = .error .incompleteIr)
    (h : rd.Holds (io.Delivers IoReader.NoError) d ⟨t, b⟩) :
    ¬ Loop.Ends (Reader.readTurn clp io) rd r := by
  apply Loop.not_ends (P := fun rd => rd.Holds (io.Delivers IoReader.NoError) d ⟨t, b⟩) _ h
  intro rd h
  have hu : (itemDecoder clp d.encoding).dec rd.unread = .error .incompleteIr := by
    rcases hs.cases h.buffered.unread_prefix with hu | hu
    · exact hu
    · rw [hu, hm]
  have ha : deserializeLogEvent (ε := ε) clp rd.deserializer rd.unread =
      (d.at t, .error (.ir .incompleteIr)) := by
    rw [h.deserializer, deserializeLogEvent_at, readAnswer, hu]
    rfl
  have hcases := Reader.turn_cases io (deserializeLogEvent clp) h.buffered.wf
  unfold Reader.readTurn
  generalize Reader.turn io (deserializeLogEvent clp) rd = out at hcases ⊢
  cases hcases with
  | returned hc => rw [ha] at hc; cases hc
  | rejected hc hi => rw [ha] at hc; cases hc; cases hi
  | refilled hc _ hr _ =>
    rw [ha] at hc
    cases hc
    exact ⟨_, rfl, h.buffered.refill (io.delivers_conserves _) hr, rfl⟩
  | sourceFailed _ _ hr he => exact (h.buffered.fails hr he).allowed.elim

theorem construct_spins {rb : ReadBuf σ} {r : Except (GoError ε) (Reader σ)}
    (hs : PreambleSettled clp json b) (hcut : Cut (deserializePreamble clp json b))
    (ho : rb.Over (io.Delivers IoReader.NoError) b) (h0 : rb.start = 0) :
    ¬ Loop.Ends (newReaderTurn clp json io) rb r := by
  apply Loop.not_ends
    (P := fun rb => rb.Over (io.Delivers IoReader.NoError) b ∧ rb.start = 0) _ ⟨ho, h0⟩
  rintro rb ⟨ho, h0⟩
  obtain ⟨err, ha, hi⟩ : Cut (deserializePreamble clp json rb.unread) := by
    rcases hs _ _ ho.unread_prefix List.prefix_rfl with hu | hu
    · exact hu
    · rw [hu]
      exact hcut
  have hcases := construct_cases clp json io ho.wf h0
  generalize newReaderTurn clp json io rb = out at hcases ⊢
  cases hcases with
  | returned hc => rw [ha] at hc; cases hc
  | rejected hc hi' => rw [ha] at hc; cases hc; rw [hi] at hi'; cases hi'
  | refilled _ _ hr _ => exact ⟨_, rfl, ho.refill (io.delivers_conserves _) hr, hr.start⟩
  | sourceFailed _ _ hr he => exact (ho.fails hr he).allowed.elim

theorem newReaderSize_spins {fuel : ℕ} {res : Except (GoError ε) (Reader σ)}
    (hs : PreambleSettled clp json b) (hcut : Cut (deserializePreamble clp json b))
    (hsize : 0 < size) (hd : io.Delivers IoReader.NoError s b) :
    newReaderSize clp json io s size fuel ≠ some res := by
  intro h
  obtain ⟨rb, p, -, hr, heq⟩ := newReaderSize_eq clp json io s size
  have hinit := ReadBuf.Over.initial hsize hd
  rw [heq] at h
  rcases hio : (io.read s p).err with _ | ⟨⟩ | e
  case some.other => exact (hinit.fails hr hio).allowed.elim
  all_goals
    rw [hio] at h
    exact construct_spins hs hcut (hinit.refill (io.delivers_conserves _) hr) hr.start
      (Loop.ends_of_run h)

theorem reads_reach {c : List UInt8} (ha : (itemDecoder clp d.encoding).After b c)
    (hr : (itemDecoder clp d.encoding).Regular b) {t : EpochTimeMs} {rd : Reader σ}
    (h : rd.Holds (io.Delivers IoReader.NoError) d ⟨t, b⟩) :
    ∃ fuel ops results rd' t', execAll clp io fuel rd ops = some (rd', results) ∧
      rd'.Holds (io.Delivers IoReader.NoError) d ⟨t', c⟩ := by
  induction ha generalizing t rd with
  | refl => exact ⟨0, [], [], rd, t, rfl, h⟩
  | @item b i n c hd ha ih =>
    obtain ⟨fuel, rd₁, c₁, res, hread, hc, h₁⟩ :=
      read_run (c := ⟨t, b⟩) hr.settled (by simp [hd]) h
    rw [Cursor.read_of_ok (c := ⟨t, b⟩) hd] at hc
    cases hc
    obtain ⟨k, ops, results, rd', t', hexec, h'⟩ := ih (hr.drop hd) h₁
    have hfirst : ReaderOp.exec clp io (fuel + k) rd .read =
        some (rd₁, plain (.ok ⟨i.1, stamp d.encoding t i.2⟩)) := by
      have hm : rd.read clp io (fuel + k) = _ := Loop.run_mono hread (by omega)
      rw [ReaderOp.exec, hm]
      rfl
    exact ⟨fuel + k, .read :: ops, _, rd', t',
      execAll_cons hfirst (execAll_mono hexec (by omega)), h'⟩

end spinning

theorem calls_return (hpi : clp.PositionIndependent) (hps : clp.PrefixStable)
    (hsize : 0 < size) {allowed : ε → Prop} (hd : io.Delivers allowed s b)
    (hcut : cutOff clp json b = false) : CallsReturn clp json io s size := by
  have hset := PrefixStable.preambleSettled json hps b
  have hsrc := io.delivers_conserves allowed
  have hreg : ∀ enc b, (itemDecoder clp enc).Regular b :=
    fun enc b => (itemDecoder_prefixStable hps enc).regular b
  have hpre : ¬ Cut (deserializePreamble clp json b) := by
    rintro ⟨err, he, hi⟩
    rw [cutOff, he] at hcut
    exact absurd (hi.symm.trans hcut) (by simp)
  refine ⟨newReaderSize_ends hpre hsize hd, ?_⟩
  rintro rd ⟨fuel, rd₀, ops, results, hnew, hexec⟩ op
  have hbuilt := newReaderSize_built hsrc hset hsize hd hnew
  cases hbuilt with
  | @returned _ d t pos hp _ hh =>
    have hlater := execAll_later hsrc hpi ⟨hreg _ _, t, _, .refl, hh⟩ hexec
    obtain ⟨hr, t', b', hafter, h'⟩ := hlater
    apply exec_ends hpi (hafter.regular hr) _ h'
    rw [hafter.tail]
    simpa [cutOff, hp] using hcut

theorem cutOff_spins (hps : clp.PrefixStable) (hsize : 0 < size)
    (hd : io.Delivers IoReader.NoError s b) (hcut : cutOff clp json b = true) :
    ¬ CallsReturn clp json io s size := by
  rintro ⟨⟨fuel, res, hnew⟩, hops⟩
  have hset := PrefixStable.preambleSettled json hps b
  have hreg : ∀ enc b, (itemDecoder clp enc).Regular b :=
    fun enc b => (itemDecoder_prefixStable hps enc).regular b
  rw [cutOff] at hcut
  cases hp : deserializePreamble clp json b with
  | error err =>
    rw [hp] at hcut
    exact newReaderSize_spins hset ⟨err, hp, hcut⟩ hsize hd hnew
  | ok r =>
    obtain ⟨d, pos⟩ := r
    simp only [hp, decide_eq_true_eq] at hcut
    have hbuilt := newReaderSize_built (io.delivers_conserves _) hset hsize hd hnew
    cases hbuilt with
    | sourceFailed hf => exact hf.allowed.elim
    | rejected ha _ => rw [hp] at ha; cases ha
    | @returned rd _ t _ ha _ hh =>
      rw [hp] at ha
      cases ha
      obtain ⟨c, hafter, hc⟩ :=
        ItemDecoder.after_error (D := itemDecoder clp d.encoding) (b.drop pos)
      rw [hcut] at hc
      obtain ⟨k, ops, results, rd', t', hexec, h'⟩ := reads_reach hafter (hreg _ _) hh
      have hreached : Reached clp json io s size rd' :=
        ⟨fuel + k, rd, ops, results, newReaderSize_mono hnew (by omega),
          execAll_mono hexec (by omega)⟩
      obtain ⟨n, r, hr⟩ := hops rd' hreached .read
      obtain ⟨r₁, hread, _⟩ := Option.map_eq_some_iff.mp hr
      exact read_spins (hreg _ _).settled hc h' (Loop.ends_of_run hread)

theorem calls_return_iff (hpi : clp.PositionIndependent) (hps : clp.PrefixStable)
    (json : JsonApi ε) (hsize : 0 < size) (hd : io.Delivers IoReader.NoError s b) :
    CallsReturn clp json io s size ↔ cutOff clp json b = false := by
  constructor
  · intro h
    by_contra hcut
    exact cutOff_spins hps hsize hd (by simpa using hcut) h
  · exact calls_return hpi hps hsize hd

open SampleCodec IoReader in
theorem whole_stream_returns : CallsReturn readApi jsonApi source
    (bytewise (stream .eightByte (ascii "UTC") 0 [(ascii "a", 5)])) 1 :=
  (calls_return_iff readApi_positionIndependent readApi_prefixStable jsonApi Nat.one_pos
    (bytewise_delivers NoError _)).mpr (by decide +kernel)

open SampleCodec IoReader in
theorem stream_without_eof_spins : ¬ CallsReturn readApi jsonApi source
    (bytewise (stream .eightByte (ascii "UTC") 0 [(ascii "a", 5)]).dropLast) 1 :=
  cutOff_spins readApi_prefixStable Nat.one_pos (bytewise_delivers NoError _) (by decide +kernel)

end ClpFfiGo
