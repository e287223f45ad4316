import ClpFfiGo.CursorSearch
import ClpFfiGo.ReadSequence

namespace ClpFfiGo

variable {σ ε : Type} {clp : IrReadApi} {json : JsonApi ε} {io : IoReader σ ε}
  {src : σ → List UInt8 → Prop} {d : Deserializer} {b : List UInt8}

def ReaderOp.searches : ReaderOp → Bool
  | .readToWildcardMatch _ => true
  | .readToWildcardMatchWithTimeInterval _ _ => true
  | _ => false

section rules

variable {P : Reader σ → Prop} {E : GoError ε → Prop}

theorem readToFunc_keeps (hread : Loop.Keeps P E (Reader.read clp io)) (f : LogEventView → Bool) :
    Loop.Keeps P E (Reader.readToFunc clp io f) := by
  intro fuel rd rd' res h he
  induction fuel generalizing rd with
  | zero => simp [Reader.readToFunc] at he
  | succ fuel ih =>
    rw [Reader.readToFunc] at he
    cases hr : rd.read clp io (fuel + 1) with
    | none => simp [hr] at he
    | some r =>
      obtain ⟨rd₁, res₁⟩ := r
      have h₁ := hread _ _ _ _ h hr
      rw [hr] at he
      cases res₁ with
      | error err =>
        cases he
        exact h₁
      | ok event =>
        dsimp only at he
        split at he
        · cases he
          exact h₁
        · exact ih rd₁ h₁.1 he

theorem plain_error (res : Except (GoError ε) LogEventView) (err : GoError ε)
    (h : plain res = .error err) : res = .error err := by
  cases res with
  | ok event => cases h
  | error e =>
    cases h
    rfl

theorem indexed_error (res : Except (GoError ε) (LogEventView × ℕ)) (err : GoError ε)
    (h : indexed res = .error err) : res = .error err := by
  cases res with
  | ok r => cases h
  | error e =>
    cases h
    rfl

theorem exec_keeps (hread : Loop.Keeps P E (Reader.read clp io)) (op : ReaderOp)
    (hsearch : op.searches = true → ∀ queries iv,
      Loop.Keeps P E (Reader.readToWildcardMatchWithTimeInterval clp io queries iv)) :
    Loop.Keeps P E (fun fuel rd => op.exec clp io fuel rd) := by
  cases op with
  | read => exact hread.map plain_error
  | readToFunc f => exact (readToFunc_keeps hread f).map plain_error
  | readToEpochTime time => exact (readToFunc_keeps hread _).map plain_error
  | readToContains substr => exact (readToFunc_keeps hread _).map plain_error
  | readToPrefix pre => exact (readToFunc_keeps hread _).map plain_error
  | readToSuffix suffix => exact (readToFunc_keeps hread _).map plain_error
  | readToWildcardMatch queries => exact (hsearch rfl queries _).map indexed_error
  | readToWildcardMatchWithTimeInterval queries iv =>
    exact (hsearch rfl queries iv).map indexed_error

theorem execAll_keeps {ops : List ReaderOp} {fuel : ℕ}
    (hexec : ∀ op ∈ ops, Loop.Keeps P E (fun fuel rd => ReaderOp.exec clp io fuel rd op))
    {rd rd' : Reader σ} {results : List (OpResult ε)} (h : P rd)
    (he : execAll clp io fuel rd ops = some (rd', results)) :
    P rd' ∧ ∀ err, .error err ∈ results → E err := by
  induction ops generalizing rd results with
  | nil =>
    cases he
    exact ⟨h, by simp⟩
  | cons op ops ih =>
    rw [List.forall_mem_cons] at hexec
    rw [execAll] at he
    cases ho : op.exec clp io fuel rd with
    | none => simp [ho] at he
    | some r =>
      obtain ⟨rd₁, res⟩ := r
      obtain ⟨h₁, herr⟩ := hexec.1 _ _ _ _ h ho
      rw [ho] at he
      obtain ⟨⟨rd₂, rest⟩, hr, hm⟩ := Option.map_eq_some_iff.mp he
      cases hm
      obtain ⟨h₂, hrest⟩ := ih hexec.2 h₁ hr
      refine ⟨h₂, fun err hmem => ?_⟩
      rcases List.mem_cons.mp hmem with hres | hmem
      · exact herr err hres.symm
      · exact hrest err hmem

end rules

structure Reader.Later (clp : IrReadApi) (src : σ → List UInt8 → Prop) (d : Deserializer)
    (b : List UInt8) (rd : Reader σ) : Prop where
  regular : (itemDecoder clp d.encoding).Regular b
  place : ∃ t b', (itemDecoder clp d.encoding).After b b' ∧ rd.Holds src d ⟨t, b'⟩

theorem read_later (hsrc : io.Conserves src) :
    Loop.Keeps (Reader.Later clp src d b) (fun _ : GoError ε => True) (Reader.read clp io) := by
  rintro fuel rd rd' res ⟨hr, t, b', ha, hh⟩ he
  refine ⟨⟨hr, ?_⟩, fun _ _ => trivial⟩
  rcases read_refines hsrc (ha.regular hr).settled hh (Loop.ends_of_run he) with
    ⟨_, _, _, h'⟩ | ⟨c', hc, h'⟩
  · exact ⟨t, b', ha, h'⟩
  · exact ⟨_, _, ha.trans (Cursor.read_after hc), h'⟩

theorem search_later (hsrc : io.Conserves src) (hpi : clp.PositionIndependent)
    (queries : List WildcardQuery) (iv : TimestampInterval) :
    Loop.Keeps (Reader.Later clp src d b) (fun _ : GoError ε => True)
      (Reader.readToWildcardMatchWithTimeInterval clp io queries iv) := by
  rintro fuel rd rd' res ⟨hr, t, b', ha, hh⟩ he
  refine ⟨⟨hr, ?_⟩, fun _ _ => trivial⟩
  rcases search_refines hsrc hpi queries (fun _ => True) (ha.regular hr) trivial hh
      (fun _ _ _ _ _ _ _ => trivial) (Loop.ends_of_run he) with
    ⟨_, t', _, _, _, h'⟩ | ⟨t', c', _, hc, h'⟩
  · exact ⟨t', b', ha, h'⟩
  · exact ⟨_, _, ha.trans (search_after hc), h'⟩

theorem execAll_later (hsrc : io.Conserves src) (hpi : clp.PositionIndependent)
    {ops : List ReaderOp} {fuel : ℕ} {rd rd' : Reader σ} {results : List (OpResult ε)}
    (h : rd.Later clp src d b) (he : execAll clp io fuel rd ops = some (rd', results)) :
    rd'.Later clp src d b :=
  (execAll_keeps (fun op _ => exec_keeps (read_later hsrc) op
    (fun _ queries iv => search_later hsrc hpi queries iv)) h he).1

theorem search_of_execAll {queries : List WildcardQuery} {iv : TimestampInterval} {fuel : ℕ}
    {rd rd' : Reader σ} {err : GoError ε}
    (h : execAll clp io fuel rd [.readToWildcardMatchWithTimeInterval queries iv] =
      some (rd', [.error err])) :
    rd.readToWildcardMatchWithTimeInterval clp io queries iv fuel = some (rd', .error err) := by
  cases hs : rd.readToWildcardMatchWithTimeInterval clp io queries iv fuel with
  | none => simp [execAll, ReaderOp.exec, hs] at h
  | some r =>
    obtain ⟨rd₁, _ | _⟩ := r <;> simp_all [execAll, ReaderOp.exec, indexed, Except.map]

theorem readToFunc_mono {f : LogEventView → Bool} {n m : ℕ} {rd : Reader σ}
    {r : Reader σ × Except (GoError ε) LogEventView}
    (h : Reader.readToFunc clp io f n rd = some r) (hnm : n ≤ m) :
    Reader.readToFunc clp io f m rd = some r := by
  induction n generalizing rd m with
  | zero => simp [Reader.readToFunc] at h
  | succ n ih =>
    obtain ⟨m, rfl⟩ : ∃ k, m = k + 1 := ⟨m - 1, by omega⟩
    rw [Reader.readToFunc] at h ⊢
    cases hr : rd.read clp io (n + 1) with
    | none => simp [hr] at h
    | some r₁ =>
      have hm : rd.read clp io (m + 1) = some r₁ := Loop.run_mono hr hnm
      rw [hr] at h
      rw [hm]
      obtain ⟨rd₁, res₁⟩ := r₁
      cases res₁ with
      | error err => exact h
      | ok event =>
        dsimp only at h ⊢
        split
        · rename_i hf
          rwa [if_pos hf] at h
        · rename_i hf
          rw [if_neg hf] at h
          exact ih h (by omega)

theorem exec_mono {op : ReaderOp} {n m : ℕ} {rd : Reader σ} {r : Reader σ × OpResult ε}
    (h : op.exec clp io n rd = some r) (hnm : n ≤ m) : op.exec clp io m rd = some r := by
  cases op <;> obtain ⟨r₁, hr, rfl⟩ := Option.map_eq_some_iff.mp h
  case read => exact Option.map_eq_some_iff.mpr ⟨r₁, Loop.run_mono hr hnm, rfl⟩
  case readToWildcardMatch => exact Option.map_eq_some_iff.mpr ⟨r₁, Loop.run_mono hr hnm, rfl⟩
  case readToWildcardMatchWithTimeInterval =>
    exact Option.map_eq_some_iff.mpr ⟨r₁, Loop.run_mono hr hnm, rfl⟩
  all_goals exact Option.map_eq_some_iff.mpr ⟨r₁, readToFunc_mono hr hnm, rfl⟩

theorem execAll_mono {ops : List ReaderOp} {n m : ℕ} {rd : Reader σ}
    {r : Reader σ × List (OpResult ε)} (h : execAll clp io n rd ops = some r) (hnm : n ≤ m) :
    execAll clp io m rd ops = some r := by
  induction ops generalizing rd r with
  | nil => exact h
  | cons op ops ih =>
    rw [execAll] at h ⊢
    cases ho : op.exec clp io n rd with
    | none => simp [ho] at h
    | some r₁ =>
      rw [ho] at h
      rw [exec_mono ho hnm]
      obtain ⟨r₂, hr, rfl⟩ := Option.map_eq_some_iff.mp h
      exact Option.map_eq_some_iff.mpr ⟨r₂, ih hr, rfl⟩

theorem execAll_cons {op : ReaderOp} {ops : List ReaderOp} {fuel : ℕ} {rd rd₁ rd₂ : Reader σ}
    {res : OpResult ε} {results : List (OpResult ε)}
    (hop : op.exec clp io fuel rd = some (rd₁, res))
    (hops : execAll clp io fuel rd₁ ops = some (rd₂, results)) :
    execAll clp io fuel rd (op :: ops) = some (rd₂, res :: results) := by
  rw [execAll, hop]
  dsimp only
  rw [hops]
  rfl

end ClpFfiGo
