import ClpFfiGo.BufferSize

namespace ClpFfiGo

variable {σ ε β : Type} {clp : IrReadApi} {json : JsonApi ε} {io : IoReader σ ε} {s : σ}
  {size : ℕ}

abbrev ReadBuf.received (rb : ReadBuf (σ × List UInt8)) : ℕ := rb.ioReader.2.length

-- The buffer has been doubled only while a quarter of its new size was waiting in it.
def ReadBuf.Grown (size : ℕ) (rb : ReadBuf (σ × List UInt8)) : Prop :=
  ∃ doublings, rb.buf.length = size * 2 ^ doublings ∧
    (doublings = 0 ∨ rb.buf.length < 4 * rb.received)

theorem ReadBuf.Grown.keeps {rb rb' : ReadBuf (σ × List UInt8)} (h : rb.Grown size)
    (hlen : rb'.buf.length = rb.buf.length) (hrecv : rb.received ≤ rb'.received) :
    rb'.Grown size := by
  obtain ⟨n, hn, hbound⟩ := h
  refine ⟨n, hlen.trans hn, ?_⟩
  rcases hbound with h0 | hlt
  · exact .inl h0
  · right
    omega

theorem ReadBuf.Grown.compacts {rb rb' : ReadBuf (σ × List UInt8)} (h : rb.Grown size)
    (hwf : rb.WF) (hunread : rb.unread.length ≤ rb.received)
    (hlen : rb'.buf.length = rb.compacted.buf.length) (hrecv : rb.received ≤ rb'.received) :
    rb'.Grown size := by
  rw [ReadBuf.length_compacted] at hlen
  have hu := hwf.length_unread
  split at hlen
  · rename_i hhalf
    obtain ⟨n, hn, _⟩ := h
    refine ⟨n + 1, ?_, .inr ?_⟩
    · rw [hlen, hn, Nat.pow_succ, Nat.mul_assoc]
    · omega
  · exact h.keeps hlen hrecv

theorem refilled_received {rb rb' : ReadBuf (σ × List UInt8)} {p : List UInt8}
    (h : ReadBuf.Refilled io.logged rb rb' p) : rb.received ≤ rb'.received := by
  rw [ReadBuf.received, ReadBuf.received, h.ioReader, IoReader.logged_next, List.length_append]
  exact Nat.le_add_right _ _

theorem turn_received (io : IoReader σ ε) (call : Reader.Call ε β)
    {rd : Reader (σ × List UInt8)} (h : rd.WF) :
    rd.received ≤ ((Reader.turn io.logged call rd).elim id Prod.fst).received := by
  have hcases := Reader.turn_cases io.logged call h
  generalize Reader.turn io.logged call rd = out at hcases ⊢
  cases hcases with
  | returned _ => exact Nat.le_refl _
  | rejected _ _ => exact Nat.le_refl _
  | refilled _ _ hr _ => exact refilled_received hr
  | sourceFailed _ _ hr _ => exact refilled_received hr

theorem turn_grown (call : Reader.Call ε β) {rd : Reader (σ × List UInt8)} {c : List UInt8}
    (hr : Reachable clp json io.logged (s, []) size rd c) (h : rd.toReadBuf.Grown size) :
    ((Reader.turn io.logged call rd).elim id Prod.fst).toReadBuf.Grown size := by
  obtain ⟨hwf, hlog⟩ := reachable_invariant hr
  have hrecv := turn_received io call hwf
  have hunread : rd.unread.length ≤ rd.received := by
    rw [ReadBuf.received, ← hlog, List.length_append]
    exact Nat.le_add_left _ _
  rcases turn_length io.logged call hwf with hlen | ⟨_, hlen⟩
  · exact h.keeps hlen hrecv
  · exact h.compacts hwf hunread hlen hrecv

theorem constructing_grown {rb : ReadBuf (σ × List UInt8)}
    (h : Constructing clp json io.logged (s, []) size rb) : rb.Grown size := by
  obtain ⟨rb₀, n, hread, hturns⟩ := h
  have hw : (ReadBuf.initial (s, ([] : List UInt8)) size).WF := ⟨le_refl _, Nat.zero_le _⟩
  have hlen := io.logged.length_p (s, []) (List.replicate size 0)
  have hfirst : Constructing clp json io.logged (s, []) size rb₀ := ⟨rb₀, n, hread, .refl⟩
  have hgrown : rb₀.Grown size := by
    rw [ReadBuf.read_eq hw] at hread
    obtain ⟨rfl, -⟩ := Prod.mk.inj hread
    exact ⟨0, by simp [ReadBuf.afterRead, ReadBuf.initial, hlen], .inl rfl⟩
  refine (hturns.invariant (P := fun rb =>
    Constructing clp json io.logged (s, []) size rb ∧ rb.Grown size) ?_ ⟨hfirst, hgrown⟩).2
  rintro rb rb' ⟨hc, hg⟩ ht
  refine ⟨hc.next ht, ?_⟩
  obtain ⟨hwf, h0, hlog⟩ := constructing_invariant hc
  have hcases := construct_cases clp json io.logged hwf h0
  rw [ht] at hcases
  cases hcases with
  | refilled _ _ hr _ =>
    refine hg.compacts hwf ?_ ?_ (refilled_received hr)
    · rw [ReadBuf.received, hlog]
    · rw [newReaderTurn_inl h0 ht, ReadBuf.length_fillBuf io.logged hwf]

theorem reachable_grown {rd : Reader (σ × List UInt8)} {c : List UInt8}
    (h : Reachable clp json io.logged (s, []) size rd c) : rd.toReadBuf.Grown size := by
  induction h with
  | @constructed rb rd d pos hr _ hd =>
    obtain ⟨hwf, h0, _⟩ := constructing_invariant hr
    have hcases := construct_cases clp json io.logged hwf h0
    rw [hd] at hcases
    cases hcases
    exact (constructing_grown hr).keeps rfl (Nat.le_refl _)
  | @refilled β call rd rd' c hr _ ht ih =>
    have hgrown := turn_grown call hr ih
    rwa [ht] at hgrown
  | @failed β call rd rd' c err hr _ ht ih =>
    have hgrown := turn_grown call hr ih
    rwa [ht] at hgrown
  | @returned β call rd rd' c d event pos hr _ _ ht ih =>
    have hgrown := turn_grown call hr ih
    rwa [ht] at hgrown

theorem buffer_growth (clp : IrReadApi) (json : JsonApi ε) (io : IoReader σ ε) (s : σ)
    (size : ℕ) :
    (∀ rb, Constructing clp json io.logged (s, []) size rb → rb.Grown size) ∧
    (∀ rd c, Reachable clp json io.logged (s, []) size rd c → rd.toReadBuf.Grown size) ∧
    (∀ fuel rd, newReaderSize clp json io.logged (s, []) size fuel = some (.ok rd) →
      ∃ c, Reachable clp json io.logged (s, []) size rd c) ∧
    ∀ rd c ops fuel rd' results, Reachable clp json io.logged (s, []) size rd c →
      execAll clp io.logged fuel rd ops = some (rd', results) →
      ∃ c', Reachable clp json io.logged (s, []) size rd' c' := by
  refine ⟨?_, ?_, ?_, ?_⟩
  · intro rb h
    exact constructing_grown h
  · intro rd c h
    exact reachable_grown h
  · intro fuel rd h
    exact (newReaderSize_reachable h).2 rd rfl
  · intro rd c ops fuel rd' results h he
    obtain ⟨_, x, h'⟩ := execAll_reachable h he
    exact ⟨c ++ x, h'⟩

end ClpFfiGo
