import ClpFfiGo.SessionCalls
import ClpFfiGo.SampleMessages

namespace ClpFfiGo.Heaped

variable {σ ε : Type}

section runs

variable {apis : Apis σ ε} {session : Session σ}

theorem construct_balanced (hb : session.Balanced Object.isOpen) {built : Constructed σ ε}
    (h : Built session.heap built) :
    (∀ object handle, built.2 = .ok ⟨object, handle⟩ →
      HandleTable.Balanced Object.isOpen { session with
        heap := built.1, objects := session.objects ++ [(object, handle)] }) ∧
    ∀ err, built.2 = .error err → HandleTable.Balanced Object.isOpen { session with
      heap := built.1, leaked := session.leaked ∪ (built.1.live \ session.heap.live) } := by
  obtain ⟨allocated, hheap, hok⟩ := h
  refine ⟨fun object handle hr => ?_, fun err hr => ?_⟩
  · obtain ⟨rfl, hhandle, hopen⟩ := hok _ hr
    dsimp only at hhandle hopen
    rw [hheap, hhandle]
    exact hb.add hopen
  · rw [hheap]
    cases allocated with
    | false =>
      have hnone : session.leaked ∪ ((session.heap.allocIf false).live \ session.heap.live) =
          session.leaked := by
        simp [Heap.allocIf]
      rw [hnone]
      exact hb
    | true =>
      have hlost : session.leaked ∪ ((session.heap.allocIf true).live \ session.heap.live) =
          insert session.heap.next session.leaked := by
        ext h
        simp only [Heap.allocIf, if_true, Heap.live_alloc, Finset.mem_union, Finset.mem_sdiff,
          Finset.mem_insert]
        have hnext := session.heap.next_notMem
        constructor
        · rintro (hl | ⟨rfl | hl, hn⟩)
          · exact .inr hl
          · exact .inl rfl
          · exact absurd hl hn
        · rintro (rfl | hl)
          · exact .inr ⟨.inl rfl, hnext⟩
          · exact .inl hl
      rw [hlost]
      exact hb.lose

theorem step_balanced (apis : Apis σ ε) (hb : session.Balanced Object.isOpen)
    (op : SessionOp σ ε) :
    session.step apis op = .error .undefined ∨
      ∃ session', session.step apis op = .ok session' ∧ session'.Balanced Object.isOpen := by
  cases op with
  | construct c =>
    rw [Session.step]
    cases hc : c.exec apis session.heap with
    | none => exact .inl rfl
    | some built =>
      have hbuilt := construct_balanced hb (Constructor.built hc)
      obtain ⟨heap, err | ⟨object, handle⟩⟩ := built
      · exact .inr ⟨_, rfl, hbuilt.2 err rfl⟩
      · exact .inr ⟨_, rfl, hbuilt.1 object handle rfl⟩
  | call i method =>
    rw [Session.step]
    cases hi : session.objects[i]? with
    | none => exact .inr ⟨session, rfl, hb⟩
    | some p =>
      obtain ⟨object, handle⟩ := p
      dsimp only
      cases hm : method.exec apis object with
      | none => exact .inl rfl
      | some object' =>
        obtain ⟨session', hcall, hb', _, _⟩ := hb.call i object' (method.closes object) (by
          intro a h ha
          rw [hi] at ha
          cases ha
          exact Method.exec_open hm)
        dsimp only
        rw [hcall]
        exact .inr ⟨session', rfl, hb'⟩
  | newWildcardQuery query caseSensitive =>
    refine .inr ⟨_, rfl, ⟨fun h => ?_, hb.distinct, hb.unowned⟩⟩
    have hlive : (newWildcardQuery apis session.heap query caseSensitive).1.live =
        session.heap.live := session.heap.live_free_alloc
    rw [hlive]
    exact hb.live h

theorem run_balanced (apis : Apis σ ε) (hb : session.Balanced Object.isOpen)
    (ops : List (SessionOp σ ε)) :
    Session.run apis session ops = .error .undefined ∨
      ∃ session', Session.run apis session ops = .ok session' ∧
        session'.Balanced Object.isOpen := by
  induction ops generalizing session with
  | nil => exact .inr ⟨session, rfl, hb⟩
  | cons op ops ih =>
    rw [Session.run]
    rcases step_balanced apis hb op with herr | ⟨session₁, hok, hb₁⟩
    · rw [herr]
      exact .inl rfl
    · rw [hok]
      exact ih hb₁

theorem close_step (apis : Apis σ ε) (hb : session.Balanced Object.isOpen) (i : ℕ) :
    ∃ session', session.step apis (.call i .close) = .ok session' ∧
      session'.Balanced Object.isOpen ∧ session'.leaked = session.leaked ∧
      ∀ j object h, session'.objects[j]? = some (object, h) → object.isOpen = true →
        j ≠ i ∧ session.objects[j]? = some (object, h) := by
  rw [Session.step]
  cases hi : session.objects[i]? with
  | none =>
    refine ⟨session, rfl, hb, rfl, fun j object h hj _ => ⟨?_, hj⟩⟩
    rintro rfl
    rw [hi] at hj
    cases hj
  | some p =>
    obtain ⟨object, handle⟩ := p
    have hexec : Method.exec apis .close object = some object.close := by cases object <;> rfl
    obtain ⟨session', hcall, hb', hleaked, hset⟩ := hb.call i object.close true (by
      intro a h ha
      rw [hi] at ha
      cases ha
      rw [object.close_open, Bool.not_true, Bool.and_false])
    have hcloses : Method.closes (ε := ε) .close object = true := by cases object <;> rfl
    simp only [hexec, hcloses, hcall]
    refine ⟨session', rfl, hb', hleaked, fun j object' h hj hopen => ?_⟩
    rw [hset object handle hi] at hj
    by_cases hji : j = i
    · subst hji
      rw [List.getElem?_set_self (List.getElem?_eq_some_iff.mp hi).1] at hj
      cases hj
      rw [object.close_open] at hopen
      cases hopen
    · rw [List.getElem?_set_ne (Ne.symm hji)] at hj
      exact ⟨hji, hj⟩

theorem close_run (apis : Apis σ ε) (is : List ℕ) (hb : session.Balanced Object.isOpen) :
    ∃ session', Session.run apis session (is.map fun i => .call i .close) = .ok session' ∧
      session'.Balanced Object.isOpen ∧ session'.leaked = session.leaked ∧
      ∀ j object h, session'.objects[j]? = some (object, h) → object.isOpen = true →
        j ∉ is ∧ session.objects[j]? = some (object, h) := by
  induction is generalizing session with
  | nil => exact ⟨session, rfl, hb, rfl, fun j object h hj _ => ⟨List.not_mem_nil, hj⟩⟩
  | cons i is ih =>
    obtain ⟨session₁, hstep, hb₁, hleaked₁, hopen₁⟩ := close_step apis hb i
    obtain ⟨session', hrun, hb', hleaked', hopen'⟩ := ih hb₁
    refine ⟨session', ?_, hb', hleaked'.trans hleaked₁, fun j object h hj ho => ?_⟩
    · rw [List.map_cons, Session.run, hstep]
      exact hrun
    · obtain ⟨hnot, hj₁⟩ := hopen' j object h hj ho
      obtain ⟨hji, hj₀⟩ := hopen₁ j object h hj₁ ho
      exact ⟨fun hmem => (List.mem_cons.mp hmem).elim hji hnot, hj₀⟩

theorem closeAll_run (apis : Apis σ ε) (hb : session.Balanced Object.isOpen) :
    ∃ closed, Session.run apis session session.closeAll = .ok closed ∧
      closed.Balanced Object.isOpen ∧ closed.heap.live = session.leaked := by
  obtain ⟨closed, hrun, hb', hleaked, hopen⟩ :=
    close_run apis (List.range session.objects.length) hb
  refine ⟨closed, hrun, hb', ?_⟩
  rw [← hleaked]
  apply hb'.closed
  intro j object h hj
  by_contra ho
  obtain ⟨hnot, hj₀⟩ := hopen j object h hj (Bool.not_eq_false _ ▸ ho)
  exact hnot (List.mem_range.mpr (List.getElem?_eq_some_iff.mp hj₀).1)

theorem step_clean (hs : session.leaked = ∅) {op : SessionOp σ ε} (hc : op.Clean apis)
    {session' : Session σ} (h : session.step apis op = .ok session') : session'.leaked = ∅ := by
  cases op with
  | construct c =>
    rw [Session.step] at h
    split at h
    · cases h
    · cases h
      exact hs
    · rename_i heap err hexec
      cases h
      have hlive : heap.live = session.heap.live := hc _ _ hexec err rfl
      simp [hs, hlive]
  | call i method =>
    rw [Session.step] at h
    split at h
    · cases h
      exact hs
    · split at h
      · cases h
      · split at h
        · cases h
        · rename_i hcall
          cases h
          exact (HandleTable.leaked_call hcall).trans hs
  | newWildcardQuery query caseSensitive =>
    cases h
    exact hs

theorem run_clean (hs : session.leaked = ∅) {ops : List (SessionOp σ ε)}
    (hc : ∀ op ∈ ops, op.Clean apis) {session' : Session σ}
    (h : Session.run apis session ops = .ok session') : session'.leaked = ∅ := by
  induction ops generalizing session with
  | nil =>
    cases h
    exact hs
  | cons op ops ih =>
    rw [List.forall_mem_cons] at hc
    rw [Session.run] at h
    cases hstep : session.step apis op with
    | error fault =>
      rw [hstep] at h
      cases h
    | ok session₁ =>
      rw [hstep] at h
      exact ih (step_clean hs hc.1 hstep) hc.2 h

end runs

theorem session_memory_safe (apis : Apis σ ε) (ops : List (SessionOp σ ε)) :
    Session.run apis HandleTable.empty ops ≠ .error .memory ∧
      ∀ session, Session.run apis HandleTable.empty ops = .ok session →
        session.Balanced Object.isOpen ∧
        ∃ closed, Session.run apis session session.closeAll = .ok closed ∧
          closed.Balanced Object.isOpen ∧ closed.heap.live = session.leaked ∧
          ((∀ op ∈ ops, op.Clean apis) → closed.heap.live = ∅) := by
  have hbalanced := run_balanced apis HandleTable.balanced_empty ops
  constructor
  · rcases hbalanced with herr | ⟨session, hok, _⟩
    · rw [herr]
      intro h
      cases h
    · rw [hok]
      intro h
      cases h
  · intro session hrun
    rcases hbalanced with herr | ⟨session₁, hok, hb⟩
    · rw [herr] at hrun
      cases hrun
    · rw [hok] at hrun
      cases hrun
      obtain ⟨closed, hclose, hb', hlive⟩ := closeAll_run apis hb
      exact ⟨hb, closed, hclose, hb', hlive, fun hc => hlive.trans (run_clean rfl hc hok)⟩

section sampling

open SampleCodec

def sampleApis : Apis (List (List UInt8)) Unit :=
  ⟨readApi, writeApi, SampleMessages.messageApi, jsonApi, source, id⟩

-- The second preamble is rejected for its metadata type, and what was allocated for it is lost.
def sampleOps : List (SessionOp (List (List UInt8)) Unit) :=
  [.construct (.newEncoder .fourByte), .newWildcardQuery (ascii "*a*") true,
    .construct (.deserializePreamble (stream .eightByte (ascii "UTC") 0 [])),
    .construct (.deserializePreamble (magic .eightByte ++ [2, 0x11, 0])),
    .call 0 (.encodeLogMessage (ascii "a")), .call 0 .close, .call 0 .close,
    .call 0 (.encodeLogMessage (ascii "a")), .call 1 (.deserializeLogEvent [0])]

theorem sample_session_safe : ∃ session closed,
    Session.run sampleApis HandleTable.empty sampleOps = .ok session ∧
    Session.run sampleApis session session.closeAll = .ok closed ∧
    closed.heap.live = {3} := by
  have hrun : (Session.run sampleApis HandleTable.empty sampleOps).toOption.map
      (fun session => decide (session.leaked = {3})) = some true := by decide +kernel
  obtain ⟨session, hsession, hleaked⟩ := Option.map_eq_some_iff.mp hrun
  have hok := ok_of_toOption hsession
  obtain ⟨_, closed, hclose, _, hlive, _⟩ :=
    (session_memory_safe sampleApis sampleOps).2 session hok
  exact ⟨session, closed, hok, hclose, hlive.trans (of_decide_eq_true hleaked)⟩

end sampling

end ClpFfiGo.Heaped
