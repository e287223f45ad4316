import ClpFfiGo.Foundation.Loop
import Mathlib.Data.List.Infix

structure Fifo (α : Type) where
  queue : List α
  closed : Bool

namespace Fifo

variable {α S A O : Type}

inductive Label (α : Type) where
  | send (a : α)
  | receive (a : α)
  | close
  | finish
  | silent
  deriving DecidableEq

inductive Step : Fifo α → Label α → Fifo α → Prop
  | send {q : List α} (a : α) : Step ⟨q, false⟩ (.send a) ⟨q ++ [a], false⟩
  | receive {q : List α} {c : Bool} (a : α) : Step ⟨a :: q, c⟩ (.receive a) ⟨q, c⟩
  | close {q : List α} {c : Bool} : Step ⟨q, c⟩ .close ⟨q, true⟩
  | finish : Step ⟨[], true⟩ .finish ⟨[], true⟩
  | silent {s : Fifo α} : Step s .silent s

inductive Run : Fifo α → List (Label α) → Fifo α → Prop
  | nil {s} : Run s [] s
  | cons {s t u l ls} : Step s l t → Run t ls u → Run s (l :: ls) u

def Label.sent : Label α → Option α
  | .send a => some a
  | _ => none

def Label.received : Label α → Option α
  | .receive a => some a
  | _ => none

def sent (ls : List (Label α)) : List α := ls.filterMap Label.sent

def received (ls : List (Label α)) : List α := ls.filterMap Label.received

def outputs (step : S → A → S × O) : S → List A → List O
  | _, [] => []
  | s, a :: as => (step s a).2 :: outputs step (step s a).1 as

def final (step : S → A → S × O) : S → List A → S
  | s, [] => s
  | s, a :: as => final step (step s a).1 as

-- Every allowed input moves the machine as its label moves the queue, with an output in `good`.
structure Simulated (step : S → A → S × O) (label : O → Label α) (allowed : A → Prop)
    (good : O → Prop) (R : S → Fifo α → Prop) : Prop where
  good : ∀ s q a, R s q → allowed a → good (step s a).2
  moves : ∀ s q a, R s q → allowed a →
    ∃ q', Step q (label (step s a).2) q' ∧ R (step s a).1 q'

theorem Step.account {s t : Fifo α} {l : Label α} (h : Step s l t) :
    s.queue ++ l.sent.toList = l.received.toList ++ t.queue := by
  cases h <;> simp [Label.sent, Label.received]

theorem Step.stays_closed {s t : Fifo α} {l : Label α} (h : Step s l t) (hs : s.closed = true) :
    t.closed = true ∧ l.sent = none := by
  cases h with
  | send a => cases hs
  | receive a => exact ⟨hs, rfl⟩
  | close => exact ⟨rfl, rfl⟩
  | finish => exact ⟨rfl, rfl⟩
  | silent => exact ⟨hs, rfl⟩

theorem Run.account {s t : Fifo α} {ls : List (Label α)} (h : Run s ls t) :
    s.queue ++ sent ls = received ls ++ t.queue := by
  induction h with
  | nil => simp [sent, received]
  | @cons s t u l ls hstep _ ih =>
    have hone := hstep.account
    have hsent : sent (l :: ls) = l.sent.toList ++ sent ls := by
      cases hl : l.sent <;> simp [sent, hl]
    have hreceived : received (l :: ls) = l.received.toList ++ received ls := by
      cases hl : l.received <;> simp [received, hl]
    rw [hsent, hreceived, ← List.append_assoc, hone, List.append_assoc, ih, List.append_assoc]

theorem Run.received_prefix {s t : Fifo α} {ls : List (Label α)} (h : Run s ls t) :
    received ls <+: s.queue ++ sent ls := by
  rw [h.account]
  exact List.prefix_append _ _

theorem Run.stays_closed {s t : Fifo α} {ls : List (Label α)} (h : Run s ls t)
    (hs : s.closed = true) : t.closed = true ∧ sent ls = [] := by
  induction h with
  | nil => exact ⟨hs, rfl⟩
  | cons hstep _ ih =>
    obtain ⟨hclosed, hsent⟩ := hstep.stays_closed hs
    obtain ⟨ht, hls⟩ := ih hclosed
    refine ⟨ht, ?_⟩
    rw [sent, List.filterMap_cons_none hsent]
    exact hls

theorem Run.closes {s t : Fifo α} {ls : List (Label α)} (h : Run s ls t)
    (hc : Label.close ∈ ls) : t.closed = true := by
  induction h with
  | nil => cases hc
  | cons hstep hrun ih =>
    rcases List.mem_cons.mp hc with rfl | hc
    · cases hstep
      exact (hrun.stays_closed rfl).1
    · exact ih hc

theorem Run.finished {s t : Fifo α} {ls : List (Label α)} (h : Run s ls t)
    (hf : Label.finish ∈ ls) : t = ⟨[], true⟩ := by
  induction h with
  | nil => cases hf
  | cons hstep hrun ih =>
    rcases List.mem_cons.mp hf with rfl | hf
    · cases hstep
      obtain ⟨hc, hsent⟩ := hrun.stays_closed rfl
      have hq := hrun.account
      rw [hsent, List.append_nil] at hq
      obtain ⟨_, hq⟩ := List.append_eq_nil_iff.mp hq.symm
      rw [← hq, ← hc]
    · exact ih hf

theorem Simulated.run {step : S → A → S × O} {label : O → Label α} {allowed : A → Prop}
    {good : O → Prop} {R : S → Fifo α → Prop} (h : Simulated step label allowed good R) {s : S}
    {q : Fifo α} (hs : R s q) {as : List A} (has : ∀ a ∈ as, allowed a) :
    (∀ o ∈ outputs step s as, good o) ∧
      ∃ q', Run q ((outputs step s as).map label) q' ∧ R (final step s as) q' := by
  induction as generalizing s q with
  | nil => exact ⟨by simp [outputs], q, .nil, hs⟩
  | cons a as ih =>
    rw [List.forall_mem_cons] at has
    obtain ⟨q₁, hstep, h₁⟩ := h.moves s q a hs has.1
    obtain ⟨hgood, q', hrun, h'⟩ := ih h₁ has.2
    exact ⟨List.forall_mem_cons.mpr ⟨h.good s q a hs has.1, hgood⟩, q', .cons hstep hrun, h'⟩

theorem outputs_append (step : S → A → S × O) (s : S) (as bs : List A) :
    outputs step s (as ++ bs) = outputs step s as ++ outputs step (final step s as) bs := by
  induction as generalizing s with
  | nil => rfl
  | cons a as ih => exact congrArg _ (ih _)

-- A loop that ends, as the steps of a machine whose input `a` makes one turn of it.
theorem final_loop {σ ρ : Type} {turn : σ → σ ⊕ ρ} (step : S → A → S × O) (a : A) (f : σ → S)
    (g : ρ → S) (o : O) (stop : ρ → O) (hturn : ∀ s t, turn s = .inl t → step (f s) a = (f t, o))
    (hstop : ∀ s r, turn s = .inr r → step (f s) a = (g r, stop r)) {s : σ} {r : ρ}
    (h : Loop.Ends turn s r) :
    ∃ n, final step (f s) (List.replicate (n + 1) a) = g r ∧
      outputs step (f s) (List.replicate (n + 1) a) = List.replicate n o ++ [stop r] := by
  induction h with
  | stop ht => exact ⟨0, by simp [final, hstop _ _ ht], by simp [outputs, hstop _ _ ht]⟩
  | turn ht _ ih =>
    obtain ⟨n, hf, ho⟩ := ih
    refine ⟨n + 1, ?_, ?_⟩
    · rw [List.replicate_succ, final, hturn _ _ ht]
      exact hf
    · rw [List.replicate_succ, outputs, hturn _ _ ht]
      dsimp only
      rw [ho]
      rfl

theorem Run.closing {s t : Fifo α} {ls : List (Label α)} (h : Run s ls t)
    (hs : s.closed = false) (ht : t.closed = true) : Label.close ∈ ls := by
  induction h with
  | nil => rw [hs] at ht; cases ht
  | cons hstep _ ih =>
    cases hstep with
    | close => exact List.mem_cons_self
    | finish => cases hs
    | send a => exact List.mem_cons_of_mem _ (ih rfl ht)
    | receive a => exact List.mem_cons_of_mem _ (ih hs ht)
    | silent => exact List.mem_cons_of_mem _ (ih hs ht)

theorem received_append (ls ms : List (Label α)) :
    received (ls ++ ms) = received ls ++ received ms := List.filterMap_append

theorem received_silent (n : ℕ) : received (List.replicate n (Label.silent : Label α)) = [] := by
  simp [received, Label.received]

end Fifo
