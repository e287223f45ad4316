import Mathlib.Logic.Relation
import Mathlib.Tactic.Common

namespace Loop

variable {σ ρ : Type}

def run (step : σ → σ ⊕ ρ) : ℕ → σ → Option ρ
  | 0, _ => none
  | n + 1, s => match step s with
    | .inl t => run step n t
    | .inr r => some r

inductive Ends (step : σ → σ ⊕ ρ) : σ → ρ → Prop
  | stop {s r} : step s = .inr r → Ends step s r
  | turn {s t r} : step s = .inl t → Ends step t r → Ends step s r

def Turns (step : σ → σ ⊕ ρ) : σ → σ → Prop :=
  Relation.ReflTransGen (fun s t => step s = .inl t)

-- `k` turns that each bring in at least one unit of what `n` counts.
inductive Fed (step : σ → σ ⊕ ρ) (n : σ → ℕ) : ℕ → σ → σ → Prop
  | refl {s} : Fed step n 0 s s
  | turn {k s t u} : step s = .inl t → 1 ≤ n s → Fed step n k t u → Fed step n (k + 1) s u

-- Every call that returns keeps `P` of the state, and its error, if any, satisfies `E`.
def Keeps {ε β : Type} (P : σ → Prop) (E : ε → Prop)
    (call : ℕ → σ → Option (σ × Except ε β)) : Prop :=
  ∀ fuel s s' res, P s → call fuel s = some (s', res) → P s' ∧ ∀ err, res = .error err → E err

def trace (step : σ → σ ⊕ ρ) : ℕ → σ → List σ
  | 0, _ => []
  | n + 1, s => s :: match step s with
    | .inl t => trace step n t
    | .inr _ => []

variable {step : σ → σ ⊕ ρ}

theorem ends_of_run {n : ℕ} {s : σ} {r : ρ} (h : run step n s = some r) : Ends step s r := by
  induction n generalizing s with
  | zero => simp [run] at h
  | succ n ih =>
    simp only [run] at h
    cases hs : step s with
    | inl t => rw [hs] at h; exact .turn hs (ih h)
    | inr q => rw [hs] at h; cases h; exact .stop hs

theorem run_of_ends {s : σ} {r : ρ} (h : Ends step s r) : ∃ n, run step n s = some r := by
  induction h with
  | stop hs => exact ⟨1, by simp [run, hs]⟩
  | turn hs _ ih =>
    obtain ⟨n, hn⟩ := ih
    exact ⟨n + 1, by simpa [run, hs] using hn⟩

theorem run_mono {n m : ℕ} {s : σ} {r : ρ} (h : run step n s = some r) (hnm : n ≤ m) :
    run step m s = some r := by
  induction n generalizing s m with
  | zero => simp [run] at h
  | succ n ih =>
    obtain ⟨m, rfl⟩ : ∃ k, m = k + 1 := ⟨m - 1, by omega⟩
    simp only [run] at h ⊢
    cases hs : step s with
    | inl t => rw [hs] at h; exact ih h (by omega)
    | inr q => rw [hs] at h; exact h

theorem Ends.last {s : σ} {r : ρ} (h : Ends step s r) : ∃ t, Turns step s t ∧ step t = .inr r := by
  induction h with
  | stop hs => exact ⟨_, .refl, hs⟩
  | turn hs _ ih =>
    obtain ⟨t, ht, hr⟩ := ih
    exact ⟨t, .head hs ht, hr⟩

theorem Turns.ends {s t : σ} {r : ρ} (h : Turns step s t) (hr : step t = .inr r) :
    Ends step s r := by
  induction h using Relation.ReflTransGen.head_induction_on with
  | refl => exact .stop hr
  | head hst _ ih => exact .turn hst ih

theorem run_map {τ ω : Type} {step' : τ → τ ⊕ ω} {f : σ → τ} {g : ρ → ω}
    (h : ∀ s, step' (f s) = (step s).map f g) (n : ℕ) (s : σ) :
    run step' n (f s) = (run step n s).map g := by
  induction n generalizing s with
  | zero => rfl
  | succ n ih =>
    rw [run, run, h]
    cases step s with
    | inl t => exact ih t
    | inr r => rfl

theorem Turns.invariant {P : σ → Prop} (hstep : ∀ s t, P s → step s = .inl t → P t)
    {s t : σ} (h : Turns step s t) (hs : P s) : P t := by
  induction h with
  | refl => exact hs
  | tail _ ht ih => exact hstep _ _ ih ht

theorem Fed.grows {P : σ → Prop} {n m : σ → ℕ}
    (hturn : ∀ s t, P s → step s = .inl t → P t ∧ m t = m s + n s) {k : ℕ} {s t : σ}
    (h : Fed step n k s t) (hs : P s) : m s + k ≤ m t := by
  induction h with
  | refl => exact Nat.le_refl _
  | turn hst hn _ ih =>
    obtain ⟨ht, hm⟩ := hturn _ _ hs hst
    have hle := ih ht
    omega

theorem Ends.post {P : σ → Prop} {Q : ρ → Prop} (hturn : ∀ s t, P s → step s = .inl t → P t)
    (hstop : ∀ s r, P s → step s = .inr r → Q r) {s : σ} {r : ρ} (h : Ends step s r)
    (hs : P s) : Q r := by
  obtain ⟨t, ht, hr⟩ := h.last
  exact hstop t r (ht.invariant hturn hs) hr

theorem keeps_run {ε β : Type} {step : σ → σ ⊕ (σ × Except ε β)} {P : σ → Prop} {E : ε → Prop}
    (hturn : ∀ s t, P s → step s = .inl t → P t)
    (hstop : ∀ s s' res, P s → step s = .inr (s', res) →
      P s' ∧ ∀ err, res = .error err → E err) : Keeps P E (run step) := by
  intro fuel s s' res hs hrun
  exact (ends_of_run hrun).post (Q := fun r => P r.1 ∧ ∀ err, r.2 = .error err → E err) hturn
    (fun s r hp hr => hstop s r.1 r.2 hp hr) hs

theorem Keeps.map {ε β γ : Type} {P : σ → Prop} {E : ε → Prop}
    {call : ℕ → σ → Option (σ × Except ε β)} {g : Except ε β → Except ε γ}
    (hg : ∀ res err, g res = .error err → res = .error err) (h : Keeps P E call) :
    Keeps P E (fun fuel s => (call fuel s).map (Prod.map id g)) := by
  intro fuel s s' res hs hcall
  obtain ⟨⟨s₁, res₁⟩, hr, hm⟩ := Option.map_eq_some_iff.mp hcall
  cases hm
  obtain ⟨hp, he⟩ := h fuel s s₁ res₁ hs hr
  exact ⟨hp, fun err herr => he err (hg res₁ err herr)⟩

theorem not_ends {P : σ → Prop} (hturn : ∀ s, P s → ∃ t, step s = .inl t ∧ P t) {s : σ} {r : ρ}
    (hs : P s) : ¬ Ends step s r := by
  intro h
  induction h with
  | stop hr =>
    obtain ⟨t, ht, _⟩ := hturn _ hs
    rw [hr] at ht
    cases ht
  | turn ht _ ih =>
    obtain ⟨u, hu, hp⟩ := hturn _ hs
    rw [ht] at hu
    cases hu
    exact ih hp

theorem fold_trace {A : Type} {P : σ → Prop} {m : σ → A} {f : ρ → A} {w : A → σ → A}
    (hturn : ∀ s t, P s → step s = .inl t → P t ∧ m t = w (m s) s)
    (hstop : ∀ s r, P s → step s = .inr r → f r = w (m s) s) {n : ℕ} {s : σ} {r : ρ}
    (hs : P s) (h : run step n s = some r) : f r = (trace step n s).foldl w (m s) := by
  induction n generalizing s with
  | zero => simp [run] at h
  | succ n ih =>
    simp only [run] at h
    simp only [trace]
    cases hst : step s with
    | inl t =>
      rw [hst] at h
      obtain ⟨ht, hm⟩ := hturn s t hs hst
      simp only [List.foldl_cons, ← hm]
      exact ih ht h
    | inr q =>
      rw [hst] at h
      cases h
      simpa using hstop s r hs hst

theorem mem_trace {n : ℕ} {s t : σ} (h : t ∈ trace step n s) : Turns step s t := by
  induction n generalizing s with
  | zero => simp [trace] at h
  | succ n ih =>
    simp only [trace, List.mem_cons] at h
    rcases h with rfl | h
    · exact .refl
    · cases hs : step s with
      | inl u => rw [hs] at h; exact .head hs (ih h)
      | inr q => rw [hs] at h; simp at h

theorem Turns.mem_trace {s t : σ} (h : Turns step s t) {n : ℕ} {r : ρ}
    (hrun : run step n s = some r) : t ∈ trace step n s := by
  induction h using Relation.ReflTransGen.head_induction_on generalizing n with
  | refl =>
    cases n with
    | zero => simp [run] at hrun
    | succ n => simp [trace]
  | head hs _ ih =>
    cases n with
    | zero => simp [run] at hrun
    | succ n =>
      simp only [run, hs] at hrun
      simp only [trace, hs, List.mem_cons]
      exact .inr (ih hrun)

end Loop
