import Mathlib.Data.Nat.Notation
import Mathlib.Tactic.Common

namespace Lease

variable {α : Type}

-- A buffer that is written over and over; `epoch` counts the writes.
structure Slot (α : Type) where
  content : α
  epoch : ℕ

def Slot.write (s : Slot α) (content : α) : Slot α := ⟨content, s.epoch + 1⟩

-- A reference into the buffer of `owner`, with what the buffer held when it was handed out.
structure View (α : Type) where
  owner : ℕ
  epoch : ℕ
  content : α
  deriving DecidableEq

abbrev Slots (α : Type) := ℕ → Option (Slot α)

def View.Live (slots : Slots α) (v : View α) : Prop :=
  ∃ s, slots v.owner = some s ∧ s.epoch = v.epoch

def View.Honest (slots : Slots α) (v : View α) : Prop :=
  ∀ s, slots v.owner = some s → v.epoch ≤ s.epoch ∧ (s.epoch = v.epoch → s.content = v.content)

inductive Change : Option (Slot α) → Bool → Option (Slot α) → Prop
  | untouched {o} : Change o false o
  | written {s s'} : s.epoch < s'.epoch → Change (some s) true (some s')
  | freed {o} : Change o true none

structure Edit (slots : Slots α) (i : ℕ) (touched : Bool) (slots' : Slots α) : Prop where
  here : Change (slots i) touched (slots' i)
  elsewhere : ∀ j, j ≠ i → slots' j = slots j

inductive Edits : Slots α → List (ℕ × Bool) → Slots α → Prop
  | nil {slots} : Edits slots [] slots
  | cons {slots₁ slots₂ slots₃ i touched es} : Edit slots₁ i touched slots₂ →
      Edits slots₂ es slots₃ → Edits slots₁ ((i, touched) :: es) slots₃

variable {slots slots' : Slots α} {v : View α} {i : ℕ} {touched : Bool} {es : List (ℕ × Bool)}

theorem View.Live.content (hl : v.Live slots) (hh : v.Honest slots) :
    ∃ s, slots v.owner = some s ∧ s.content = v.content := by
  obtain ⟨s, hs, he⟩ := hl
  exact ⟨s, hs, (hh s hs).2 he⟩

theorem Edit.honest (h : Edit slots i touched slots') (hv : v.Honest slots) :
    v.Honest slots' := by
  intro s hs
  by_cases hi : v.owner = i
  · have hc := h.here
    rw [← hi] at hc
    cases hslot : slots' v.owner with
    | none =>
      rw [hs] at hslot
      cases hslot
    | some t =>
      rw [hs] at hslot
      cases hslot
      rw [hs] at hc
      generalize ho : slots v.owner = o at hc
      cases hc with
      | untouched => exact hv s ho
      | written hlt =>
        have hle := (hv _ ho).1
        exact ⟨by omega, fun he => by omega⟩
  · rw [h.elsewhere _ hi] at hs
    exact hv s hs

theorem Edit.live_iff (h : Edit slots i touched slots') (hv : v.Honest slots) :
    v.Live slots' ↔ v.Live slots ∧ (v.owner = i → touched = false) := by
  by_cases hi : v.owner = i
  · have hc := h.here
    rw [← hi] at hc
    simp only [View.Live]
    generalize ho : slots v.owner = o at hc
    generalize ho' : slots' v.owner = o' at hc
    cases hc with
    | untouched => simp
    | written hlt =>
      have hle := (hv _ ho).1
      constructor
      · rintro ⟨s, hs, he⟩
        cases hs
        omega
      · rintro ⟨_, ht⟩
        cases ht hi
    | freed =>
      constructor
      · rintro ⟨s, hs, _⟩
        cases hs
      · rintro ⟨_, ht⟩
        cases ht hi
  · simp only [View.Live, h.elsewhere _ hi, hi, false_implies, and_true]

theorem Edits.honest (h : Edits slots es slots') (hv : v.Honest slots) : v.Honest slots' := by
  induction h with
  | nil => exact hv
  | cons hedit _ ih => exact ih (hedit.honest hv)

theorem Edits.live_iff (h : Edits slots es slots') (hv : v.Honest slots) :
    v.Live slots' ↔ v.Live slots ∧ ∀ e ∈ es, v.owner = e.1 → e.2 = false := by
  induction h with
  | nil => simp
  | cons hedit _ ih =>
    rw [ih (hedit.honest hv), hedit.live_iff hv, List.forall_mem_cons, and_assoc]

end Lease
