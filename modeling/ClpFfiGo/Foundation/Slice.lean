import Mathlib.Data.List.Basic
import Mathlib.Tactic.Common

namespace Slice

variable {α : Type}

def between (s : List α) (lo hi : ℕ) : List α := (s.drop lo).take (hi - lo)

def slice? (s : List α) (lo hi : ℕ) : Option (List α) :=
  if lo ≤ hi ∧ hi ≤ s.length then some (between s lo hi) else none

def copy (dst src : List α) : List α := src.take dst.length ++ dst.drop src.length

theorem slice?_eq_some {s : List α} {lo hi : ℕ} (h : lo ≤ hi) (hs : hi ≤ s.length) :
    slice? s lo hi = some (between s lo hi) := if_pos ⟨h, hs⟩

@[simp] theorem length_copy (dst src : List α) : (copy dst src).length = dst.length := by
  simp only [copy, List.length_append, List.length_take, List.length_drop]
  omega

theorem length_between {s : List α} {lo hi : ℕ} (hs : hi ≤ s.length) :
    (between s lo hi).length = hi - lo := by
  simp only [between, List.length_take, List.length_drop]
  omega

@[simp] theorem between_self (s : List α) (k : ℕ) : between s k k = [] := by simp [between]

theorem between_copy {dst src : List α} {k : ℕ} (hk : src.length = k) (h : k ≤ dst.length) :
    between (copy dst src) 0 k = src := by
  have ht : src.take dst.length = src := List.take_of_length_le (by omega)
  subst hk
  simp [between, copy, ht]

theorem between_length (s : List α) (lo : ℕ) : between s lo s.length = s.drop lo := by
  simp [between, List.take_of_length_le]

theorem between_extend {s p : List α} {lo hi n : ℕ} (h : lo ≤ hi) (hs : hi ≤ s.length) :
    between (s.take hi ++ p) lo (hi + n) = between s lo hi ++ p.take n := by
  have hl : (s.take hi).length = hi := by simp [hs]
  have hd : (s.take hi ++ p).drop lo = (s.take hi).drop lo ++ p :=
    List.drop_append_of_le_length (by omega)
  have hk : ((s.take hi).drop lo).length = hi - lo := by simp [hl]
  have hn : hi + n - lo = ((s.take hi).drop lo).length + n := by omega
  rw [between, hd, hn, List.take_length_add_append, between, List.drop_take]

theorem between_advance (s : List α) (lo hi k : ℕ) :
    between s (lo + k) hi = (between s lo hi).drop k := by
  simp only [between, List.drop_take, List.drop_drop]
  congr 1
  omega

theorem between_append {s : List α} (t : List α) {lo hi : ℕ} (hs : hi ≤ s.length) :
    between (s ++ t) lo hi = between s lo hi := by
  rcases Nat.le_total lo s.length with hl | hl
  · simp only [between]
    rw [List.drop_append_of_le_length hl, List.take_append_of_le_length]
    rw [List.length_drop]
    omega
  · have h0 : hi - lo = 0 := by omega
    simp [between, h0]

end Slice
