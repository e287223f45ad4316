import Mathlib.Data.Finset.Basic
import Mathlib.Tactic.Common

structure Heap where
  live : Finset ℕ
  next : ℕ
  fresh : ∀ h ∈ live, h < next

namespace Heap

def empty : Heap := ⟨∅, 0, fun _ h => absurd h (Finset.notMem_empty _)⟩

def alloc (heap : Heap) : Heap where
  live := insert heap.next heap.live
  next := heap.next + 1
  fresh h hh := by
    rcases Finset.mem_insert.mp hh with rfl | hl
    · exact Nat.lt_succ_self _
    · exact Nat.lt_succ_of_lt (heap.fresh h hl)

def allocIf (heap : Heap) (b : Bool) : Heap := if b then heap.alloc else heap

def free (heap : Heap) (handle : ℕ) : Heap where
  live := heap.live.erase handle
  next := heap.next
  fresh h hh := heap.fresh h (Finset.mem_of_mem_erase hh)

theorem next_notMem (heap : Heap) : heap.next ∉ heap.live :=
  fun h => Nat.lt_irrefl _ (heap.fresh _ h)

@[simp] theorem live_alloc (heap : Heap) : heap.alloc.live = insert heap.next heap.live := rfl

@[simp] theorem live_free (heap : Heap) (handle : ℕ) :
    (heap.free handle).live = heap.live.erase handle := rfl

theorem alloc_live_ne (heap : Heap) : heap.alloc.live ≠ heap.live := by
  rw [live_alloc, Ne, Finset.insert_eq_self]
  exact heap.next_notMem

theorem live_free_alloc (heap : Heap) : (heap.alloc.free heap.next).live = heap.live := by
  rw [live_free, live_alloc]
  exact Finset.erase_insert heap.next_notMem

end Heap
