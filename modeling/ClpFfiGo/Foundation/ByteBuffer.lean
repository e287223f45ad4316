import Mathlib.Data.List.Basic
import Mathlib.Tactic.Common

inductive WriteError (ε : Type) where
  | sink (err : ε)
  | shortWrite
  deriving DecidableEq

-- One call of an io.Writer, in the state the writer is in when the call is made.
structure Sink (ε : Type) where
  write : List UInt8 → ℕ × Option ε
  n_le : ∀ p, (write p).1 ≤ p.length

def Sink.discard {ε : Type} : Sink ε := ⟨fun p => (p.length, none), fun _ => Nat.le_refl _⟩

def Sink.failAfter {ε : Type} (n : ℕ) (err : ε) : Sink ε :=
  ⟨fun p => (min n p.length, some err), fun _ => Nat.min_le_right _ _⟩

structure ByteBuffer where
  bytes : List UInt8

namespace ByteBuffer

variable {ε : Type}

def grow (_ : ℕ) (b : ByteBuffer) : ByteBuffer := b

def write (b : ByteBuffer) (p : List UInt8) : ByteBuffer × ℕ := (⟨b.bytes ++ p⟩, p.length)

def writeByte (b : ByteBuffer) (c : UInt8) : ByteBuffer := ⟨b.bytes ++ [c]⟩

def reset (_ : ByteBuffer) : ByteBuffer := ⟨[]⟩

def writeTo (b : ByteBuffer) (w : Sink ε) : ByteBuffer × ℕ × Option (WriteError ε) :=
  if b.bytes.length > 0 then
    let (m, e) := w.write b.bytes
    match e with
    | some e => (⟨b.bytes.drop m⟩, m, some (.sink e))
    | none =>
      if m ≠ b.bytes.length then (⟨b.bytes.drop m⟩, m, some .shortWrite)
      else (⟨[]⟩, m, none)
  else (⟨[]⟩, 0, none)

def accepted (b : ByteBuffer) (w : Sink ε) : List UInt8 := b.bytes.take (b.writeTo w).2.1

theorem writeTo_conserves (b : ByteBuffer) (w : Sink ε) :
    b.accepted w ++ (b.writeTo w).1.bytes = b.bytes := by
  unfold accepted writeTo
  split
  · rcases w.write b.bytes with ⟨m, _ | e⟩
    · dsimp only
      split
      · exact List.take_append_drop _ _
      · rename_i hm
        have hm : m = b.bytes.length := by simpa using hm
        simp [hm]
    · exact List.take_append_drop _ _
  · rename_i h0
    have h0 : b.bytes = [] := List.length_eq_zero_iff.mp (by omega)
    simp [h0]

theorem writeTo_drained {b : ByteBuffer} {w : Sink ε} (h : (b.writeTo w).2.2 = none) :
    (b.writeTo w).1.bytes = [] := by
  unfold writeTo at h ⊢
  split at h
  · rename_i h0
    rw [if_pos h0]
    generalize w.write b.bytes = r at h ⊢
    obtain ⟨m, _ | e⟩ := r
    · dsimp only at h ⊢
      split at h
      · cases h
      · rename_i hm
        rw [if_neg hm]
    · cases h
  · rename_i h0
    rw [if_neg h0]

theorem writeTo_all {b : ByteBuffer} {w : Sink ε} (h : ∀ p, w.write p = (p.length, none)) :
    b.accepted w = b.bytes ∧ (b.writeTo w).2.2 = none := by
  unfold accepted writeTo
  split
  · simp [h]
  · rename_i h0
    have h0 : b.bytes = [] := List.length_eq_zero_iff.mp (by omega)
    simp [h0]

end ByteBuffer
