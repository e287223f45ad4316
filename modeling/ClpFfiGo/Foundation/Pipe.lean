import ClpFfiGo.Foundation.ChunkedReader

-- A byte channel: what writers push, an io.Reader at its other end delivers in order.
structure Pipe (σ ε : Type) extends IoReader σ ε where
  contents : σ → List UInt8
  push : σ → List UInt8 → σ
  contents_push : ∀ s c, contents (push s c) = contents s ++ c
  conserves : ∀ s p, 0 < p.length →
    (read s p).data ++ contents (read s p).next = contents s

namespace Pipe

variable {σ ε : Type} (pipe : Pipe σ ε)

def holds (s : σ) (b : List UInt8) : Prop := pipe.contents s = b

theorem holds_conserves : pipe.toIoReader.Conserves pipe.holds := by
  intro s b p hs hp
  refine ⟨_, ?_, rfl⟩
  rw [pipe.conserves s p hp]
  exact hs

def chunked : Pipe (List (List UInt8)) ε where
  toIoReader := IoReader.chunked
  contents := List.flatten
  push cs c := cs ++ [c]
  contents_push cs c := by simp
  conserves cs p _ := by
    cases cs with
    | nil => rfl
    | cons c cs => exact (IoReader.chunked_read_cons c cs p).2.1

end Pipe
