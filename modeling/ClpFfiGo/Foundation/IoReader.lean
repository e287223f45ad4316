import Mathlib.Data.List.Infix
import Mathlib.Tactic.Common

inductive IoError (ε : Type) where
  | eof
  | other (err : ε)
  deriving DecidableEq

structure ReadResult (σ ε : Type) where
  n : ℕ
  p : List UInt8
  err : Option (IoError ε)
  next : σ

def ReadResult.data {σ ε : Type} (r : ReadResult σ ε) : List UInt8 := r.p.take r.n

structure IoReader (σ ε : Type) where
  read : σ → List UInt8 → ReadResult σ ε
  n_le : ∀ s p, (read s p).n ≤ p.length
  length_p : ∀ s p, (read s p).p.length = p.length

namespace IoReader

variable {σ ε : Type} (io : IoReader σ ε)

inductive Delivered : σ → List UInt8 → σ → Prop
  | refl {s} : Delivered s [] s
  | read {s d t} (p : List UInt8) : 0 < p.length → Delivered (io.read s p).next d t →
      Delivered s ((io.read s p).data ++ d) t

def Feeds (s : σ) (b : List UInt8) : Prop := ∀ d t, io.Delivered s d t → d <+: b

def Tolerated (allowed : ε → Prop) : Option (IoError ε) → Prop
  | none => True
  | some .eof => True
  | some (.other e) => allowed e

inductive Delivers (allowed : ε → Prop) : σ → List UInt8 → Prop
  | drained {s} :
      (∀ d t, io.Delivered s d t → ∀ p, 0 < p.length → (io.read t p).n = 0 ∧
        (io.read t p).err ≠ none ∧ Tolerated allowed (io.read t p).err) →
      Delivers allowed s []
  | chunk {s b} :
      (∀ p, 0 < p.length → (io.read s p).data <+: b) →
      (∀ p, 0 < p.length → Tolerated allowed (io.read s p).err ∧
        ((io.read s p).err = some .eof → (io.read s p).data = b)) →
      (∀ p, 0 < p.length → Delivers allowed (io.read s p).next (b.drop (io.read s p).n)) →
      Delivers allowed s b

def NoError (_ : ε) : Prop := False

def Conserves (src : σ → List UInt8 → Prop) : Prop :=
  ∀ s b p, src s b → 0 < p.length →
    ∃ r, (io.read s p).data ++ r = b ∧ src (io.read s p).next r

def Fails (src : σ → List UInt8 → Prop) (e : ε) : Prop :=
  ∃ s b p, src s b ∧ 0 < p.length ∧ (io.read s p).err = some (.other e)

-- An io.Reader that also records every byte it has delivered.
def logged : IoReader (σ × List UInt8) ε where
  read s p :=
    let r := io.read s.1 p
    ⟨r.n, r.p, r.err, (r.next, s.2 ++ r.data)⟩
  n_le s p := io.n_le s.1 p
  length_p s p := io.length_p s.1 p

theorem logged_next (s : σ × List UInt8) (p : List UInt8) :
    (io.logged.read s p).next.2 = s.2 ++ (io.logged.read s p).data := rfl

variable {io}

theorem length_data (s : σ) (p : List UInt8) : (io.read s p).data.length = (io.read s p).n := by
  have hn := io.n_le s p
  have hp := io.length_p s p
  simp only [ReadResult.data, List.length_take]
  omega

theorem data_append_drop {s : σ} {b p : List UInt8} (h : (io.read s p).data <+: b) :
    (io.read s p).data ++ b.drop (io.read s p).n = b := by
  obtain ⟨r, rfl⟩ := h
  rw [← length_data, List.drop_left]

theorem Feeds.read {s : σ} {b p : List UInt8} (h : io.Feeds s b) (hp : 0 < p.length) :
    ∃ r, (io.read s p).data ++ r = b ∧ io.Feeds (io.read s p).next r := by
  have hd : (io.read s p).data <+: b := by simpa using h _ _ (.read p hp .refl)
  obtain ⟨r, rfl⟩ := hd
  exact ⟨r, rfl, fun d t hdt => (List.prefix_append_right_inj _).mp (h _ _ (.read p hp hdt))⟩

theorem Delivers.read {allowed : ε → Prop} {s : σ} {b p : List UInt8}
    (h : io.Delivers allowed s b) (hp : 0 < p.length) :
    ∃ r, (io.read s p).data ++ r = b ∧ io.Delivers allowed (io.read s p).next r ∧
      Tolerated allowed (io.read s p).err := by
  cases h with
  | drained hd =>
    obtain ⟨hn, _, ht⟩ := hd [] s .refl p hp
    refine ⟨[], by simp [ReadResult.data, hn], .drained ?_, ht⟩
    intro d t hdt q hq
    exact hd _ t (.read p hp hdt) q hq
  | chunk hc he hnext =>
    obtain ⟨r, hr⟩ := hc p hp
    refine ⟨r, hr, ?_, (he p hp).1⟩
    have := hnext p hp
    rwa [← hr, ← length_data, List.drop_left] at this

theorem Delivers.feeds {allowed : ε → Prop} {s : σ} {b : List UInt8}
    (h : io.Delivers allowed s b) : io.Feeds s b := by
  intro d t hdt
  induction hdt generalizing b with
  | refl => exact List.nil_prefix
  | read p hp _ ih =>
    obtain ⟨r, rfl, hr, _⟩ := h.read hp
    exact (List.prefix_append_right_inj _).mpr (ih hr)

theorem feeds_conserves : io.Conserves io.Feeds := fun _ _ _ h hp => h.read hp

theorem delivers_conserves (allowed : ε → Prop) : io.Conserves (io.Delivers allowed) := by
  intro s b p h hp
  obtain ⟨r, hr, hd, _⟩ := h.read hp
  exact ⟨r, hr, hd⟩

theorem Fails.allowed {allowed : ε → Prop} {e : ε} (h : io.Fails (io.Delivers allowed) e) :
    allowed e := by
  obtain ⟨s, b, p, hs, hp, he⟩ := h
  obtain ⟨_, _, _, ht⟩ := hs.read hp
  rw [he] at ht
  exact ht

end IoReader
