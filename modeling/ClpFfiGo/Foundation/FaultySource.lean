import ClpFfiGo.Foundation.ChunkedReader
import Mathlib.Data.List.Count

namespace IoReader

variable {σ ε : Type} (io : IoReader σ ε)

inductive Faults : σ → ℕ → σ → Prop
  | refl {s} : Faults s 0 s
  | read {s k t} (p : List UInt8) : 0 < p.length → (∀ e, (io.read s p).err ≠ some (.other e)) →
      Faults (io.read s p).next k t → Faults s k t
  | fail {s k t e} (p : List UInt8) : 0 < p.length → (io.read s p).err = some (.other e) →
      Faults (io.read s p).next k t → Faults s (k + 1) t

def FaultsWithin (k : ℕ) (s : σ) : Prop := ∀ n t, io.Faults s n t → n ≤ k

-- An io.Reader that fails where the schedule says so, before it reads anything.
def interrupted (err : ε) : IoReader (List Bool × σ) ε where
  read s p := match s.1 with
    | true :: later => ⟨0, p, some (.other err), (later, s.2)⟩
    | later =>
      let r := io.read s.2 p
      ⟨r.n, r.p, r.err, (later.tail, r.next)⟩
  n_le s p := by
    dsimp only
    split
    · exact Nat.zero_le _
    · exact io.n_le s.2 p
  length_p s p := by
    dsimp only
    split
    · rfl
    · exact io.length_p s.2 p

variable {io} {allowed : ε → Prop} {s : σ} {b p : List UInt8} {k : ℕ} {err : ε}

theorem FaultsWithin.fail (h : io.FaultsWithin k s) (hp : 0 < p.length) {e : ε}
    (he : (io.read s p).err = some (.other e)) :
    ∃ j, k = j + 1 ∧ io.FaultsWithin j (io.read s p).next := by
  have hone := h 1 _ (.fail p hp he .refl)
  refine ⟨k - 1, by omega, fun n t ht => ?_⟩
  have hn := h (n + 1) t (.fail p hp he ht)
  omega

theorem FaultsWithin.next (h : io.FaultsWithin k s) (hp : 0 < p.length) :
    io.FaultsWithin k (io.read s p).next := by
  intro n t ht
  by_cases he : ∃ e, (io.read s p).err = some (.other e)
  · obtain ⟨e, he⟩ := he
    have hn := h (n + 1) t (.fail p hp he ht)
    omega
  · exact h n t (.read p hp (fun e hne => he ⟨e, hne⟩) ht)

theorem delivers_within_conserves (allowed : ε → Prop) (k : ℕ) :
    io.Conserves fun s b => io.Delivers allowed s b ∧ io.FaultsWithin k s := by
  rintro s b p ⟨hd, hk⟩ hp
  obtain ⟨r, hr, hd', _⟩ := hd.read hp
  exact ⟨r, hr, hd', hk.next hp⟩

theorem Delivers.eof (h : io.Delivers allowed s b) (hp : 0 < p.length)
    (he : (io.read s p).err = some .eof) : (io.read s p).data = b := by
  cases h with
  | drained hd =>
    obtain ⟨hn, _, _⟩ := hd [] s .refl p hp
    rw [ReadResult.data, hn, List.take_zero]
  | chunk _ htol _ => exact (htol p hp).2 he

theorem interrupted_delivered {u t : List Bool × σ} {d : List UInt8}
    (h : (io.interrupted err).Delivered u d t) (hu : u.1 = []) :
    t.1 = [] ∧ io.Delivered u.2 d t.2 := by
  induction h with
  | @refl u => exact ⟨hu, .refl⟩
  | @read u d t p hp _ ih =>
    obtain ⟨sch, s⟩ := u
    cases hu
    obtain ⟨ht, hd⟩ := ih rfl
    exact ⟨ht, .read p hp hd⟩

theorem interrupted_delivers (herr : allowed err) (h : io.Delivers allowed s b)
    (schedule : List Bool) : (io.interrupted err).Delivers allowed (schedule, s) b := by
  induction schedule generalizing s b with
  | nil =>
    induction h with
    | drained hd =>
      refine .drained fun d t ht p hp => ?_
      obtain ⟨sch, s'⟩ := t
      obtain ⟨hnil, hdel⟩ := interrupted_delivered ht rfl
      cases hnil
      exact hd d s' hdel p hp
    | chunk hdata htol _ ih => exact .chunk hdata htol ih
  | cons fails later ih =>
    cases fails with
    | true =>
      exact .chunk (fun p _ => List.nil_prefix) (fun p _ => ⟨herr, nofun⟩) (fun p _ => ih h)
    | false =>
      refine .chunk (fun p hp => ?_) (fun p hp => ?_) (fun p hp => ?_)
      · obtain ⟨r, hr, _⟩ := h.read hp
        exact ⟨r, hr⟩
      · obtain ⟨_, _, _, ht⟩ := h.read hp
        exact ⟨ht, h.eof hp⟩
      · obtain ⟨r, hr, hd, _⟩ := h.read hp
        have hdrop : b.drop (io.read s p).n = r := by
          rw [← hr, ← length_data, List.drop_left]
        have hnext := ih hd
        rw [← hdrop] at hnext
        exact hnext

theorem interrupted_faults {u t : List Bool × σ} {n : ℕ}
    (h : (io.interrupted err).Faults u n t) (hk : io.FaultsWithin k u.2) :
    n ≤ k + u.1.count true := by
  induction h generalizing k with
  | refl => exact Nat.zero_le _
  | @read u n t p hp hno _ ih =>
    obtain ⟨sch, s⟩ := u
    cases sch with
    | nil => exact ih (hk.next hp)
    | cons fails later =>
      cases fails with
      | true => exact absurd rfl (hno err)
      | false =>
        rw [List.count_cons_of_ne (by simp)]
        exact ih (hk.next hp)
  | @fail u n t e p hp he _ ih =>
    obtain ⟨sch, s⟩ := u
    cases sch with
    | nil =>
      obtain ⟨j, rfl, hj⟩ := hk.fail hp he
      have hn := ih hj
      dsimp only [List.count_nil] at hn ⊢
      exact Nat.succ_le_succ hn
    | cons fails later =>
      cases fails with
      | true =>
        rw [List.count_cons_self]
        exact Nat.succ_le_succ (ih hk)
      | false =>
        obtain ⟨j, rfl, hj⟩ := hk.fail hp he
        have hn := ih hj
        rw [List.count_cons_of_ne (by simp)]
        dsimp only [interrupted, List.tail_cons] at hn ⊢
        omega

theorem chunked_faults (cs : List (List UInt8)) : (chunked (ε := ε)).FaultsWithin 0 cs := by
  intro n t h
  induction h with
  | refl => exact Nat.le_refl 0
  | read p _ _ _ ih => exact ih
  | @fail s n t e p _ he _ _ =>
    cases s with
    | nil => cases he
    | cons c cs =>
      rw [(chunked_read_cons c cs p).1] at he
      cases he

end IoReader
