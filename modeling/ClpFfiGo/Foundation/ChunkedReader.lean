import ClpFfiGo.Foundation.IoReader

namespace IoReader

variable {ε : Type}

def chunked : IoReader (List (List UInt8)) ε where
  read
    | [], p => ⟨0, p, some .eof, []⟩
    | c :: cs, p =>
      if c.length ≤ p.length then ⟨c.length, c ++ p.drop c.length, none, cs⟩
      else ⟨p.length, c.take p.length, none, c.drop p.length :: cs⟩
  n_le s p := by
    cases s with
    | nil => exact Nat.zero_le _
    | cons c cs =>
      dsimp only
      split
      · assumption
      · exact le_refl _
  length_p s p := by
    cases s with
    | nil => rfl
    | cons c cs =>
      dsimp only
      split
      · simp only [List.length_append, List.length_drop]
        omega
      · simp only [List.length_take]
        omega

theorem chunked_read_nil (p : List UInt8) :
    (chunked (ε := ε)).read [] p = ⟨0, p, some .eof, []⟩ := rfl

theorem chunked_read_cons (c : List UInt8) (cs : List (List UInt8)) (p : List UInt8) :
    ((chunked (ε := ε)).read (c :: cs) p).err = none ∧
    ((chunked (ε := ε)).read (c :: cs) p).data ++
      ((chunked (ε := ε)).read (c :: cs) p).next.flatten = (c :: cs).flatten ∧
    (0 < p.length → ((chunked (ε := ε)).read (c :: cs) p).next.flatten.length +
      ((chunked (ε := ε)).read (c :: cs) p).next.length <
        (c :: cs).flatten.length + (c :: cs).length) := by
  simp only [chunked]
  split
  · refine ⟨rfl, by simp [ReadResult.data], fun _ => ?_⟩
    simp only [List.flatten_cons, List.length_append, List.length_cons]
    omega
  · refine ⟨rfl, ?_, fun hp => ?_⟩
    · have ht : (c.take p.length).take p.length = c.take p.length :=
        List.take_of_length_le (List.length_take_le _ _)
      simp only [ReadResult.data, List.flatten_cons, ht]
      rw [← List.append_assoc, List.take_append_drop]
    · simp only [List.flatten_cons, List.length_append, List.length_cons, List.length_drop]
      omega

theorem chunked_drained {d : List UInt8} {s t : List (List UInt8)}
    (h : (chunked (ε := ε)).Delivered s d t) (hs : s = []) : t = [] := by
  induction h with
  | refl => exact hs
  | read p _ _ ih =>
    subst hs
    exact ih rfl

theorem chunked_delivers (allowed : ε → Prop) (cs : List (List UInt8)) :
    (chunked (ε := ε)).Delivers allowed cs cs.flatten := by
  induction hn : cs.flatten.length + cs.length using Nat.strong_induction_on generalizing cs with
  | _ n ih =>
    cases cs with
    | nil =>
      refine .drained fun d t ht p _ => ?_
      rw [chunked_drained ht rfl, chunked_read_nil]
      exact ⟨rfl, by simp, trivial⟩
    | cons c cs =>
      refine .chunk (fun p _ => ?_) (fun p _ => ?_) (fun p hp => ?_)
      · obtain ⟨_, hd, _⟩ := chunked_read_cons (ε := ε) c cs p
        exact ⟨_, hd⟩
      · obtain ⟨he, _, _⟩ := chunked_read_cons (ε := ε) c cs p
        rw [he]
        exact ⟨trivial, by simp⟩
      · obtain ⟨_, hd, hlt⟩ := chunked_read_cons (ε := ε) c cs p
        rw [← hd, ← length_data, List.drop_left]
        exact ih _ (by rw [← hn]; exact hlt hp) _ rfl

def bytewise (b : List UInt8) : List (List UInt8) := b.map ([·])

theorem bytewise_delivers (allowed : ε → Prop) (b : List UInt8) :
    (chunked (ε := ε)).Delivers allowed (bytewise b) b := by
  have h := chunked_delivers allowed (bytewise b)
  rwa [show (bytewise b).flatten = b by simp [bytewise, ← List.flatMap_def]] at h

end IoReader
