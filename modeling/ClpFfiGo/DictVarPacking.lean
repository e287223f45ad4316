import ClpFfiGo.MessageComponents

namespace ClpFfiGo

def runningSums : Int → List Int32 → List Int
  | acc, beginPos :: endPos :: rest =>
    (acc + (endPos.toInt - beginPos.toInt)) ::
      runningSums (acc + (endPos.toInt - beginPos.toInt)) rest
  | _, _ => []

def slicesAt (dictVars : List UInt8) : ℕ → List Int32 → List GoString
  | _, [] => []
  | lo, endOff :: endOffs =>
    Slice.between dictVars lo endOff.toInt.toNat :: slicesAt dictVars endOff.toInt.toNat endOffs

section bounds

variable {msg : GoString} {lo : Int} {beginPos endPos : Int32} {offsets rest : List Int32}

theorem inside_cons (h : inside msg lo (beginPos :: endPos :: rest) = true) :
    lo ≤ beginPos.toInt ∧ beginPos.toInt ≤ endPos.toInt ∧ endPos.toInt ≤ msg.length ∧
      inside msg endPos.toInt rest = true := by
  rw [inside, Bool.and_eq_true, decide_eq_true_eq] at h
  obtain ⟨⟨hb, he, hm⟩, hrest⟩ := h
  exact ⟨hb, he, hm, hrest⟩

theorem inside_of_pairwise (heven : offsets.length % 2 = 0)
    (h : (lo :: (offsets.map Int32.toInt ++ [(msg.length : Int)])).Pairwise (· ≤ ·)) :
    inside msg lo offsets = true := by
  fun_induction inside msg lo offsets with
  | case1 => rfl
  | case2 => simp at heven
  | case3 lo beginPos endPos rest ih =>
    simp only [List.map_cons, List.cons_append, List.pairwise_cons] at h
    obtain ⟨hlo, hb, he, hrest⟩ := h
    rw [Bool.and_eq_true, decide_eq_true_eq]
    refine ⟨⟨hlo _ (by simp), hb _ (by simp), he _ (by simp)⟩, ih ?_ ?_⟩
    · simp only [List.length_cons] at heven
      omega
    · exact List.pairwise_cons.mpr ⟨he, hrest⟩

theorem inside_take (h : inside msg lo offsets = true) (k : ℕ) :
    inside msg lo (offsets.take (2 * k)) = true := by
  fun_induction inside msg lo offsets generalizing k with
  | case1 => simp [inside]
  | case2 => cases h
  | case3 lo beginPos endPos rest ih =>
    cases k with
    | zero => rfl
    | succ k =>
      rw [Bool.and_eq_true] at h
      rw [Nat.mul_succ, List.take_succ_cons, List.take_succ_cons, inside, Bool.and_eq_true]
      exact ⟨h.1, ih h.2 k⟩

theorem length_text (hb : 0 ≤ beginPos.toInt) (he : beginPos.toInt ≤ endPos.toInt)
    (hm : endPos.toInt ≤ msg.length) :
    ((Slice.between msg beginPos.toInt.toNat endPos.toInt.toNat).length : Int) =
      endPos.toInt - beginPos.toInt := by
  rw [Slice.length_between (by omega)]
  omega

-- What is packed so far never reaches past the end of the last variable in the message.
theorem length_packed_lt (h : inside msg lo offsets = true) (prev : ℕ) (hlo : (prev : Int) ≤ lo)
    (hprev : prev < 2 ^ 31) : prev + (dictVarTexts msg offsets).flatten.length < 2 ^ 31 := by
  fun_induction inside msg lo offsets generalizing prev with
  | case1 => simpa [dictVarTexts] using hprev
  | case2 => cases h
  | case3 lo beginPos endPos rest ih =>
    obtain ⟨hb, he, hm, hrest⟩ := inside_cons h
    have hlen := length_text (by omega) he hm
    have hmax := Int32.toInt_lt endPos
    have next := ih hrest (prev + (Slice.between msg beginPos.toInt.toNat
      endPos.toInt.toNat).length) (by omega) (by omega)
    rw [dictVarTexts, List.flatten_cons, List.length_append]
    omega

theorem runningSums_eq (h : inside msg lo offsets = true) (prev : ℕ) (hlo : (prev : Int) ≤ lo)
    (hprev : prev < 2 ^ 31) :
    (endOffsets prev (dictVarTexts msg offsets)).map Int32.toInt = runningSums prev offsets := by
  fun_induction inside msg lo offsets generalizing prev with
  | case1 => rfl
  | case2 => cases h
  | case3 lo beginPos endPos rest ih =>
    obtain ⟨hb, he, hm, hrest⟩ := inside_cons h
    have hlen := length_text (by omega) he hm
    have hmax := Int32.toInt_lt endPos
    have next := ih hrest (prev + (Slice.between msg beginPos.toInt.toNat
      endPos.toInt.toNat).length) (by omega) (by omega)
    rw [dictVarTexts, endOffsets, List.map_cons, runningSums, next,
      Int32.toInt_ofNat_of_lt (by omega), Int.natCast_add, hlen]

theorem runningSums_bounds (h : inside msg lo offsets = true) (acc : Int) (hlo : acc ≤ lo) :
    ∀ s ∈ runningSums acc offsets, acc ≤ s ∧ s < 2 ^ 31 := by
  fun_induction inside msg lo offsets generalizing acc with
  | case1 => simp [runningSums]
  | case2 => cases h
  | case3 lo beginPos endPos rest ih =>
    obtain ⟨hb, he, hm, hrest⟩ := inside_cons h
    have hmax := Int32.toInt_lt endPos
    have next := ih hrest (acc + (endPos.toInt - beginPos.toInt)) (by omega)
    rw [runningSums, List.forall_mem_cons]
    refine ⟨by omega, fun s hs => ?_⟩
    have hs := next s hs
    omega

theorem runningSums_sorted (h : inside msg lo offsets = true) {acc : Int} (hlo : acc ≤ lo) :
    (runningSums acc offsets).Pairwise (· ≤ ·) := by
  fun_induction inside msg lo offsets generalizing acc with
  | case1 => simp [runningSums]
  | case2 => cases h
  | case3 lo beginPos endPos rest ih =>
    obtain ⟨hb, he, hm, hrest⟩ := inside_cons h
    have hbounds := runningSums_bounds hrest (acc + (endPos.toInt - beginPos.toInt))
      (by omega)
    rw [runningSums, List.pairwise_cons]
    exact ⟨fun s hs => (hbounds s hs).1, ih hrest (by omega)⟩

theorem runningSums_take (h : inside msg lo offsets = true) {acc : Int} (h0 : 0 ≤ acc)
    (hlo : acc ≤ lo) (k : ℕ) {s : Int} (hs : (acc :: runningSums acc offsets)[k]? = some s) :
    s = acc + ((dictVarTexts msg (offsets.take (2 * k))).flatten.length : Int) := by
  fun_induction inside msg lo offsets generalizing acc k with
  | case1 =>
    cases k with
    | zero => simpa [dictVarTexts, eq_comm] using hs
    | succ k => simp [runningSums] at hs
  | case2 => cases h
  | case3 lo beginPos endPos rest ih =>
    obtain ⟨hb, he, hm, hrest⟩ := inside_cons h
    cases k with
    | zero => simpa [dictVarTexts, eq_comm] using hs
    | succ k =>
      have hlen := length_text (by omega) he hm
      rw [runningSums, List.getElem?_cons_succ] at hs
      have next := ih hrest (by omega) (by omega) k hs
      rw [Nat.mul_succ, List.take_succ_cons, List.take_succ_cons, dictVarTexts, List.flatten_cons,
        List.length_append, next]
      omega

end bounds

theorem slicesAt_endOffsets (pre : List UInt8) (texts : List GoString)
    (h : pre.length + texts.flatten.length < 2 ^ 31) :
    slicesAt (pre ++ texts.flatten) pre.length (endOffsets pre.length texts) = texts := by
  induction texts generalizing pre with
  | nil => rfl
  | cons text texts ih =>
    rw [List.flatten_cons, List.length_append] at h
    have next := ih (pre ++ text) (by rw [List.length_append]; omega)
    rw [List.length_append, List.append_assoc] at next
    have hend : (Int32.ofNat (pre.length + text.length)).toInt.toNat =
        pre.length + text.length := by
      rw [Int32.toInt_ofNat_of_lt (by omega), Int.toNat_natCast]
    rw [endOffsets, slicesAt, hend, List.flatten_cons, next]
    congr 1
    rw [Slice.between, List.drop_left, Nat.add_sub_cancel_left, List.take_left]

theorem last_endOffsets {prev : ℕ} {texts : List GoString} {endOff : Int32}
    (h : prev + texts.flatten.length < 2 ^ 31)
    (hl : (endOffsets prev texts).getLast? = some endOff) :
    endOff.toInt = (prev + texts.flatten.length : ℕ) := by
  induction texts generalizing prev with
  | nil => cases hl
  | cons text texts ih =>
    rw [List.flatten_cons, List.length_append, ← Nat.add_assoc] at h ⊢
    rw [endOffsets, List.getLast?_cons, Option.some.injEq] at hl
    cases hrest : (endOffsets (prev + text.length) texts).getLast? with
    | some last =>
      rw [hrest, Option.getD_some] at hl
      subst hl
      exact ih h hrest
    | none =>
      have hnil : texts = [] := by
        have hempty := congrArg List.length (List.getLast?_eq_none_iff.mp hrest)
        rw [length_endOffsets] at hempty
        exact List.length_eq_zero_iff.mp hempty
      rw [hrest, Option.getD_none] at hl
      rw [hnil, List.flatten_nil, List.length_nil, Nat.add_zero] at h ⊢
      rw [← hl, Int32.toInt_ofNat_of_lt h]

theorem packDictVars_exact {msg : GoString} {offsets : List Int32}
    (heven : offsets.length % 2 = 0)
    (hbounds : ((0 : Int) :: (offsets.map Int32.toInt ++ [(msg.length : Int)])).IsChain (· ≤ ·)) :
    ∃ dictVars ends, Native.packDictVars msg offsets 0 [] [] = some (dictVars, ends) ∧
      dictVars = (dictVarTexts msg offsets).flatten ∧
      ends.map Int32.toInt = runningSums 0 offsets ∧
      (ends.map Int32.toInt).Pairwise (· ≤ ·) ∧
      (∀ endOff, ends.getLast? = some endOff → endOff.toInt = dictVars.length) ∧
      slicesAt dictVars 0 ends = dictVarTexts msg offsets ∧
      (∀ sum ∈ runningSums 0 offsets, 0 ≤ sum ∧ sum < 2 ^ 31) ∧
      ∀ (k : ℕ) (pos : Int), (0 :: runningSums 0 offsets)[k]? = some pos → ∃ held heldEnds,
        Native.packDictVars msg (offsets.take (2 * k)) 0 [] [] = some (held, heldEnds) ∧
          0 ≤ pos ∧ pos ≤ held.length := by
  have hin := inside_of_pairwise heven hbounds.pairwise
  have hpack : ∀ {offs}, inside msg 0 offs = true → Native.packDictVars msg offs 0 [] [] =
      some ((dictVarTexts msg offs).flatten, endOffsets 0 (dictVarTexts msg offs)) := by
    intro offs h
    simpa using packDictVars_eq h 0 [] (le_refl _) (Nat.zero_le _) []
  have hsize := length_packed_lt hin 0 (le_refl _) (by decide)
  have hsums := runningSums_eq hin 0 (le_refl _) (by decide)
  refine ⟨_, _, hpack hin, rfl, hsums, ?_, ?_, ?_, runningSums_bounds hin 0 (le_refl _), ?_⟩
  · rw [hsums]
    exact runningSums_sorted hin (le_refl _)
  · intro endOff hlast
    rw [last_endOffsets hsize hlast, Nat.zero_add]
  · simpa using slicesAt_endOffsets [] (dictVarTexts msg offsets) (by simpa using hsize)
  · intro k pos hpos
    have hsum := runningSums_take hin (le_refl _) (le_refl _) k hpos
    refine ⟨_, _, hpack (inside_take hin k), ?_, ?_⟩
    · omega
    · omega

theorem three_dictVars_packed : ∃ dictVars ends,
    Native.packDictVars (ascii "id=42 up") [3, 5, 5, 5, 6, 8] 0 [] [] = some (dictVars, ends) ∧
    dictVars = ascii "42up" ∧ ends.map Int32.toInt = [2, 2, 4] ∧
    slicesAt dictVars 0 ends = [ascii "42", [], ascii "up"] := by
  obtain ⟨dictVars, ends, hpack, htexts, hsums, _, _, hslices, _⟩ :=
    @packDictVars_exact (ascii "id=42 up") [3, 5, 5, 5, 6, 8]
      (by decide) (by decide)
  refine ⟨dictVars, ends, hpack, htexts.trans ?_, hsums.trans ?_, hslices.trans ?_⟩
  all_goals decide

end ClpFfiGo
