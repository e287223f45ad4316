import Mathlib.Algebra.Ring.Int.Defs
import Mathlib.Data.List.Chain

namespace SignedRange

variable {w : ℕ}

def Fits (w : ℕ) (n : ℤ) : Prop := -2 ^ (w - 1) ≤ n ∧ n < 2 ^ (w - 1)

instance (w : ℕ) (n : ℤ) : Decidable (Fits w n) := inferInstanceAs (Decidable (_ ∧ _))

theorem fits_toInt (x : BitVec w) : Fits w x.toInt := ⟨x.le_toInt, x.toInt_lt⟩

theorem fits_add_iff {x y : BitVec w} :
    Fits w (x.toInt + y.toInt) ↔ ¬ x.saddOverflow y := by
  simp only [Fits, BitVec.saddOverflow, Bool.or_eq_true, decide_eq_true_eq]
  omega

theorem fits_sub_iff {x y : BitVec w} :
    Fits w (x.toInt - y.toInt) ↔ ¬ x.ssubOverflow y := by
  simp only [Fits, BitVec.ssubOverflow, Bool.or_eq_true, decide_eq_true_eq]
  omega

-- A wrapped difference, added back, leaves the range exactly when the difference itself does.
theorem fits_add_sub_iff (x y : BitVec w) :
    Fits w (x.toInt + (y - x).toInt) ↔ Fits w (y.toInt - x.toInt) := by
  constructor
  · intro h
    have hsum := BitVec.toInt_add_of_not_saddOverflow (fits_add_iff.mp h)
    rw [BitVec.add_comm, BitVec.sub_add_cancel] at hsum
    have hdiff : y.toInt - x.toInt = (y - x).toInt := by omega
    rw [hdiff]
    exact fits_toInt _
  · intro h
    have hdiff := BitVec.toInt_sub_of_not_ssubOverflow (fits_sub_iff.mp h)
    have hsum : x.toInt + (y - x).toInt = y.toInt := by omega
    rw [hsum]
    exact fits_toInt y

def Steps (w : ℕ) (n : ℤ) (ns : List ℤ) : Prop :=
  List.IsChain (fun a b => Fits w (b - a)) (n :: ns)

instance (w : ℕ) (n : ℤ) (ns : List ℤ) : Decidable (Steps w n ns) :=
  inferInstanceAs (Decidable (List.IsChain _ _))

@[simp] theorem steps_nil (n : ℤ) : Steps w n [] := .singleton n

@[simp] theorem steps_cons {n m : ℤ} {ns : List ℤ} :
    Steps w n (m :: ns) ↔ Fits w (m - n) ∧ Steps w m ns := List.isChain_cons_cons

theorem Steps.of_prefix {n : ℤ} {ns ms : List ℤ} (h : Steps w n ms) (hp : ns <+: ms) :
    Steps w n ns := by
  apply List.IsChain.prefix h
  exact (List.prefix_cons_inj n).mpr hp

theorem steps_of_nonneg {n : ℤ} {ns : List ℤ} (h : ∀ m ∈ n :: ns, 0 ≤ m ∧ m < 2 ^ (w - 1)) :
    Steps w n ns := by
  induction ns generalizing n with
  | nil => exact steps_nil n
  | cons m ns ih =>
    rw [List.forall_mem_cons] at h
    have hm := h.2 m List.mem_cons_self
    have hfit : Fits w (m - n) := ⟨by omega, by omega⟩
    exact steps_cons.mpr ⟨hfit, ih h.2⟩

end SignedRange
