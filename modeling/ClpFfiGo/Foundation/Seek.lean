import Mathlib.Data.List.Infix
import Mathlib.Tactic.Common

namespace Seek

variable {α ε : Type}

inductive Choice where
  | take
  | pass
  | bar
  deriving DecidableEq

inductive Outcome (α ε : Type) where
  | found (a : α)
  | barred
  | finished
  | failed (e : ε)

def Outcome.item : Outcome α ε → Option α
  | .found a => some a
  | _ => none

def Outcome.conclusive : Outcome α ε → Bool
  | .barred => true
  | .finished => true
  | _ => false

-- `keeps` says whether what an unsuccessful request passed over stays passed over.
structure Request (α : Type) where
  choose : α → Choice
  keeps : Bool

inductive Scans (allowed : ε → Prop) (choose : α → Choice) :
    List α → List α → Outcome α ε → Prop
  | found {a xs} : choose a = .take → Scans allowed choose (a :: xs) xs (.found a)
  | barred {a xs} : choose a = .bar → Scans allowed choose (a :: xs) (a :: xs) .barred
  | finished : Scans allowed choose [] [] .finished
  | failed {xs e} : allowed e → Scans allowed choose xs xs (.failed e)
  | pass {a xs ys o} : choose a = .pass → Scans allowed choose xs ys o →
      Scans allowed choose (a :: xs) ys o

inductive Answers (allowed : ε → Prop) (r : Request α) (xs : List α) :
    List α → Outcome α ε → Prop
  | found {ys a} : Scans allowed r.choose xs ys (.found a) → Answers allowed r xs ys (.found a)
  | ended {ys o} : Scans allowed r.choose xs ys o → o.item = none →
      Answers allowed r xs (if r.keeps then ys else xs) o

inductive Run (allowed : ε → Prop) :
    List α → List (Request α) → List (Outcome α ε) → List α → Prop
  | nil {xs} : Run allowed xs [] [] xs
  | cons {xs ys zs r rs o os} : Answers allowed r xs ys o → Run allowed ys rs os zs →
      Run allowed xs (r :: rs) (o :: os) zs

def wanted (choose : α → Choice) : List α → List α
  | [] => []
  | a :: xs => match choose a with
    | .take => a :: wanted choose xs
    | .pass => wanted choose xs
    | .bar => []

variable {allowed : ε → Prop} {choose : α → Choice} {r : Request α} {xs ys zs : List α}
  {o : Outcome α ε} {os : List (Outcome α ε)}

theorem Scans.account (h : Scans allowed choose xs ys o) :
    o.item.toList ++ wanted choose ys = wanted choose xs := by
  induction h with
  | found ha => simp [Outcome.item, wanted, ha]
  | barred _ => rfl
  | finished => rfl
  | failed _ => rfl
  | pass ha _ ih =>
    rw [ih, wanted, ha]

theorem Scans.conclusive (h : Scans allowed choose xs ys o) (ho : o.conclusive = true) :
    wanted choose xs = [] := by
  induction h with
  | found _ => cases ho
  | barred ha => rw [wanted, ha]
  | finished => rfl
  | failed _ => cases ho
  | pass ha _ ih =>
    rw [wanted, ha]
    exact ih ho

theorem Outcome.item_conclusive (ho : o.conclusive = true) : o.item = none := by
  cases o with
  | found a => cases ho
  | barred => rfl
  | finished => rfl
  | failed e => rfl

theorem Scans.answers (hr : r.keeps = true) (h : Scans allowed r.choose xs ys o) :
    Answers allowed r xs ys o := by
  cases hi : o.item with
  | none =>
    have hended := Answers.ended h hi
    rwa [if_pos hr] at hended
  | some a =>
    cases o with
    | found e => exact .found h
    | barred => cases hi
    | finished => cases hi
    | failed e => cases hi

theorem Answers.account (h : Answers allowed r xs ys o) :
    o.item.toList ++ wanted r.choose ys = wanted r.choose xs := by
  cases h with
  | found hs => exact hs.account
  | ended hs hi =>
    have haccount := hs.account
    rw [hi] at haccount ⊢
    split
    · exact haccount
    · rfl

theorem Answers.conclusive (h : Answers allowed r xs ys o) (ho : o.conclusive = true) :
    wanted r.choose ys = [] := by
  have haccount := h.account
  rw [o.item_conclusive ho] at haccount
  refine haccount.trans ?_
  cases h with
  | found _ => cases ho
  | ended hs _ => exact hs.conclusive ho

theorem Run.length_eq {rs : List (Request α)} (h : Run allowed xs rs os zs) :
    os.length = rs.length := by
  induction h with
  | nil => rfl
  | cons _ _ ih => exact congrArg (· + 1) ih

theorem Run.account {n : ℕ} (h : Run allowed xs (List.replicate n r) os zs) :
    os.filterMap Outcome.item ++ wanted r.choose zs = wanted r.choose xs := by
  induction n generalizing xs os with
  | zero =>
    cases h
    rfl
  | succ n ih =>
    cases h with
    | @cons _ ys _ _ _ o os ha hrest =>
      have haccount := ha.account
      rw [← ih hrest] at haccount
      rw [← haccount]
      cases hi : o.item <;> simp [hi]

theorem Run.conclusive {n : ℕ} (h : Run allowed xs (List.replicate n r) os zs)
    (ho : ∃ o ∈ os, o.conclusive = true) : wanted r.choose zs = [] := by
  induction n generalizing xs os with
  | zero =>
    cases h
    obtain ⟨o, hmem, _⟩ := ho
    cases hmem
  | succ n ih =>
    cases h with
    | @cons _ ys _ _ _ o os ha hrest =>
      obtain ⟨o', hmem, ho'⟩ := ho
      rcases List.mem_cons.mp hmem with rfl | hmem
      · have hnone := ha.conclusive ho'
        have haccount := hrest.account
        rw [hnone] at haccount
        exact (List.append_eq_nil_iff.mp haccount).2
      · exact ih hrest ⟨o', hmem, ho'⟩

theorem Scans.unique {allowed' : ε → Prop} {ys' : List α} {o' : Outcome α ε}
    (hno : ∀ e, ¬ allowed e) (hno' : ∀ e, ¬ allowed' e) (h : Scans allowed choose xs ys o)
    (h' : Scans allowed' choose xs ys' o') : ys = ys' ∧ o = o' := by
  induction h with
  | found ha => cases h' <;> grind
  | barred ha => cases h' <;> grind
  | finished => cases h' <;> grind
  | failed he => exact absurd he (hno _)
  | pass ha _ ih => cases h' <;> grind

theorem Answers.unique {allowed' : ε → Prop} {ys' : List α} {o' : Outcome α ε}
    (hno : ∀ e, ¬ allowed e) (hno' : ∀ e, ¬ allowed' e) (h : Answers allowed r xs ys o)
    (h' : Answers allowed' r xs ys' o') : ys = ys' ∧ o = o' := by
  cases h with
  | found hs =>
    cases h' with
    | found hs' => exact hs.unique hno hno' hs'
    | ended hs' hi =>
      obtain ⟨_, rfl⟩ := hs.unique hno hno' hs'
      cases hi
  | ended hs hi =>
    cases h' with
    | found hs' =>
      obtain ⟨_, rfl⟩ := hs.unique hno hno' hs'
      cases hi
    | ended hs' _ =>
      obtain ⟨rfl, rfl⟩ := hs.unique hno hno' hs'
      exact ⟨rfl, rfl⟩

theorem Run.unique {allowed' : ε → Prop} {rs : List (Request α)} {os' : List (Outcome α ε)}
    {zs' : List α} (hno : ∀ e, ¬ allowed e) (hno' : ∀ e, ¬ allowed' e)
    (h : Run allowed xs rs os zs) (h' : Run allowed' xs rs os' zs') : os = os' ∧ zs = zs' := by
  induction h generalizing os' with
  | nil =>
    cases h'
    exact ⟨rfl, rfl⟩
  | cons ha _ ih =>
    cases h' with
    | cons ha' hrest' =>
      obtain ⟨rfl, rfl⟩ := ha.unique hno hno' ha'
      obtain ⟨rfl, rfl⟩ := ih hrest'
      exact ⟨rfl, rfl⟩

end Seek
