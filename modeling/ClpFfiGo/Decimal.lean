import ClpFfiGo.Types
import Mathlib.Tactic.Common

namespace ClpFfiGo

def parseDigits : ℕ → GoString → Option ℕ
  | acc, [] => some acc
  | acc, c :: cs => if 48 ≤ c.toNat ∧ c.toNat ≤ 57 then parseDigits (acc * 10 + (c.toNat - 48)) cs
    else none

def parseUint (s : GoString) : Option ℕ := if s = [] then none else parseDigits 0 s

def toInt64 (neg : Bool) (un : ℕ) : Option Int64 :=
  if neg then (if un ≤ 2 ^ 63 then some (Int64.ofInt (-un)) else none)
  else (if un < 2 ^ 63 then some (Int64.ofInt un) else none)

-- strconv.ParseInt(s, 10, 64); `none` stands for each of its errors.
def parseInt : GoString → Option Int64
  | [] => none
  | c :: cs =>
    if c = 45 then (parseUint cs).bind (toInt64 true)
    else if c = 43 then (parseUint cs).bind (toInt64 false)
    else (parseUint (c :: cs)).bind (toInt64 false)

def formatDigits : ℕ → ℕ → GoString
  | 0, _ => []
  | k + 1, n =>
    if n < 10 then [UInt8.ofNat (48 + n)]
    else formatDigits k (n / 10) ++ [UInt8.ofNat (48 + n % 10)]

def formatNat (n : ℕ) : GoString := formatDigits (n + 1) n

def formatInt (x : Int64) : GoString :=
  if x.toInt < 0 then 45 :: formatNat x.toInt.natAbs else formatNat x.toInt.natAbs

theorem formatDigits_eq {k n : ℕ} (h : n < k) : formatDigits k n = formatNat n := by
  have two : ∀ n k m : ℕ, n < k → n < m → formatDigits k n = formatDigits m n := by
    intro n
    induction n using Nat.strongRecOn with
    | _ n ih =>
      intro k m hk hm
      obtain ⟨k, rfl⟩ : ∃ j, k = j + 1 := ⟨k - 1, by omega⟩
      obtain ⟨m, rfl⟩ : ∃ j, m = j + 1 := ⟨m - 1, by omega⟩
      simp only [formatDigits]
      split
      · rfl
      · rw [ih (n / 10) (by omega) k m (by omega) (by omega)]
  exact two n k (n + 1) h (by omega)

theorem formatNat_eq (n : ℕ) : formatNat n =
    if n < 10 then [UInt8.ofNat (48 + n)]
    else formatNat (n / 10) ++ [UInt8.ofNat (48 + n % 10)] := by
  rw [formatNat, formatDigits]
  split
  · rfl
  · rw [formatDigits_eq (by omega)]

theorem parseDigits_append (acc : ℕ) (s t : GoString) :
    parseDigits acc (s ++ t) = (parseDigits acc s).bind (fun a => parseDigits a t) := by
  induction s generalizing acc with
  | nil => rfl
  | cons c cs ih =>
    simp only [List.cons_append, parseDigits]
    split
    · exact ih _
    · rfl

theorem parseDigits_digit (acc d : ℕ) (hd : d < 10) :
    parseDigits acc [UInt8.ofNat (48 + d)] = some (acc * 10 + d) := by
  have hc : (UInt8.ofNat (48 + d)).toNat = 48 + d := by
    rw [UInt8.toNat_ofNat']
    exact Nat.mod_eq_of_lt (by omega)
  rw [parseDigits, hc, if_pos (by omega), parseDigits]
  congr 2
  omega

theorem parseDigits_formatNat (n : ℕ) : parseDigits 0 (formatNat n) = some n := by
  induction n using Nat.strongRecOn with
  | _ n ih =>
    rw [formatNat_eq]
    split
    · rename_i h
      simpa using parseDigits_digit 0 n h
    · rw [parseDigits_append, ih (n / 10) (by omega)]
      have hd := parseDigits_digit (n / 10) (n % 10) (Nat.mod_lt _ (by decide))
      have he : n / 10 * 10 + n % 10 = n := by omega
      simpa [he] using hd

theorem parseDigits_range {acc v : ℕ} {s : GoString} (h : parseDigits acc s = some v) :
    ∀ c ∈ s, 48 ≤ c.toNat := by
  induction s generalizing acc with
  | nil => simp
  | cons c cs ih =>
    rw [parseDigits] at h
    split at h
    · rename_i hc
      intro d hd
      rcases List.mem_cons.mp hd with rfl | hd
      · exact hc.1
      · exact ih h d hd
    · cases h

theorem formatNat_ne_nil (n : ℕ) : formatNat n ≠ [] := by
  rw [formatNat_eq]
  split <;> simp

theorem parseUint_formatNat (n : ℕ) : parseUint (formatNat n) = some n := by
  rw [parseUint, if_neg (formatNat_ne_nil n), parseDigits_formatNat]

theorem parseInt_formatNat (n : ℕ) :
    parseInt (formatNat n) = toInt64 false n := by
  have hr := parseDigits_range (parseDigits_formatNat n)
  have hu := parseUint_formatNat n
  cases hf : formatNat n with
  | nil => exact absurd hf (formatNat_ne_nil n)
  | cons c cs =>
    have hc : 48 ≤ c.toNat := hr c (by simp [hf])
    have h1 : c ≠ 45 := by rintro rfl; revert hc; decide
    have h2 : c ≠ 43 := by rintro rfl; revert hc; decide
    rw [hf] at hu
    simp [parseInt, h1, h2, hu]

theorem parseInt_formatInt (x : Int64) : parseInt (formatInt x) = some x := by
  have hlo := x.le_toInt
  have hhi := x.toInt_lt
  have hx : Int64.ofInt x.toInt = x := Int64.ofInt_toInt x
  rw [formatInt]
  split
  · rename_i h
    have he : -(x.toInt.natAbs : Int) = x.toInt := by omega
    rw [parseInt, if_pos rfl, parseUint_formatNat, Option.bind_some, toInt64, if_pos rfl,
      if_pos (by omega), he, hx]
  · rename_i h
    have he : (x.toInt.natAbs : Int) = x.toInt := by omega
    rw [parseInt_formatNat, toInt64, if_neg (by decide), if_pos (by omega), he, hx]

theorem formatInt_injective {x y : Int64} (h : formatInt x = formatInt y) : x = y := by
  have hp := parseInt_formatInt x
  rw [h, parseInt_formatInt] at hp
  exact (Option.some.inj hp).symm

end ClpFfiGo
