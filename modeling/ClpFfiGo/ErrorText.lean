import ClpFfiGo.Decimal
import ClpFfiGo.Foundation.Slice

namespace ClpFfiGo

def irErrorName : GoString := ascii
  "SuccessDecodeErrorEndOfIrCorruptedIrIncompleteIrQueryNotFoundEncodeErrorUnsupportedVersion"

def irErrorIndex : List ℕ := [0, 7, 18, 25, 36, 48, 61, 72, 90]

-- `String` of the Go type, an `int` that may hold any code; `none` is a panic.
def irErrorString (i : Int64) : Option GoString :=
  if i.toInt < 0 ∨ i.toInt ≥ irErrorIndex.length - 1 then
    some (ascii "IrError(" ++ formatInt i ++ ascii ")")
  else match irErrorIndex[i.toInt.toNat]?, irErrorIndex[i.toInt.toNat + 1]? with
    | some lo, some hi => Slice.slice? irErrorName lo hi
    | _, _ => none

def IrError.error (err : IrError) : Option GoString := irErrorString (Int64.ofNat err.code)

def irErrorTexts : List GoString :=
  ["Success", "DecodeError", "EndOfIr", "CorruptedIr", "IncompleteIr", "QueryNotFound",
    "EncodeError", "UnsupportedVersion"].map ascii

-- The generated offsets cut the generated text at the names of the constants.
theorem irErrorName_cut : ∀ k < 8, (do
    let lo ← irErrorIndex[k]?
    let hi ← irErrorIndex[k + 1]?
    Slice.slice? irErrorName lo hi) = irErrorTexts[k]? := by decide

theorem irErrorTexts_ne : ∀ k < 8, ∀ s, irErrorTexts[k]? ≠ some (ascii "IrError(" ++ s) := by
  intro k hk s h
  have hcut := congrArg (Option.map (List.take (ascii "IrError(").length)) h
  rw [Option.map_some, List.take_left] at hcut
  clear h
  revert hcut k
  decide

theorem irErrorString_cases (i : Int64) :
    (∃ k : ℕ, k < 8 ∧ i.toInt = k ∧ irErrorString i = irErrorTexts[k]?) ∨
      irErrorString i = some (ascii "IrError(" ++ (formatInt i ++ ascii ")")) := by
  have hlen : irErrorIndex.length = 9 := rfl
  by_cases hr : i.toInt < 0 ∨ i.toInt ≥ irErrorIndex.length - 1
  · right
    rw [irErrorString, if_pos hr, List.append_assoc]
  · left
    obtain ⟨k, hk⟩ : ∃ k : ℕ, i.toInt = k := ⟨i.toInt.toNat, by omega⟩
    have hk8 : k < 8 := by omega
    refine ⟨k, hk8, hk, ?_⟩
    rw [← irErrorName_cut k hk8, irErrorString, if_neg hr, hk, Int.toNat_natCast]
    rcases irErrorIndex[k]? with _ | lo
    · rfl
    · rcases irErrorIndex[k + 1]? with _ | hi <;> rfl

theorem irErrorString_isSome (i : Int64) : (irErrorString i).isSome := by
  obtain ⟨k, hk, _, h⟩ | h := irErrorString_cases i
  · rw [h, List.getElem?_eq_getElem hk]
    rfl
  · rw [h]
    rfl

-- The text identifies the code: no constant's name opens like the text of another code.
theorem irErrorString_injective {i j : Int64} (h : irErrorString i = irErrorString j) : i = j := by
  obtain ⟨k, hk, hik, hi⟩ | hi := irErrorString_cases i <;>
    obtain ⟨l, hl, hjl, hj⟩ | hj := irErrorString_cases j <;> rw [hi, hj] at h
  · have hkl : k = l := (List.getElem?_inj hk (by decide)).mp h
    exact Int64.toInt_inj.mp (by omega)
  · exact absurd h (irErrorTexts_ne k hk _)
  · exact absurd h.symm (irErrorTexts_ne l hl _)
  · have hs := List.append_cancel_left (Option.some.inj h)
    exact formatInt_injective (List.append_cancel_right hs)

end ClpFfiGo
