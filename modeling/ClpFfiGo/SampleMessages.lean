import ClpFfiGo.Decimal
import ClpFfiGo.MessageComponents

namespace ClpFfiGo.SampleMessages

def words : GoString → List GoString
  | [] => [[]]
  | c :: cs => match words cs with
    | [] => [[c]]
    | w :: ws => if c = 32 then [] :: w :: ws else (c :: w) :: ws

def hasDigit (word : GoString) : Bool := word.any fun c => 48 ≤ c.toNat ∧ c.toNat ≤ 57

def varLimit : Encoding → ℕ
  | .eightByte => 2 ^ 63
  | .fourByte => 2 ^ 31

def toVar (enc : Encoding) (n : ℕ) : enc.Var :=
  match enc with
  | .eightByte => Int64.ofNat n
  | .fourByte => Int32.ofNat n

def ofVar (enc : Encoding) (v : enc.Var) : ℕ :=
  match enc, v with
  | .eightByte, v => Int64.toNatClampNeg v
  | .fourByte, v => Int32.toNatClampNeg v

-- A word that is a plain decimal integer becomes an encoded variable.
def encodedVar (enc : Encoding) (word : GoString) : Option enc.Var :=
  (parseUint word).bind fun n =>
    if formatNat n = word ∧ n < varLimit enc then some (toVar enc n) else none

def isDictVar (enc : Encoding) (word : GoString) : Bool :=
  hasDigit word && (encodedVar enc word).isNone

def placeholder (enc : Encoding) (word : GoString) : GoString :=
  if isDictVar enc word then [0x12] else if (encodedVar enc word).isSome then [0x11] else word

def logtype (enc : Encoding) (ws : List GoString) : GoString :=
  List.intercalate [32] (ws.map (placeholder enc))

def offsets (enc : Encoding) : ℕ → List GoString → List Int32
  | _, [] => []
  | pos, w :: ws =>
    (if isDictVar enc w then [Int32.ofNat pos, Int32.ofNat (pos + w.length)] else []) ++
      offsets enc (pos + w.length + 1) ws

def decode (enc : Encoding) (dictVars : GoString) :
    (logtype : GoString) → (vars : List enc.Var) → (prev : ℕ) → (ends : List Int32) →
      Option GoString
  | [], _, _, _ => some []
  | c :: cs, vars, prev, ends =>
    if c = 0x12 then match ends with
      | [] => none
      | e :: ends =>
        let text := Slice.between dictVars prev e.toInt.toNat
        if prev ≤ e.toInt.toNat ∧ e.toInt.toNat ≤ dictVars.length then
          (decode enc dictVars cs vars e.toInt.toNat ends).map (text ++ ·)
        else none
    else if c = 0x11 then match vars with
      | [] => none
      | v :: vars => (decode enc dictVars cs vars prev ends).map (formatNat (ofVar enc v) ++ ·)
    else (decode enc dictVars cs vars prev ends).map (c :: ·)

def accepts (enc : Encoding) (msg : GoString) : Bool :=
  let texts := dictVarTexts msg (offsets enc 0 (words msg))
  inside msg 0 (offsets enc 0 (words msg)) ∧
    decode enc texts.flatten (logtype enc (words msg)) ((words msg).filterMap (encodedVar enc)) 0
      (endOffsets 0 texts) = some msg

def messageApi : MessageApi where
  encodeMessage enc msg _ vars dictVarOffsets :=
    (accepts enc msg, logtype enc (words msg), vars ++ (words msg).filterMap (encodedVar enc),
      dictVarOffsets ++ offsets enc 0 (words msg))
  decodeMessage enc logtype vars dictVars ends := decode enc dictVars logtype vars 0 ends

theorem split_eq (enc : Encoding) (msg : GoString) : messageApi.split enc msg =
    ⟨accepts enc msg, logtype enc (words msg), (words msg).filterMap (encodedVar enc),
      offsets enc 0 (words msg)⟩ := by
  simp [MessageApi.split, messageApi]

theorem messageApi_appends : messageApi.Appends := by
  intro enc msg lt vars dictVarOffsets
  rw [split_eq]
  simp [messageApi]

theorem messageApi_inside : messageApi.Inside := by
  intro enc msg h
  rw [split_eq] at h ⊢
  exact (of_decide_eq_true h).1

theorem messageApi_undoes : messageApi.Undoes := by
  intro enc msg h
  simp only [MessageApi.dictVars, split_eq] at h ⊢
  exact (of_decide_eq_true h).2

end ClpFfiGo.SampleMessages
