import ClpFfiGo.Foundation.Heap
import ClpFfiGo.ReaderBuffer
import ClpFfiGo.Serializer

namespace ClpFfiGo.Heaped

variable {α β σ ε : Type}

-- A value and the handle of the native object behind its `cptr`.
structure Owned (α : Type) where
  object : α
  handle : ℕ

def Owned.close (owned : Owned α) (heap : Heap) : Heap := heap.free owned.handle

section deserializing

variable (clp : IrReadApi) (json : JsonApi ε) (io : IoReader σ ε)

def newDeserializerWithPreamble (heap : Heap) (irView : List UInt8) :
    Heap × Except ℕ (Owned Native.NewDeserializer) :=
  match clp.getEncodingType ⟨irView, 0⟩ with
  | .error err => (heap, .error err.toInt)
  | .ok (fourByteEncoding, encodingEnd) =>
    match clp.deserializePreamble ⟨irView, encodingEnd⟩ with
    | .error err => (heap, .error err.toInt)
    | .ok (metadata, preambleEnd) =>
      match clp.tryGetPos ⟨irView, preambleEnd⟩ with
      | none => (heap, .error IRErrorCode.decodeError.toInt)
      | some pos =>
        let deserializer : Native.NewDeserializer :=
          { pos := pos
            irEncoding := if fourByteEncoding then .fourByte else .eightByte
            metadataType := metadata.metadataType
            metadataPos := metadata.metadataPos
            metadataSize := metadata.metadataSize
            deserializer := ⟨0⟩ }
        (heap.alloc, .ok ⟨deserializer, heap.next⟩)

def deserializePreamble (heap : Heap) (irBuf : List UInt8) :
    Heap × Except (GoError ε) (Owned (Deserializer × ℕ)) :=
  if 0 ≥ irBuf.length then (heap, .error (.ir .incompleteIr))
  else match newDeserializerWithPreamble clp heap irBuf with
    | (heap, .error err) => (heap, .error (.ir ⟨err⟩))
    | (heap, .ok ⟨preamble, handle⟩) =>
      if preamble.metadataType ≠ 1 then (heap, .error (.ir .unsupportedVersion))
      else match Slice.slice? irBuf preamble.metadataPos
          (preamble.metadataPos + preamble.metadataSize) with
        | none => (heap, .error .panic)
        | some bytes => match json.unmarshal bytes with
          | .error err => (heap, .error (.json err))
          | .ok metadata =>
            (heap, .ok ⟨(newDeserializer preamble.irEncoding metadata preamble.deserializer,
              preamble.pos), handle⟩)

def newReaderTurn : Heap × ReadBuf σ →
    (Heap × ReadBuf σ) ⊕ (Heap × Except (GoError ε) (Owned (Reader σ)))
  | (heap, irr) => match Slice.slice? irr.buf irr.start irr.stop with
    | none => .inr (heap, .error .panic)
    | some irBuf =>
      match deserializePreamble clp json heap irBuf with
      | (heap, .ok ⟨(deserializer, pos), handle⟩) =>
        .inr (heap, .ok ⟨⟨{ irr with start := pos }, deserializer⟩, handle⟩)
      | (heap, .error err) =>
        if err.isIncomplete then
          match ReadBuf.fillBuf io { irr with start := 0 } with
          | (irr, _, none) => .inl (heap, irr)
          | (_, _, some err) => .inr (heap, .error err)
        else .inr (heap, .error err)

def newReaderSize (heap : Heap) (r : σ) (size : ℕ) (fuel : ℕ) :
    Option (Heap × Except (GoError ε) (Owned (Reader σ))) :=
  match ReadBuf.read io ⟨r, List.replicate size 0, 0, 0⟩ with
  | (irr, _, none) => Loop.run (newReaderTurn clp json io) fuel (heap, irr)
  | (_, _, some err) => some (heap, .error err)

end deserializing

section serializing

variable (clp : IrWriteApi)

def newSerializerWithPreamble (heap : Heap) (enc : Encoding)
    (tsPattern tsPatternSyntax timeZoneId : GoString) (referenceTs : EpochTimeMs) :
    Heap × Owned Native.Serializer × Except ℕ BufView :=
  let handle := heap.next
  let heap := heap.alloc
  let (success, irBuf) := match enc with
    | .eightByte => clp.eightByteSerializePreamble tsPattern tsPatternSyntax timeZoneId []
    | .fourByte => clp.fourByteSerializePreamble tsPattern tsPatternSyntax timeZoneId referenceTs []
  (heap, ⟨⟨[], irBuf⟩, handle⟩,
    if success then .ok irBuf else .error IRErrorCode.corruptedIr.toInt)

def eightByteSerializer (heap : Heap) (tsPattern tsPatternSyntax timeZoneId : GoString) :
    Heap × Except (GoError ε) (Owned (Serializer × BufView)) :=
  match newSerializerWithPreamble clp heap .eightByte tsPattern tsPatternSyntax timeZoneId 0 with
  | (heap, _, .error err) => (heap, .error (.ir ⟨err⟩))
  | (heap, ⟨cptr, handle⟩, .ok irView) =>
    (heap, .ok ⟨(.eightByte ⟨⟨tsPattern, tsPatternSyntax, timeZoneId⟩, some cptr⟩, irView),
      handle⟩)

def fourByteSerializer (heap : Heap) (tsPattern tsPatternSyntax timeZoneId : GoString)
    (referenceTs : EpochTimeMs) : Heap × Except (GoError ε) (Owned (Serializer × BufView)) :=
  match newSerializerWithPreamble clp heap .fourByte tsPattern tsPatternSyntax timeZoneId
      referenceTs with
  | (heap, _, .error err) => (heap, .error (.ir ⟨err⟩))
  | (heap, ⟨cptr, handle⟩, .ok irView) =>
    (heap, .ok ⟨(.fourByte ⟨⟨tsPattern, tsPatternSyntax, timeZoneId⟩, some cptr⟩ referenceTs,
      irView), handle⟩)

end serializing

def Clean {E : Type} (heap : Heap) (r : Heap × Except E (Owned α)) : Prop :=
  ∀ err, r.2 = .error err → r.1.live = heap.live

def Balanced {E : Type} (heap : Heap) (r : Heap × Except E (Owned α)) : Prop :=
  ∀ owned, r.2 = .ok owned → (owned.close r.1).live = heap.live

def preambleOf (clp : IrReadApi) (irBuf : List UInt8) : Option PreambleMetadata :=
  match clp.getEncodingType ⟨irBuf, 0⟩ with
  | .error _ => none
  | .ok (_, encodingEnd) => match clp.deserializePreamble ⟨irBuf, encodingEnd⟩ with
    | .error _ => none
    | .ok (metadata, _) => some metadata

-- Where CLP reads a preamble off the buffer, the two checks that Go makes of it succeed.
def Usable (clp : IrReadApi) (json : JsonApi ε) (irBuf : List UInt8) : Prop :=
  0 < irBuf.length → ∀ m ∈ preambleOf clp irBuf, m.metadataType = 1 ∧
    (json.unmarshal (Slice.between irBuf m.metadataPos (m.metadataPos + m.metadataSize))).isOk =
      true

def owning {E : Type} (heap : Heap) (r : Except E α) : Except E (Owned α) :=
  r.map (fun object => ⟨object, heap.next⟩)

section outcomes

variable {E : Type} {heap : Heap} {r : Except E α}

@[simp] theorem owning_ok (object : α) :
    owning heap (.ok object : Except E α) = .ok ⟨object, heap.next⟩ := rfl

@[simp] theorem owning_error (err : E) : owning heap (.error err : Except E α) = .error err := rfl

theorem map_owning (r : Except E α) : (owning heap r).map Owned.object = r := by
  cases r <;> rfl

theorem clean_iff (allocated : Bool) :
    Clean heap (heap.allocIf allocated, owning heap r) ↔
      (allocated = true → r.isOk = true) := by
  cases r with
  | ok object =>
    constructor
    · intro _ _
      rfl
    · intro _ err herr
      cases herr
  | error err =>
    constructor
    · intro h ha
      rw [ha] at h
      exact absurd (h err rfl) heap.alloc_live_ne
    · intro h err' _
      cases allocated with
      | true => cases h rfl
      | false => rfl

theorem balanced_of (allocated : Bool) (h : r.isOk = true → allocated = true) :
    Balanced heap (heap.allocIf allocated, owning heap r) := by
  intro owned hok
  cases r with
  | error err => cases hok
  | ok object =>
    cases hok
    rw [h rfl]
    exact heap.live_free_alloc

end outcomes

section preamble

variable {clp : IrReadApi} {json : JsonApi ε} (heap : Heap) (irBuf : List UInt8)

variable (clp) in
def allocates (irBuf : List UInt8) : Bool :=
  0 < irBuf.length && (Native.newDeserializerWithPreamble clp irBuf).isOk

theorem newDeserializerWithPreamble_eq : newDeserializerWithPreamble clp heap irBuf =
    (heap.allocIf (Native.newDeserializerWithPreamble clp irBuf).isOk,
      owning heap (Native.newDeserializerWithPreamble clp irBuf)) := by
  rw [newDeserializerWithPreamble, Native.newDeserializerWithPreamble]
  cases clp.getEncodingType ⟨irBuf, 0⟩ with
  | error err => rfl
  | ok r =>
    dsimp only
    cases clp.deserializePreamble ⟨irBuf, r.2⟩ with
    | error err => rfl
    | ok m =>
      dsimp only
      rw [clp.tryGetPos_eq]
      rfl

theorem preambleOf_eq : preambleOf clp irBuf =
    (Native.newDeserializerWithPreamble clp irBuf).toOption.map
      (fun n => ⟨n.metadataType, n.metadataPos, n.metadataSize⟩) := by
  rw [preambleOf, Native.newDeserializerWithPreamble]
  cases clp.getEncodingType ⟨irBuf, 0⟩ with
  | error err => rfl
  | ok r =>
    dsimp only
    cases clp.deserializePreamble ⟨irBuf, r.2⟩ with
    | error err => rfl
    | ok m =>
      dsimp only
      rw [clp.tryGetPos_eq]
      rfl

theorem deserializePreamble_eq : deserializePreamble clp json heap irBuf =
    (heap.allocIf (allocates clp irBuf),
      owning heap (ClpFfiGo.deserializePreamble clp json irBuf)) := by
  rw [deserializePreamble, ClpFfiGo.deserializePreamble, allocates]
  by_cases hb : 0 ≥ irBuf.length
  · rw [if_pos hb, if_pos hb, decide_eq_false (by omega)]
    rfl
  · rw [if_neg hb, if_neg hb, decide_eq_true (by omega), newDeserializerWithPreamble_eq]
    cases Native.newDeserializerWithPreamble clp irBuf with
    | error err => rfl
    | ok n =>
      dsimp only [owning_ok, Bool.true_and]
      split
      · rfl
      · cases Slice.slice? irBuf n.metadataPos (n.metadataPos + n.metadataSize) with
        | none => rfl
        | some bytes =>
          dsimp only
          cases json.unmarshal bytes <;> rfl

variable {heap irBuf}

theorem isOk_deserializePreamble {n : Native.NewDeserializer} (hb : 0 < irBuf.length)
    (hn : Native.newDeserializerWithPreamble clp irBuf = .ok n) :
    (ClpFfiGo.deserializePreamble clp json irBuf).isOk = true ↔ n.metadataType = 1 ∧
      (json.unmarshal
        (Slice.between irBuf n.metadataPos (n.metadataPos + n.metadataSize))).isOk = true := by
  have hbounds := newDeserializer_bounds hn
  rw [ClpFfiGo.deserializePreamble, if_neg (by omega), hn]
  dsimp only
  rw [Slice.slice?_eq_some (Nat.le_add_right _ _) (by omega)]
  by_cases htype : n.metadataType = 1
  · rw [if_neg (not_not.mpr htype), and_iff_right htype]
    dsimp only
    cases json.unmarshal (Slice.between irBuf n.metadataPos (n.metadataPos + n.metadataSize)) <;>
      rfl
  · rw [if_pos htype]
    exact iff_of_false (fun h => by cases h) (fun h => htype h.1)

theorem usable_iff : Usable clp json irBuf ↔
    (allocates clp irBuf = true → (ClpFfiGo.deserializePreamble clp json irBuf).isOk = true) := by
  rw [Usable, preambleOf_eq, allocates, Bool.and_eq_true, decide_eq_true_eq, and_imp]
  apply forall_congr'
  intro hb
  cases hn : Native.newDeserializerWithPreamble clp irBuf with
  | error err => exact iff_of_true (fun m hm => by cases hm) (fun h => by cases h)
  | ok n =>
    rw [isOk_deserializePreamble hb hn]
    constructor
    · intro h _
      exact h _ rfl
    · rintro h m hm
      cases hm
      exact h rfl

theorem allocates_of_isOk
    (h : (ClpFfiGo.deserializePreamble clp json irBuf).isOk = true) :
    allocates clp irBuf = true := by
  rw [ClpFfiGo.deserializePreamble] at h
  split at h
  · cases h
  · rename_i hb
    rw [allocates, decide_eq_true (by omega), Bool.true_and]
    cases hn : Native.newDeserializerWithPreamble clp irBuf with
    | error err =>
      rw [hn] at h
      cases h
    | ok n => rfl

theorem allocates_of_incomplete {err : GoError ε}
    (h : ClpFfiGo.deserializePreamble clp json irBuf = .error err) (hi : err.isIncomplete = true) :
    allocates clp irBuf = false := by
  by_contra ha
  rw [Bool.not_eq_false, allocates, Bool.and_eq_true, decide_eq_true_eq] at ha
  obtain ⟨hb, hn⟩ := ha
  rw [ClpFfiGo.deserializePreamble, if_neg (by omega)] at h
  cases hc : Native.newDeserializerWithPreamble clp irBuf with
  | error e =>
    rw [hc] at hn
    cases hn
  | ok n =>
    rw [hc] at h
    dsimp only at h
    split at h
    · cases h
      cases hi
    · split at h
      · cases h
        cases hi
      · split at h <;> cases h
        cases hi

end preamble

section constructing

variable {clp : IrReadApi} {json : JsonApi ε} {io : IoReader σ ε} {heap : Heap} {r : σ} {size : ℕ}

variable (clp json io heap) in
theorem newReaderTurn_eq {rb : ReadBuf σ} (hw : rb.WF) : newReaderTurn clp json io (heap, rb) =
    (ClpFfiGo.newReaderTurn clp json io rb).map (fun irr => (heap, irr))
      (fun result => (heap.allocIf (allocates clp rb.unread), owning heap result)) := by
  rw [newReaderTurn, ClpFfiGo.newReaderTurn, hw.slice]
  dsimp only
  rw [deserializePreamble_eq]
  cases hd : ClpFfiGo.deserializePreamble clp json rb.unread with
  | ok result => rfl
  | error err =>
    dsimp only [owning_error]
    cases hi : err.isIncomplete with
    | false => rfl
    | true =>
      rw [allocates_of_incomplete hd hi]
      simp only [if_true]
      rcases ReadBuf.fillBuf io { rb with start := 0 } with ⟨irr, n, _ | err⟩ <;> rfl

variable (heap) in
-- A retry leaves the heap as it was: only the last turn can have allocated.
theorem newReaderSize_outcome {fuel : ℕ} {result : Heap × Except (GoError ε) (Owned (Reader σ))}
    (h : newReaderSize clp json io heap r size fuel = some result) :
    (∃ err, result = (heap, .error err)) ∨
      ∃ rb res, Constructing clp json io r size rb ∧
        ClpFfiGo.newReaderTurn clp json io rb = .inr res ∧
        result = (heap.allocIf (allocates clp rb.unread), owning heap res) := by
  rw [newReaderSize] at h
  rcases hread : ReadBuf.read io (ReadBuf.initial r size) with ⟨rb₀, n, _ | err⟩
  · rw [ReadBuf.initial] at hread
    rw [hread] at h
    right
    have h₀ : Constructing clp json io r size rb₀ := ⟨rb₀, n, hread, .refl⟩
    refine (Loop.ends_of_run h).post
      (P := fun s => s.1 = heap ∧ Constructing clp json io r size s.2)
      (Q := fun result => ∃ rb res, Constructing clp json io r size rb ∧
        ClpFfiGo.newReaderTurn clp json io rb = .inr res ∧
        result = (heap.allocIf (allocates clp rb.unread), owning heap res)) ?_ ?_ ⟨rfl, h₀⟩
    · rintro ⟨_, rb⟩ ⟨heap', rb'⟩ ⟨rfl, hrb⟩ hturn
      rw [newReaderTurn_eq clp json io _ hrb.wf] at hturn
      cases ht : ClpFfiGo.newReaderTurn clp json io rb with
      | inl rb₁ =>
        rw [ht] at hturn
        cases hturn
        exact ⟨rfl, hrb.next ht⟩
      | inr res =>
        rw [ht] at hturn
        cases hturn
    · rintro ⟨_, rb⟩ q ⟨rfl, hrb⟩ hstop
      rw [newReaderTurn_eq clp json io _ hrb.wf] at hstop
      cases ht : ClpFfiGo.newReaderTurn clp json io rb with
      | inl rb₁ =>
        rw [ht] at hstop
        cases hstop
      | inr res =>
        rw [ht] at hstop
        cases hstop
        exact ⟨rb, res, hrb, ht, rfl⟩
  · rw [ReadBuf.initial] at hread
    rw [hread] at h
    cases h
    exact .inl ⟨err, rfl⟩

variable (heap) in
theorem newReaderSize_reaches {rb : ReadBuf σ} {res : Except (GoError ε) (Reader σ)}
    (h : Constructing clp json io r size rb)
    (hstop : ClpFfiGo.newReaderTurn clp json io rb = .inr res) :
    ∃ fuel, newReaderSize clp json io heap r size fuel =
      some (heap.allocIf (allocates clp rb.unread), owning heap res) := by
  obtain ⟨rb₀, n, hread, hturns⟩ := h
  have h₀ : Constructing clp json io r size rb₀ := ⟨rb₀, n, hread, .refl⟩
  obtain ⟨hall, hrb⟩ := hturns.invariant (P := fun rb =>
    Loop.Turns (newReaderTurn clp json io) (heap, rb₀) (heap, rb) ∧
      Constructing clp json io r size rb) (by
    rintro rb rb' ⟨hall, hrb⟩ ht
    have hturn := newReaderTurn_eq clp json io heap hrb.wf
    rw [ht] at hturn
    exact ⟨hall.tail hturn, hrb.next ht⟩) ⟨.refl, h₀⟩
  have hturn := newReaderTurn_eq clp json io heap hrb.wf
  rw [hstop] at hturn
  obtain ⟨fuel, hrun⟩ := Loop.run_of_ends (hall.ends hturn)
  rw [ReadBuf.initial] at hread
  refine ⟨fuel, ?_⟩
  rw [newReaderSize, hread]
  exact hrun

theorem isOk_newReaderTurn_iff {rb : ReadBuf σ} {res : Except (GoError ε) (Reader σ)}
    (hrb : Constructing clp json io r size rb)
    (h : ClpFfiGo.newReaderTurn clp json io rb = .inr res) :
    res.isOk = true ↔ (ClpFfiGo.deserializePreamble clp json rb.unread).isOk = true := by
  have hcases := construct_cases clp json io hrb.wf hrb.start
  rw [h] at hcases
  cases hcases with
  | returned ha => rw [ha]; rfl
  | rejected ha _ => rw [ha]; rfl
  | sourceFailed ha _ _ _ => rw [ha]; rfl

theorem newReaderSize_clean_iff (clp : IrReadApi) (json : JsonApi ε) (io : IoReader σ ε)
    (heap : Heap) (r : σ) (size : ℕ) :
    (∀ fuel result, newReaderSize clp json io heap r size fuel = some result →
      Clean heap result) ↔
        ∀ rb, Constructing clp json io r size rb → Usable clp json rb.unread := by
  constructor
  · intro h rb hrb
    rw [usable_iff]
    intro ha
    cases hd : ClpFfiGo.deserializePreamble clp json rb.unread with
    | ok result => rfl
    | error err =>
      have hi : err.isIncomplete = false := by
        by_contra hi
        rw [Bool.not_eq_false] at hi
        rw [allocates_of_incomplete hd hi] at ha
        cases ha
      have hstop : ClpFfiGo.newReaderTurn clp json io rb = .inr (.error err) := by
        rw [ClpFfiGo.newReaderTurn, hrb.wf.slice]
        dsimp only
        rw [hd]
        simp only [hi, Bool.false_eq_true, if_false]
      obtain ⟨fuel, hrun⟩ := newReaderSize_reaches heap hrb hstop
      have hok := (clean_iff _).mp (h fuel _ hrun) ha
      cases hok
  · intro h fuel result hrun
    rcases newReaderSize_outcome heap hrun with ⟨err, rfl⟩ | ⟨rb, res, hrb, hstop, rfl⟩
    · intro _ _
      rfl
    · apply (clean_iff _).mpr
      intro ha
      exact (isOk_newReaderTurn_iff hrb hstop).mpr (usable_iff.mp (h rb hrb) ha)

variable (clp json io) in
theorem newReaderTurn_erases (s : Heap × ReadBuf σ) :
    ClpFfiGo.newReaderTurn clp json io s.2 =
      (newReaderTurn clp json io s).map Prod.snd (fun result => result.2.map Owned.object) := by
  obtain ⟨heap, irr⟩ := s
  rw [newReaderTurn, ClpFfiGo.newReaderTurn]
  dsimp only
  cases Slice.slice? irr.buf irr.start irr.stop with
  | none => rfl
  | some irBuf =>
    dsimp only
    rw [deserializePreamble_eq]
    cases ClpFfiGo.deserializePreamble clp json irBuf with
    | ok result => rfl
    | error err =>
      dsimp only [owning_error]
      split
      · rcases ReadBuf.fillBuf io { irr with start := 0 } with ⟨irr', n, _ | err⟩ <;> rfl
      · rfl

variable (clp json io) in
theorem newReaderSize_erases (heap : Heap) (r : σ) (size fuel : ℕ) :
    (newReaderSize clp json io heap r size fuel).map (fun result => result.2.map Owned.object) =
      ClpFfiGo.newReaderSize clp json io r size fuel := by
  rw [newReaderSize, ClpFfiGo.newReaderSize]
  rcases ReadBuf.read io ⟨r, List.replicate size 0, 0, 0⟩ with ⟨irr, n, _ | err⟩
  · exact (Loop.run_map (newReaderTurn_erases clp json io) fuel (heap, irr)).symm
  · rfl

end constructing

section serializers

variable {clp : IrWriteApi} (heap : Heap) (a b c : GoString) (ts : EpochTimeMs)

theorem newSerializerWithPreamble_eq (enc : Encoding) :
    newSerializerWithPreamble clp heap enc a b c ts =
      (heap.alloc, ⟨(Native.newSerializerWithPreamble clp enc a b c ts).1, heap.next⟩,
        (Native.newSerializerWithPreamble clp enc a b c ts).2) := by
  cases enc <;> rfl

theorem eightByteSerializer_eq : eightByteSerializer (ε := ε) clp heap a b c =
    (heap.allocIf true, owning heap (ClpFfiGo.eightByteSerializer clp a b c)) := by
  rw [eightByteSerializer, ClpFfiGo.eightByteSerializer, newSerializerWithPreamble_eq]
  rcases Native.newSerializerWithPreamble clp .eightByte a b c 0 with ⟨cptr, err | irView⟩ <;> rfl

theorem fourByteSerializer_eq : fourByteSerializer (ε := ε) clp heap a b c ts =
    (heap.allocIf true, owning heap (ClpFfiGo.fourByteSerializer clp a b c ts)) := by
  rw [fourByteSerializer, ClpFfiGo.fourByteSerializer, newSerializerWithPreamble_eq]
  rcases Native.newSerializerWithPreamble clp .fourByte a b c ts with ⟨cptr, err | irView⟩ <;> rfl

theorem isOk_eightByteSerializer : (ClpFfiGo.eightByteSerializer (ε := ε) clp a b c).isOk =
    (clp.eightByteSerializePreamble a b c []).1 := by
  unfold ClpFfiGo.eightByteSerializer Native.newSerializerWithPreamble
  generalize clp.eightByteSerializePreamble a b c [] = r
  rcases r with ⟨_ | _, irBuf⟩ <;> rfl

theorem isOk_fourByteSerializer : (ClpFfiGo.fourByteSerializer (ε := ε) clp a b c ts).isOk =
    (clp.fourByteSerializePreamble a b c ts []).1 := by
  unfold ClpFfiGo.fourByteSerializer Native.newSerializerWithPreamble
  generalize clp.fourByteSerializePreamble a b c ts [] = r
  rcases r with ⟨_ | _, irBuf⟩ <;> rfl

end serializers

section constructors

variable (clp : IrReadApi) (clpw : IrWriteApi) (json : JsonApi ε) (heap : Heap)

theorem constructors_clean_iff :
    (∀ irBuf, Clean heap (deserializePreamble clp json heap irBuf) ↔ Usable clp json irBuf) ∧
    (∀ (io : IoReader σ ε) r size, (∀ fuel result,
      newReaderSize clp json io heap r size fuel = some result → Clean heap result) ↔
        ∀ rb, Constructing clp json io r size rb → Usable clp json rb.unread) ∧
    (∀ tsPattern tsPatternSyntax timeZoneId,
      Clean heap (eightByteSerializer (ε := ε) clpw heap tsPattern tsPatternSyntax timeZoneId) ↔
        (clpw.eightByteSerializePreamble tsPattern tsPatternSyntax timeZoneId []).1 = true) ∧
    ∀ tsPattern tsPatternSyntax timeZoneId referenceTs,
      Clean heap (fourByteSerializer (ε := ε) clpw heap tsPattern tsPatternSyntax timeZoneId
        referenceTs) ↔
        (clpw.fourByteSerializePreamble tsPattern tsPatternSyntax timeZoneId referenceTs []).1 =
          true := by
  refine ⟨fun irBuf => ?_, fun io r size => ?_, fun a b c => ?_, fun a b c ts => ?_⟩
  · rw [deserializePreamble_eq, clean_iff, usable_iff]
  · exact newReaderSize_clean_iff clp json io heap r size
  · rw [eightByteSerializer_eq, clean_iff, isOk_eightByteSerializer]
    exact ⟨fun h => h rfl, fun h _ => h⟩
  · rw [fourByteSerializer_eq, clean_iff, isOk_fourByteSerializer]
    exact ⟨fun h => h rfl, fun h _ => h⟩

theorem constructors_erase :
    (∀ irBuf, (deserializePreamble clp json heap irBuf).2.map Owned.object =
      ClpFfiGo.deserializePreamble clp json irBuf) ∧
    (∀ (io : IoReader σ ε) r size fuel, (newReaderSize clp json io heap r size fuel).map
      (fun result => result.2.map Owned.object) = ClpFfiGo.newReaderSize clp json io r size fuel) ∧
    (∀ tsPattern tsPatternSyntax timeZoneId,
      (eightByteSerializer (ε := ε) clpw heap tsPattern tsPatternSyntax timeZoneId).2.map
        Owned.object = ClpFfiGo.eightByteSerializer clpw tsPattern tsPatternSyntax timeZoneId) ∧
    ∀ tsPattern tsPatternSyntax timeZoneId referenceTs,
      (fourByteSerializer (ε := ε) clpw heap tsPattern tsPatternSyntax timeZoneId
        referenceTs).2.map Owned.object =
        ClpFfiGo.fourByteSerializer clpw tsPattern tsPatternSyntax timeZoneId referenceTs := by
  refine ⟨fun irBuf => ?_, fun io r size fuel => ?_, fun a b c => ?_, fun a b c ts => ?_⟩
  · rw [deserializePreamble_eq]
    exact map_owning _
  · exact newReaderSize_erases clp json io heap r size fuel
  · rw [eightByteSerializer_eq]
    exact map_owning _
  · rw [fourByteSerializer_eq]
    exact map_owning _

theorem constructors_balanced :
    (∀ irBuf, Balanced heap (deserializePreamble clp json heap irBuf)) ∧
    (∀ (io : IoReader σ ε) r size fuel result,
      newReaderSize clp json io heap r size fuel = some result → Balanced heap result) ∧
    (∀ tsPattern tsPatternSyntax timeZoneId, Balanced heap
      (eightByteSerializer (ε := ε) clpw heap tsPattern tsPatternSyntax timeZoneId)) ∧
    ∀ tsPattern tsPatternSyntax timeZoneId referenceTs, Balanced heap
      (fourByteSerializer (ε := ε) clpw heap tsPattern tsPatternSyntax timeZoneId referenceTs) := by
  refine ⟨fun irBuf => ?_, fun io r size fuel result hrun => ?_, fun a b c => ?_,
    fun a b c ts => ?_⟩
  · rw [deserializePreamble_eq]
    exact balanced_of _ allocates_of_isOk
  · rcases newReaderSize_outcome heap hrun with ⟨err, rfl⟩ | ⟨rb, res, hrb, hstop, rfl⟩
    · intro _ h
      cases h
    · apply balanced_of
      intro hres
      exact allocates_of_isOk ((isOk_newReaderTurn_iff hrb hstop).mp hres)
  · rw [eightByteSerializer_eq]
    exact balanced_of _ (fun _ => rfl)
  · rw [fourByteSerializer_eq]
    exact balanced_of _ (fun _ => rfl)

end constructors

section sampling

open SampleCodec

theorem rejected_constructors_leak :
    ¬ Clean Heap.empty
      (deserializePreamble readApi jsonApi Heap.empty (magic .eightByte ++ [2, 0x11, 0])) ∧
    (∃ result, newReaderSize readApi jsonApi source Heap.empty
      [magic .eightByte ++ [2, 0x11, 0]] 16 1 = some result ∧ ¬ Clean Heap.empty result) ∧
    ¬ Clean Heap.empty (eightByteSerializer (ε := Unit) writeApi Heap.empty [] []
      (List.replicate 65536 97)) ∧
    ¬ Clean Heap.empty (fourByteSerializer (ε := Unit) writeApi Heap.empty [] []
      (List.replicate 65536 97) 0) := by
  refine ⟨?_, ⟨_, rfl, ?_⟩, ?_, ?_⟩
  · intro h
    exact absurd (h _ rfl) (by decide)
  · intro h
    exact absurd (h _ rfl) (by decide)
  · rw [eightByteSerializer_eq, clean_iff, isOk_eightByteSerializer]
    intro h
    have hlen := eightByte_timeZoneId_lt (h rfl)
    rw [List.length_replicate] at hlen
    omega
  · rw [fourByteSerializer_eq, clean_iff, isOk_fourByteSerializer]
    intro h
    have hlen := fourByte_timeZoneId_lt (h rfl)
    rw [List.length_replicate] at hlen
    omega

end sampling

end ClpFfiGo.Heaped
