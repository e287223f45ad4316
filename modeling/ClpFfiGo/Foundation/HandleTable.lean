import ClpFfiGo.Foundation.Heap

-- Objects that each own one allocation, named by a handle; `leaked` are the ones nobody owns.
structure HandleTable (α : Type) where
  heap : Heap
  objects : List (α × ℕ)
  leaked : Finset ℕ

namespace HandleTable

variable {α : Type}

def empty : HandleTable α := ⟨Heap.empty, [], ∅⟩

def add (t : HandleTable α) (a : α) : HandleTable α where
  heap := t.heap.alloc
  objects := t.objects ++ [(a, t.heap.next)]
  leaked := t.leaked

def lose (t : HandleTable α) : HandleTable α where
  heap := t.heap.alloc
  objects := t.objects
  leaked := insert t.heap.next t.leaked

-- `none` is an access through a handle that is not live.
def call (isOpen : α → Bool) (t : HandleTable α) (i : ℕ) (a' : α) (closes : Bool) :
    Option (HandleTable α) :=
  match t.objects[i]? with
  | none => some t
  | some (a, h) =>
    if isOpen a then
      if h ∈ t.heap.live then some
        { t with
          heap := if closes then t.heap.free h else t.heap
          objects := t.objects.set i (a', h) }
      else none
    else some { t with objects := t.objects.set i (a', h) }

def Owns (isOpen : α → Bool) (t : HandleTable α) (i h : ℕ) : Prop :=
  ∃ a, t.objects[i]? = some (a, h) ∧ isOpen a = true

structure Balanced (isOpen : α → Bool) (t : HandleTable α) : Prop where
  live : ∀ h, h ∈ t.heap.live ↔ h ∈ t.leaked ∨ ∃ i, t.Owns isOpen i h
  distinct : ∀ i j h, t.Owns isOpen i h → t.Owns isOpen j h → i = j
  unowned : ∀ i h, t.Owns isOpen i h → h ∉ t.leaked

variable {isOpen : α → Bool} {t : HandleTable α} {a : α} {i j h : ℕ}

theorem balanced_empty : (empty : HandleTable α).Balanced isOpen where
  live h := by
    constructor
    · intro hh
      exact absurd hh (Finset.notMem_empty _)
    · rintro (hh | ⟨i, _, hi, _⟩)
      · exact hh
      · simp [empty] at hi
  distinct i j h hi := by
    obtain ⟨_, hi, _⟩ := hi
    simp [empty] at hi
  unowned i h hi := Finset.notMem_empty _

theorem Balanced.fresh (hb : t.Balanced isOpen) (ho : t.Owns isOpen i h) : h ≠ t.heap.next := by
  rintro rfl
  exact t.heap.next_notMem ((hb.live _).mpr (.inr ⟨i, ho⟩))

theorem owns_add (ha : isOpen a = true) : (t.add a).Owns isOpen i h ↔
    t.Owns isOpen i h ∨ i = t.objects.length ∧ h = t.heap.next := by
  constructor
  · rintro ⟨b, hi, hb⟩
    rw [add, List.getElem?_append] at hi
    split at hi
    · exact .inl ⟨b, hi, hb⟩
    · rename_i hlt
      have hz : i - t.objects.length = 0 := by
        by_contra hne
        obtain ⟨k, hk⟩ := Nat.exists_eq_succ_of_ne_zero hne
        rw [hk] at hi
        simp at hi
      rw [hz] at hi
      cases hi
      exact .inr ⟨by omega, rfl⟩
  · rintro (⟨b, hi, hb⟩ | ⟨rfl, rfl⟩)
    · obtain ⟨hlt, _⟩ := List.getElem?_eq_some_iff.mp hi
      exact ⟨b, by rw [add, List.getElem?_append_left hlt, hi], hb⟩
    · exact ⟨a, by simp [add], ha⟩

theorem Balanced.add (hb : t.Balanced isOpen) (ha : isOpen a = true) :
    (t.add a).Balanced isOpen where
  live h := by
    have hlive : h ∈ (t.add a).heap.live ↔ h = t.heap.next ∨ h ∈ t.heap.live :=
      Finset.mem_insert
    simp only [hlive, hb.live, owns_add ha]
    constructor
    · rintro (rfl | hl | ⟨i, ho⟩)
      · exact .inr ⟨_, .inr ⟨rfl, rfl⟩⟩
      · exact .inl hl
      · exact .inr ⟨i, .inl ho⟩
    · rintro (hl | ⟨i, ho | ⟨_, rfl⟩⟩)
      · exact .inr (.inl hl)
      · exact .inr (.inr ⟨i, ho⟩)
      · exact .inl rfl
  distinct i j h hi hj := by
    rw [owns_add ha] at hi hj
    rcases hi with hi | ⟨rfl, hi⟩ <;> rcases hj with hj | ⟨rfl, hj⟩
    · exact hb.distinct i j h hi hj
    · exact absurd hj (hb.fresh hi)
    · exact absurd hi (hb.fresh hj)
    · rfl
  unowned i h hi := by
    rw [owns_add ha] at hi
    rcases hi with hi | ⟨_, rfl⟩
    · exact hb.unowned i h hi
    · intro hl
      exact t.heap.next_notMem ((hb.live _).mpr (.inl hl))

theorem Balanced.lose (hb : t.Balanced isOpen) : t.lose.Balanced isOpen where
  live h := by
    have hlive : h ∈ t.lose.heap.live ↔ h = t.heap.next ∨ h ∈ t.heap.live := Finset.mem_insert
    have hleaked : h ∈ t.lose.leaked ↔ h = t.heap.next ∨ h ∈ t.leaked := Finset.mem_insert
    rw [hlive, hleaked, hb.live, or_assoc]
    exact Iff.rfl
  distinct := hb.distinct
  unowned i h hi := by
    intro hl
    rcases Finset.mem_insert.mp hl with rfl | hl
    · exact hb.fresh hi rfl
    · exact hb.unowned i h hi hl

-- An object that stays as open as it was keeps its handle; a closed one gives its handle up.
theorem owns_set {a' : α} (ha : t.objects[i]? = some (a, h)) {heap : Heap} {j k : ℕ} :
    ({ t with heap, objects := t.objects.set i (a', h) } : HandleTable α).Owns isOpen j k ↔
      if j = i then k = h ∧ isOpen a' = true else t.Owns isOpen j k := by
  obtain ⟨hlt, _⟩ := List.getElem?_eq_some_iff.mp ha
  unfold Owns
  by_cases hj : j = i
  · subst hj
    rw [if_pos rfl, List.getElem?_set_self hlt]
    constructor
    · rintro ⟨b, hb, ho⟩
      cases hb
      exact ⟨rfl, ho⟩
    · rintro ⟨rfl, ho⟩
      exact ⟨a', rfl, ho⟩
  · rw [if_neg hj, List.getElem?_set_ne (Ne.symm hj)]

theorem owns_kept {a' : α} (ha : t.objects[i]? = some (a, h)) (ho : isOpen a' = isOpen a)
    {heap : Heap} {j k : ℕ} :
    ({ t with heap, objects := t.objects.set i (a', h) } : HandleTable α).Owns isOpen j k ↔
      t.Owns isOpen j k := by
  rw [owns_set ha]
  split
  · rename_i hj
    subst hj
    rw [ho]
    constructor
    · rintro ⟨rfl, h'⟩
      exact ⟨a, ha, h'⟩
    · rintro ⟨b, hb, h'⟩
      rw [ha] at hb
      cases hb
      exact ⟨rfl, h'⟩
  · exact Iff.rfl

theorem Balanced.kept (hb : t.Balanced isOpen) {a' : α} (ha : t.objects[i]? = some (a, h))
    (ho : isOpen a' = isOpen a) :
    ({ t with objects := t.objects.set i (a', h) } : HandleTable α).Balanced isOpen where
  live k := by simp only [owns_kept ha ho]; exact hb.live k
  distinct j k l := by rw [owns_kept ha ho, owns_kept ha ho]; exact hb.distinct j k l
  unowned j k := by rw [owns_kept ha ho]; exact hb.unowned j k

theorem Balanced.freed (hb : t.Balanced isOpen) {a' : α} (ha : t.objects[i]? = some (a, h))
    (ho : isOpen a = true) (hc : isOpen a' = false) :
    ({ t with heap := t.heap.free h, objects := t.objects.set i (a', h) } :
      HandleTable α).Balanced isOpen := by
  have howns : t.Owns isOpen i h := ⟨a, ha, ho⟩
  have hiff : ∀ j k, ({ t with heap := t.heap.free h, objects := t.objects.set i (a', h) } :
      HandleTable α).Owns isOpen j k ↔ j ≠ i ∧ t.Owns isOpen j k := by
    intro j k
    rw [owns_set ha, hc]
    split
    · rename_i hj
      simp [hj]
    · rename_i hj
      simp [hj]
  refine ⟨fun k => ?_, fun j k l => ?_, fun j k => ?_⟩
  · simp only [hiff, Heap.live_free, Finset.mem_erase, hb.live]
    constructor
    · rintro ⟨hne, hl | ⟨j, hj⟩⟩
      · exact .inl hl
      · refine .inr ⟨j, ?_, hj⟩
        rintro rfl
        obtain ⟨b, hb', _⟩ := hj
        rw [ha] at hb'
        cases hb'
        exact hne rfl
    · rintro (hl | ⟨j, hji, hj⟩)
      · refine ⟨?_, .inl hl⟩
        rintro rfl
        exact hb.unowned i _ howns hl
      · refine ⟨?_, .inr ⟨j, hj⟩⟩
        rintro rfl
        exact hji (hb.distinct j i _ hj howns)
  · rw [hiff, hiff]
    rintro ⟨_, hj⟩ ⟨_, hk⟩
    exact hb.distinct j k l hj hk
  · rw [hiff]
    rintro ⟨_, hj⟩
    exact hb.unowned j k hj

theorem Balanced.call (hb : t.Balanced isOpen) (i : ℕ) (a' : α) (closes : Bool)
    (hstep : ∀ a h, t.objects[i]? = some (a, h) → isOpen a' = (isOpen a && !closes)) :
    ∃ t', t.call isOpen i a' closes = some t' ∧ t'.Balanced isOpen ∧ t'.leaked = t.leaked ∧
      ∀ a h, t.objects[i]? = some (a, h) → t'.objects = t.objects.set i (a', h) := by
  rw [HandleTable.call]
  cases hi : t.objects[i]? with
  | none => exact ⟨t, rfl, hb, rfl, fun a h ha => (by cases ha)⟩
  | some p =>
    obtain ⟨a, h⟩ := p
    have ho := hstep a h hi
    have hset : ∀ b k, some (a, h) = some (b, k) → t.objects.set i (a', h) =
        t.objects.set i (a', k) := by
      intro b k hp
      cases hp
      rfl
    cases hopen : isOpen a with
    | false =>
      rw [hopen, Bool.false_and] at ho
      simp only [hopen, Bool.false_eq_true, if_false]
      exact ⟨_, rfl, hb.kept hi (ho.trans hopen.symm), rfl, hset⟩
    | true =>
      have hlive : h ∈ t.heap.live := (hb.live h).mpr (.inr ⟨i, a, hi, hopen⟩)
      rw [hopen, Bool.true_and] at ho
      simp only [hopen, if_true, hlive]
      refine ⟨_, rfl, ?_, rfl, hset⟩
      cases closes with
      | false => exact hb.kept hi (ho.trans hopen.symm)
      | true => exact hb.freed hi hopen ho

theorem leaked_call {t' : HandleTable α} {closes : Bool}
    (h : t.call isOpen i a closes = some t') : t'.leaked = t.leaked := by
  rw [HandleTable.call] at h
  split at h
  · cases h
    rfl
  · split at h
    · split at h
      · cases h
        rfl
      · cases h
    · cases h
      rfl

theorem Balanced.closed (hb : t.Balanced isOpen)
    (hc : ∀ (i : ℕ) a h, t.objects[i]? = some (a, h) → isOpen a = false) :
    t.heap.live = t.leaked := by
  ext h
  rw [hb.live]
  constructor
  · rintro (hl | ⟨i, a, hi, ho⟩)
    · exact hl
    · rw [hc i a h hi] at ho
      cases ho
  · exact .inl

end HandleTable
