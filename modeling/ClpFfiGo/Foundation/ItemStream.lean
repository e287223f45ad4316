import Mathlib.Algebra.Order.Ring.Nat
import Mathlib.Data.List.Forall2
import Mathlib.Data.List.Infix
import Mathlib.Tactic.Common

structure ItemDecoder (α ι ε : Type) where
  dec : List α → Except ε (ι × ℕ)
  more : ε
  advance : ∀ {b i n}, dec b = .ok (i, n) → 0 < n ∧ n ≤ b.length

namespace ItemDecoder

variable {α ι ε : Type} (D : ItemDecoder α ι ε)

def parseFuel : ℕ → List α → List (ι × ℕ) × ε
  | 0, _ => ([], D.more)
  | k + 1, b => match D.dec b with
    | .error e => ([], e)
    | .ok (i, n) => ((i, n) :: (parseFuel k (b.drop n)).1, (parseFuel k (b.drop n)).2)

def parse (b : List α) : List (ι × ℕ) × ε := D.parseFuel (b.length + 1) b

def Settled (full : List α) : Prop :=
  ∀ q p, q <+: p → p <+: full → D.dec q = .error D.more ∨ D.dec q = D.dec p

inductive Regular : List α → Prop
  | error {b e} : D.Settled b → D.dec b = .error e → Regular b
  | item {b i n} : D.Settled b → D.dec b = .ok (i, n) → Regular (b.drop n) → Regular b

def PrefixStable : Prop := ∀ b x, D.dec b ≠ .error D.more → D.dec (b ++ x) = D.dec b

inductive After : List α → List α → Prop
  | refl {b} : After b b
  | item {b i n b'} : D.dec b = .ok (i, n) → After (b.drop n) b' → After b b'

-- An incomplete item is shorter than `M`, wherever in the stream the decoder stands.
def Within (M : ℕ) (b : List α) : Prop :=
  ∀ c u, D.After b c → u <+: c → D.dec u = .error D.more → u.length ≤ M - 1

structure Exact (p : List α) (i : ι) : Prop where
  whole : ∀ rest, D.dec (p ++ rest) = .ok (i, p.length)
  part : ∀ q, q <+: p → q ≠ p → D.dec q = .error D.more

variable {D}

@[elab_as_elim] theorem bytesInduction {motive : List α → Prop}
    (error : ∀ b e, D.dec b = .error e → motive b)
    (item : ∀ b i n, D.dec b = .ok (i, n) → motive (b.drop n) → motive b) (b : List α) :
    motive b := by
  induction hk : b.length using Nat.strong_induction_on generalizing b with
  | _ k ih =>
    cases hd : D.dec b with
    | error e => exact error b e hd
    | ok r =>
      obtain ⟨hn, hl⟩ := D.advance (i := r.1) (n := r.2) hd
      exact item b r.1 r.2 hd (ih (b.drop r.2).length (by simp; omega) _ rfl)

theorem parseFuel_eq {k : ℕ} (b : List α) (h : b.length < k) : D.parseFuel k b = D.parse b := by
  have two : ∀ (b : List α) (k m : ℕ), b.length < k → b.length < m →
      D.parseFuel k b = D.parseFuel m b := by
    intro b
    induction b using bytesInduction (D := D) with
    | error b e hd =>
      intro k m hk hm
      obtain ⟨k, rfl⟩ : ∃ j, k = j + 1 := ⟨k - 1, by omega⟩
      obtain ⟨m, rfl⟩ : ∃ j, m = j + 1 := ⟨m - 1, by omega⟩
      simp [parseFuel, hd]
    | item b i n hd ih =>
      intro k m hk hm
      obtain ⟨k, rfl⟩ : ∃ j, k = j + 1 := ⟨k - 1, by omega⟩
      obtain ⟨m, rfl⟩ : ∃ j, m = j + 1 := ⟨m - 1, by omega⟩
      have hn := D.advance hd
      have he := ih k m (by simp; omega) (by simp; omega)
      simp [parseFuel, hd, he]
  exact two b _ _ h (by omega)

theorem parse_error {b : List α} {e : ε} (h : D.dec b = .error e) : D.parse b = ([], e) := by
  simp [parse, parseFuel, h]

theorem parse_ok {b : List α} {i : ι} {n : ℕ} (h : D.dec b = .ok (i, n)) :
    D.parse b = ((i, n) :: (D.parse (b.drop n)).1, (D.parse (b.drop n)).2) := by
  have hn := D.advance h
  have he := parseFuel_eq (D := D) (k := b.length) (b.drop n) (by simp; omega)
  rw [parse, parseFuel, h]
  simp [he]

theorem dec_of_nil {b : List α} (h : (D.parse b).1 = []) : D.dec b = .error (D.parse b).2 := by
  cases hd : D.dec b with
  | error e => rw [parse_error hd]
  | ok r => rw [parse_ok hd] at h; cases h

theorem dec_of_cons {b : List α} {i : ι} {n : ℕ} {is : List (ι × ℕ)}
    (h : (D.parse b).1 = (i, n) :: is) :
    D.dec b = .ok (i, n) ∧ D.parse (b.drop n) = (is, (D.parse b).2) := by
  cases hd : D.dec b with
  | error e => rw [parse_error hd] at h; cases h
  | ok r =>
    rw [parse_ok hd] at h ⊢
    cases h
    exact ⟨rfl, rfl⟩

theorem parse_drop (b : List α) (k : ℕ) (hk : k ≤ (D.parse b).1.length) :
    D.parse (b.drop (((D.parse b).1.take k).map Prod.snd).sum) =
      ((D.parse b).1.drop k, (D.parse b).2) := by
  induction b using bytesInduction (D := D) generalizing k with
  | error b e hd =>
    rw [parse_error hd]
    simpa using parse_error hd
  | item b i n hd ih =>
    cases k with
    | zero => simp
    | succ k =>
      rw [parse_ok hd] at hk ⊢
      have := ih k (by simpa using hk)
      rw [List.drop_drop] at this
      simpa using this

theorem Regular.settled {b : List α} (h : D.Regular b) : D.Settled b := by
  cases h with
  | error hs _ => exact hs
  | item hs _ _ => exact hs

theorem Regular.drop {b : List α} {i : ι} {n : ℕ} (h : D.Regular b) (hd : D.dec b = .ok (i, n)) :
    D.Regular (b.drop n) := by
  cases h with
  | error _ he => rw [hd] at he; cases he
  | item _ he hr => rw [hd] at he; cases he; exact hr

theorem Settled.of_prefix {b p : List α} (h : D.Settled b) (hp : p <+: b) : D.Settled p :=
  fun q r hq hr => h q r hq (hr.trans hp)

theorem Settled.cases {b p : List α} (h : D.Settled b) (hp : p <+: b) :
    D.dec p = .error D.more ∨ D.dec p = D.dec b := h p b hp List.prefix_rfl

theorem Regular.of_prefix {b p : List α} (h : D.Regular b) (hp : p <+: b) : D.Regular p := by
  induction h generalizing p with
  | error hs he =>
    rcases hs.cases hp with hm | hm
    · exact .error (hs.of_prefix hp) hm
    · exact .error (hs.of_prefix hp) (hm.trans he)
  | item hs he _ ih =>
    rcases hs.cases hp with hm | hm
    · exact .error (hs.of_prefix hp) hm
    · exact .item (hs.of_prefix hp) (hm.trans he) (ih (hp.drop _))

theorem PrefixStable.settled (h : D.PrefixStable) (b : List α) : D.Settled b := by
  rintro q p ⟨x, rfl⟩ _
  by_cases hq : D.dec q = .error D.more
  · exact .inl hq
  · exact .inr (h q x hq).symm

theorem PrefixStable.regular (h : D.PrefixStable) (b : List α) : D.Regular b := by
  induction b using bytesInduction (D := D) with
  | error b e hd => exact .error (h.settled b) hd
  | item b i n hd ih => exact .item (h.settled b) hd ih

theorem parse_prefix {b p : List α} (h : D.Regular b) (hp : p <+: b) :
    (D.parse p).1 <+: (D.parse b).1 ∧ ((D.parse p).2 ≠ D.more → D.parse p = D.parse b) := by
  induction h generalizing p with
  | @error b e hs he =>
    rcases hs.cases hp with hm | hm
    · simp [parse_error hm]
    · simp [parse_error (hm.trans he), parse_error he]
  | @item b i n hs he _ ih =>
    rcases hs.cases hp with hm | hm
    · simp [parse_error hm]
    · obtain ⟨h1, h2⟩ := ih (hp.drop n)
      rw [parse_ok (hm.trans he), parse_ok he]
      refine ⟨by simpa using h1, fun hne => ?_⟩
      simp [h2 hne]

theorem After.trans {b c e : List α} (h : D.After b c) (k : D.After c e) : D.After b e := by
  induction h with
  | refl => exact k
  | item hd _ ih => exact .item hd (ih k)

theorem After.regular {b c : List α} (h : D.After b c) (hr : D.Regular b) : D.Regular c := by
  induction h with
  | refl => exact hr
  | item hd _ ih => exact ih (hr.drop hd)

theorem After.tail {b c : List α} (h : D.After b c) : (D.parse c).2 = (D.parse b).2 := by
  induction h with
  | refl => rfl
  | item hd _ ih => rw [ih, parse_ok hd]

theorem after_items (b : List α) (k : ℕ) (hk : k ≤ (D.parse b).1.length) :
    D.After b (b.drop (((D.parse b).1.take k).map Prod.snd).sum) := by
  induction b using bytesInduction (D := D) generalizing k with
  | error b e hd =>
    rw [parse_error hd]
    simpa using After.refl
  | item b i n hd ih =>
    rw [parse_ok hd] at hk ⊢
    cases k with
    | zero => simpa using After.refl
    | succ k =>
      have := ih k (by simpa using hk)
      rw [List.drop_drop] at this
      simpa using After.item hd this

theorem after_error (b : List α) : ∃ c, D.After b c ∧ D.dec c = .error (D.parse b).2 := by
  induction b using bytesInduction (D := D) with
  | error b e hd => exact ⟨b, .refl, by rw [hd, parse_error hd]⟩
  | item b i n hd ih =>
    obtain ⟨c, hc, he⟩ := ih
    exact ⟨c, .item hd hc, by rw [he, parse_ok hd]⟩

theorem Exact.cases {p b q : List α} {i : ι} (h : D.Exact p i) (hq : q <+: p ++ b) :
    D.dec q = .error D.more ∨ ∃ r, q = p ++ r ∧ r <+: b := by
  rcases List.prefix_or_prefix_of_prefix hq (List.prefix_append p b) with hs | ⟨r, rfl⟩
  · by_cases he : q = p
    · exact .inr ⟨[], by simp [he], List.nil_prefix⟩
    · exact .inl (h.part q hs he)
  · exact .inr ⟨r, rfl, (List.prefix_append_right_inj p).mp hq⟩

theorem Exact.settled {p : List α} {i : ι} (h : D.Exact p i) (b : List α) :
    D.Settled (p ++ b) := by
  intro q r hqr hr
  rcases h.cases (hqr.trans hr) with hm | ⟨q', rfl, _⟩
  · exact .inl hm
  · obtain ⟨x, rfl⟩ := hqr
    right
    rw [List.append_assoc, h.whole, h.whole]

theorem Exact.regular {p b : List α} {i : ι} (h : D.Exact p i) (hb : D.Regular b) :
    D.Regular (p ++ b) :=
  .item (h.settled b) (h.whole b) (by simpa using hb)

theorem Exact.parse {p : List α} {i : ι} (h : D.Exact p i) (b : List α) :
    D.parse (p ++ b) = ((i, p.length) :: (D.parse b).1, (D.parse b).2) := by
  simpa using parse_ok (h.whole b)

theorem Within.after {M : ℕ} {b c : List α} (h : D.Within M b) (hc : D.After b c) : D.Within M c :=
  fun _ _ hd hu he => h _ _ (hc.trans hd) hu he

theorem Exact.within {M : ℕ} {p b : List α} {i : ι} (h : D.Exact p i) (hp : p.length ≤ M)
    (hb : D.Within M b) : D.Within M (p ++ b) := by
  intro c u hc hu he
  cases hc with
  | refl =>
    rcases List.prefix_or_prefix_of_prefix hu (List.prefix_append p b) with hs | ⟨r, rfl⟩
    · have hne : u ≠ p := by
        rintro rfl
        have hw := h.whole []
        rw [List.append_nil, he] at hw
        cases hw
      have hlt := hs.length_le.lt_of_ne fun hl => hne (hs.eq_of_length hl)
      omega
    · rw [h.whole] at he
      cases he
  | item hd hc =>
    rw [h.whole] at hd
    cases hd
    rw [List.drop_left] at hc
    exact hb c u hc hu he

variable {ps : List (List α)} {is : List ι}

theorem within_items (h : List.Forall₂ D.Exact ps is) {M : ℕ} (hM : ∀ p ∈ ps, p.length ≤ M)
    {b : List α} (hb : D.Within M b) : D.Within M (ps.flatten ++ b) := by
  induction h with
  | nil => simpa using hb
  | cons hp _ ih =>
    rw [List.forall_mem_cons] at hM
    rw [List.flatten_cons, List.append_assoc]
    exact hp.within hM.1 (ih hM.2)

theorem regular_items (h : List.Forall₂ D.Exact ps is) {b : List α} (hb : D.Regular b) :
    D.Regular (ps.flatten ++ b) := by
  induction h with
  | nil => simpa using hb
  | cons hp _ ih => simpa using hp.regular ih

theorem parse_items (h : List.Forall₂ D.Exact ps is) (b : List α) :
    D.parse (ps.flatten ++ b) =
      (is.zip (ps.map List.length) ++ (D.parse b).1, (D.parse b).2) := by
  induction h with
  | nil => simp
  | @cons p i ps is hp _ ih =>
    rw [List.flatten_cons, List.append_assoc, hp.parse, ih]
    simp

end ItemDecoder
