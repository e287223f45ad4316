import ClpFfiGo.SampleCodec

namespace ClpFfiGo

variable {σ ε : Type} {clp : IrReadApi} {json : JsonApi ε} {io : IoReader σ ε}
  {src : σ → List UInt8 → Prop}

abbrev ReadResults (ε : Type) := List (Except (GoError ε) LogEventView)

inductive Reads (clp : IrReadApi) (io : IoReader σ ε) :
    Reader σ → ReadResults ε → Reader σ → Prop
  | nil {rd} : Reads clp io rd [] rd
  | cons {rd₀ rd₁ rd₂ fuel res rest} : rd₀.read clp io fuel = some (rd₁, res) →
      Reads clp io rd₁ rest rd₂ → Reads clp io rd₀ (res :: rest) rd₂

def settled : Except (GoError ε) LogEventView → Bool
  | .error (.io _) => false
  | _ => true

inductive Cursor.Yields (clp : IrReadApi) (enc : Encoding) :
    Cursor → ReadResults ε → Cursor → Prop
  | nil {c} : Cursor.Yields clp enc c [] c
  | cons {c₀ c₁ c₂ res rest} : c₀.read clp enc = some (c₁, res) →
      Cursor.Yields clp enc c₁ rest c₂ → Cursor.Yields clp enc c₀ (res :: rest) c₂

theorem Cursor.read_not_io {enc : Encoding} {c c' : Cursor} {res : Except (GoError ε) LogEventView}
    (h : c.read clp enc = some (c', res)) : settled res = true := by
  unfold Cursor.read at h
  split at h
  · cases h
  · cases h
    rfl
  · cases h
    rfl

theorem Cursor.read_after {enc : Encoding} {c c' : Cursor}
    {res : Except (GoError ε) LogEventView} (h : c.read clp enc = some (c', res)) :
    (itemDecoder clp enc).After c.bytes c'.bytes := by
  rw [Cursor.read] at h
  split at h
  · cases h
  · cases h
    exact .refl
  · rename_i hd
    cases h
    exact .item hd .refl

theorem Cursor.Yields.comparable {enc : Encoding} {c c₁ c₂ : Cursor} {l₁ l₂ : ReadResults ε}
    (h₁ : c.Yields clp enc l₁ c₁) (h₂ : c.Yields clp enc l₂ c₂) : l₁ <+: l₂ ∨ l₂ <+: l₁ := by
  induction h₁ generalizing l₂ with
  | nil => exact .inl List.nil_prefix
  | @cons c₀ d₁ d₂ res rest hread _ ih =>
    cases h₂ with
    | nil => exact .inr List.nil_prefix
    | cons hread' hrest =>
      rw [hread] at hread'
      cases hread'
      rcases ih hrest with h | h
      · exact .inl (List.cons_prefix_cons.mpr ⟨rfl, h⟩)
      · exact .inr (List.cons_prefix_cons.mpr ⟨rfl, h⟩)

theorem reads_refine (hsrc : io.Conserves src) {d : Deserializer} {c : Cursor}
    {rd rd' : Reader σ} {l : ReadResults ε} (hr : (itemDecoder clp d.encoding).Regular c.bytes)
    (h : rd.Holds src d c) (hl : Reads clp io rd l rd') :
    ∃ c', c.Yields clp d.encoding (l.filter settled) c' ∧ rd'.Holds src d c' := by
  induction hl generalizing c with
  | nil => exact ⟨c, .nil, h⟩
  | @cons rd₀ rd₁ rd₂ fuel res rest hread _ ih =>
    rcases read_refines hsrc hr.settled h (Loop.ends_of_run hread) with
      ⟨e, _, rfl, h₁⟩ | ⟨c₁, hc, h₁⟩
    · exact ih hr h₁
    · obtain ⟨c', hy, h'⟩ := ih ((Cursor.read_after hc).regular hr) h₁
      refine ⟨c', ?_, h'⟩
      rw [List.filter_cons_of_pos (Cursor.read_not_io hc)]
      exact .cons hc hy

theorem reading_depends_on_bytes {σ₁ σ₂ : Type} (hp : clp.PrefixStable) {b : List UInt8}
    {io₁ : IoReader σ₁ ε} {io₂ : IoReader σ₂ ε} {s₁ : σ₁} {s₂ : σ₂} {size₁ size₂ : ℕ}
    (hsize₁ : 0 < size₁) (hsize₂ : 0 < size₂) (hs₁ : io₁.Feeds s₁ b) (hs₂ : io₂.Feeds s₂ b)
    {fuel₁ fuel₂ : ℕ} {r₁ : Except (GoError ε) (Reader σ₁)} {r₂ : Except (GoError ε) (Reader σ₂)}
    (h₁ : newReaderSize clp json io₁ s₁ size₁ fuel₁ = some r₁)
    (h₂ : newReaderSize clp json io₂ s₂ size₂ fuel₂ = some r₂)
    (hio₁ : ∀ e, r₁ ≠ .error (.io e)) (hio₂ : ∀ e, r₂ ≠ .error (.io e)) :
    (∃ err, r₁ = .error err ∧ r₂ = .error err) ∨
      ∃ rd₁ rd₂, r₁ = .ok rd₁ ∧ r₂ = .ok rd₂ ∧ rd₁.deserializer = rd₂.deserializer ∧
        ∀ l₁ l₂ rd₁' rd₂', Reads clp io₁ rd₁ l₁ rd₁' → Reads clp io₂ rd₂ l₂ rd₂' →
          l₁.filter settled <+: l₂.filter settled ∨ l₂.filter settled <+: l₁.filter settled := by
  have hset := PrefixStable.preambleSettled json hp b
  have hb₁ := newReaderSize_built io₁.feeds_conserves hset hsize₁ hs₁ h₁
  have hb₂ := newReaderSize_built io₂.feeds_conserves hset hsize₂ hs₂ h₂
  cases hb₁ with
  | sourceFailed => exact absurd rfl (hio₁ _)
  | rejected ha₁ _ =>
    cases hb₂ with
    | sourceFailed => exact absurd rfl (hio₂ _)
    | rejected ha₂ _ =>
      rw [ha₁] at ha₂
      cases ha₂
      exact .inl ⟨_, rfl, rfl⟩
    | returned ha₂ _ _ =>
      rw [ha₁] at ha₂
      cases ha₂
  | @returned rd₁ d t₁ pos ha₁ hd₁ hh₁ =>
    cases hb₂ with
    | sourceFailed => exact absurd rfl (hio₂ _)
    | rejected ha₂ _ =>
      rw [ha₁] at ha₂
      cases ha₂
    | @returned rd₂ _ t₂ _ ha₂ hd₂ hh₂ =>
      rw [ha₁] at ha₂
      cases ha₂
      have ht : t₁ = t₂ := by
        have h := congrArg Deserializer.cptr (hd₁.symm.trans hd₂)
        simpa using h
      subst ht
      refine .inr ⟨rd₁, rd₂, rfl, rfl, ?_, ?_⟩
      · rw [hh₁.deserializer, hh₂.deserializer]
      · intro l₁ l₂ rd₁' rd₂' hl₁ hl₂
        have hr := (itemDecoder_prefixStable hp d.encoding).regular (b.drop pos)
        obtain ⟨_, hy₁, _⟩ := reads_refine io₁.feeds_conserves hr hh₁ hl₁
        obtain ⟨_, hy₂, _⟩ := reads_refine io₂.feeds_conserves hr hh₂ hl₂
        exact hy₁.comparable hy₂

theorem plain_injective : Function.Injective (plain (ε := ε)) := by
  intro res res' h
  cases res <;> cases res' <;> simp_all [plain, Except.map]

theorem reads_of_execAll {fuel : ℕ} {rd rd' : Reader σ} {l : ReadResults ε}
    (h : execAll clp io fuel rd (List.replicate l.length .read) = some (rd', l.map plain)) :
    Reads clp io rd l rd' := by
  induction l generalizing rd with
  | nil =>
    cases h
    exact .nil
  | cons res l ih =>
    simp only [List.length_cons, List.replicate_succ, List.map_cons, execAll, ReaderOp.exec] at h
    split at h
    · cases h
    · rename_i rd₁ result hop
      obtain ⟨⟨_, res₁⟩, hread, heq⟩ := Option.map_eq_some_iff.mp hop
      obtain ⟨⟨_, rest⟩, hrest, hcons⟩ := Option.map_eq_some_iff.mp h
      cases heq
      simp only [Prod.map_apply, id, Prod.mk.injEq, List.cons.injEq] at hcons
      obtain ⟨rfl, hplain, rfl⟩ := hcons
      cases plain_injective hplain
      exact .cons hread (ih hrest)

open SampleCodec IoReader in
theorem chunked_readings_agree : ∃ rd₁ rd₂ rd₁' rd₂',
    newReaderSize readApi jsonApi source
      (bytewise (stream .eightByte (ascii "UTC") 0 [(ascii "a", 5)])) 1 256 = some (.ok rd₁) ∧
    newReaderSize readApi jsonApi source
      [stream .eightByte (ascii "UTC") 0 [(ascii "a", 5)]] 256 256 = some (.ok rd₂) ∧
    Reads readApi source rd₁ [.ok ⟨ascii "a", 5⟩, .error (.ir .endOfIr)] rd₁' ∧
    Reads readApi source rd₂ [.ok ⟨ascii "a", 5⟩, .error (.ir .endOfIr)] rd₂' ∧
    ∀ l₁ l₂ rd₁' rd₂', Reads readApi source rd₁ l₁ rd₁' → Reads readApi source rd₂ l₂ rd₂' →
      l₁.filter settled <+: l₂.filter settled ∨ l₂.filter settled <+: l₁.filter settled := by
  have hrun₁ : replay (bytewise (stream .eightByte (ascii "UTC") 0 [(ascii "a", 5)])) 1 256
      [.read, .read] = some [.ok (⟨ascii "a", 5⟩, none), .error (.ir .endOfIr)] := by
    decide +kernel
  have hrun₂ : replay [stream .eightByte (ascii "UTC") 0 [(ascii "a", 5)]] 256 256
      [.read, .read] = some [.ok (⟨ascii "a", 5⟩, none), .error (.ir .endOfIr)] := by
    decide +kernel
  obtain ⟨rd₁, rd₁', hnew₁, hexec₁⟩ := replay_eq hrun₁
  obtain ⟨rd₂, rd₂', hnew₂, hexec₂⟩ := replay_eq hrun₂
  have hs₁ : source.Feeds (bytewise (stream .eightByte (ascii "UTC") 0 [(ascii "a", 5)])) _ :=
    (bytewise_delivers NoError _).feeds
  have hs₂ : source.Feeds [stream .eightByte (ascii "UTC") 0 [(ascii "a", 5)]] _ :=
    (chunked_delivers NoError _).feeds
  rw [List.flatten_singleton] at hs₂
  rcases reading_depends_on_bytes readApi_prefixStable Nat.one_pos (by decide) hs₁ hs₂ hnew₁ hnew₂
      (by simp) (by simp) with ⟨_, hr, _⟩ | ⟨_, _, hr₁, hr₂, _, hreads⟩
  · cases hr
  · cases hr₁
    cases hr₂
    exact ⟨rd₁, rd₂, rd₁', rd₂', hnew₁, hnew₂, reads_of_execAll hexec₁, reads_of_execAll hexec₂,
      hreads⟩

end ClpFfiGo
