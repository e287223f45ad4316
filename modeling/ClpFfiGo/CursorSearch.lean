import ClpFfiGo.Cursor

namespace ClpFfiGo

variable {σ ε : Type} {clp : IrReadApi} {io : IoReader σ ε} {src : σ → List UInt8 → Prop}

section scanning

variable {enc : Encoding} {iv : TimestampInterval} {query : GoString → Option ℕ}

def elapsed (enc : Encoding) (t : EpochTimeMs) (is : List Item) : EpochTimeMs :=
  is.foldl (fun t i => stamp enc t i.1.2) t

theorem scan_append_some (pos : ℕ) (t : EpochTimeMs) (is js : List Item)
    (h : (scan enc iv query pos t is).2 ≠ none) :
    scan enc iv query pos t (is ++ js) = scan enc iv query pos t is := by
  induction is generalizing pos t with
  | nil => simp [scan] at h
  | cons i is ih =>
    obtain ⟨⟨m, v⟩, n⟩ := i
    simp only [List.cons_append, scan] at h ⊢
    split
    · rfl
    · rename_i hu
      rw [if_neg hu] at h
      split
      · rename_i hl
        rw [if_pos hl] at h
        exact ih _ _ h
      · rename_i hl
        rw [if_neg hl] at h
        cases hq : query m with
        | none => rw [hq] at h; exact ih _ _ h
        | some k => rfl

theorem scan_append_none (pos : ℕ) (t : EpochTimeMs) (is js : List Item)
    (h : (scan enc iv query pos t is).2 = none) :
    scan enc iv query pos t (is ++ js) =
      scan enc iv query (pos + (is.map Prod.snd).sum) (elapsed enc t is) js := by
  induction is generalizing pos t with
  | nil => simp [elapsed]
  | cons i is ih =>
    obtain ⟨⟨m, v⟩, n⟩ := i
    simp only [List.cons_append, scan, List.map_cons, List.sum_cons, elapsed,
      List.foldl_cons, ← Nat.add_assoc] at h ⊢
    split
    · rename_i hu
      simp [hu] at h
    · rename_i hu
      rw [if_neg hu] at h
      split
      · rename_i hl
        rw [if_pos hl] at h
        exact ih _ _ h
      · rename_i hl
        rw [if_neg hl] at h
        cases hq : query m with
        | none => rw [hq] at h; exact ih _ _ h
        | some k => simp [hq] at h

theorem scan_none (pos : ℕ) (t : EpochTimeMs) (is : List Item)
    (h : (scan enc iv query pos t is).2 = none) :
    scan enc iv query pos t is = (elapsed enc t is, none) := by
  simpa [scan] using scan_append_none pos t is [] h

theorem scan_found {pos : ℕ} {t last : EpochTimeMs} {is : List Item} {event : LogEventView}
    {k p : ℕ} (h : scan enc iv query pos t is = (last, some (.found event k p))) :
    ∃ j ≤ is.length, p = pos + ((is.take j).map Prod.snd).sum := by
  induction is generalizing pos t with
  | nil => simp [scan] at h
  | cons i is ih =>
    obtain ⟨⟨m, v⟩, n⟩ := i
    have next : scan enc iv query (pos + n) (stamp enc t v) is = (last, some (.found event k p)) →
        ∃ j ≤ (((m, v), n) :: is).length,
          p = pos + (((((m, v), n) :: is).take j).map Prod.snd).sum := by
      intro h
      obtain ⟨j, hj, hp⟩ := ih h
      refine ⟨j + 1, by simpa using hj, ?_⟩
      rw [hp]
      simp [Nat.add_assoc]
    simp only [scan] at h
    split at h
    · cases h
    · split at h
      · exact next h
      · cases hq : query m with
        | none => rw [hq] at h; exact next h
        | some k' =>
          rw [hq] at h
          cases h
          exact ⟨1, by simp, by simp⟩

theorem elapsed_fourByte (t : EpochTimeMs) (is : List Item) :
    elapsed .fourByte t is = t + (is.map (fun i => i.1.2)).sum := by
  induction is generalizing t with
  | nil => simp [elapsed]
  | cons i is ih =>
    have := ih (t + i.1.2)
    simp only [elapsed, List.foldl_cons, stamp_fourByte, List.map_cons, List.sum_cons] at this ⊢
    rw [this, Int64.add_assoc]

end scanning

section searching

variable {iv : TimestampInterval} {query : GoString → Option ℕ} {d : Deserializer}
  {t : EpochTimeMs} {full u : List UInt8}

theorem searchAnswer_error {d' : Deserializer} {err : GoError ε}
    (h : searchAnswer clp iv query d t u = (d', .error err)) :
    d' = d.at (scan d.encoding iv query 0 t ((itemDecoder clp d.encoding).parse u).1).1 ∧
      (err.isIncomplete = true ↔
        ((itemDecoder clp d.encoding).parse u).2 = .incompleteIr ∧
        (scan d.encoding iv query 0 t ((itemDecoder clp d.encoding).parse u).1).2 = none) := by
  rw [searchAnswer] at h
  dsimp only at h
  split at h
  · rename_i hv
    cases h
    refine ⟨rfl, ?_⟩
    rw [hv]
    simp [GoError.isIncomplete, IRErrorCode.incomplete_iff]
  · rename_i hv
    cases h
    refine ⟨rfl, ?_⟩
    rw [hv]
    simp [GoError.isIncomplete, IrError.queryNotFound, IrError.incompleteIr]
  · cases h

theorem searchAnswer_ok {d' : Deserializer} {r : LogEventView × ℕ} {pos : ℕ}
    (h : searchAnswer (ε := ε) clp iv query d t u = (d', .ok (r, pos))) :
    ∃ last, scan d.encoding iv query 0 t ((itemDecoder clp d.encoding).parse u).1 =
      (last, some (.found r.1 r.2 pos)) ∧ d' = d.at last := by
  rw [searchAnswer] at h
  dsimp only at h
  split at h
  · cases h
  · cases h
  · rename_i event k p hv
    cases h
    exact ⟨_, Prod.ext rfl hv, rfl⟩

theorem searchAnswer_congr (hr : (itemDecoder clp d.encoding).Regular full) (hu : u <+: full)
    (h : ((itemDecoder clp d.encoding).parse u).2 ≠ .incompleteIr ∨
      (scan d.encoding iv query 0 t ((itemDecoder clp d.encoding).parse u).1).2 ≠ none) :
    searchAnswer (ε := ε) clp iv query d t u = searchAnswer clp iv query d t full := by
  obtain ⟨hpre, hfull⟩ := ItemDecoder.parse_prefix hr hu
  rcases h with h | h
  · unfold searchAnswer
    rw [hfull h]
  · obtain ⟨js, hjs⟩ := hpre
    have hscan := scan_append_some 0 t _ js h
    rw [hjs] at hscan
    unfold searchAnswer
    dsimp only
    rw [hscan]
    cases hv : (scan d.encoding iv query 0 t ((itemDecoder clp d.encoding).parse u).1).2 with
    | none => exact absurd hv h
    | some v => cases v <;> rfl

variable (iv) in
theorem search_settles (hpi : clp.PositionIndependent) (queries : List WildcardQuery)
    (hr : (itemDecoder clp d.encoding).Regular full) (P : EpochTimeMs → Prop) :
    Reader.Settles (ε := ε)
      (deserializeWildcardMatch clp (mergeWildcardQueries queries) iv) full
      (fun d' => ∃ t, P t ∧ d' = d.at t)
      (fun d' u => ∀ t, P t → d' = d.at t →
        ((itemDecoder clp d.encoding).parse u).2 = .incompleteIr →
        (scan d.encoding iv (matchingQuery clp queries) 0 t
          ((itemDecoder clp d.encoding).parse u).1).2 = none →
        P (elapsed d.encoding t ((itemDecoder clp d.encoding).parse u).1))
      (fun d' r => ∃ t, P t ∧
        searchAnswer clp iv (matchingQuery clp queries) d t full = (d', r)) := by
  refine ⟨?_, ?_, ?_⟩
  · rintro _ u d' err ⟨t, ht, rfl⟩ _ hg ha hm
    rw [deserializeWildcardMatch_at hpi] at ha
    obtain ⟨hd, hi⟩ := searchAnswer_error ha
    obtain ⟨htail, hnone⟩ := hi.mp hm
    refine ⟨_, hg t ht rfl htail hnone, ?_⟩
    rw [hd, scan_none _ _ _ hnone]
  · rintro _ u d' err ⟨t, ht, rfl⟩ hu _ ha hm
    rw [deserializeWildcardMatch_at hpi] at ha
    refine ⟨t, ht, ?_⟩
    rw [← searchAnswer_congr hr hu, ha]
    by_contra hc
    push Not at hc
    rw [(searchAnswer_error ha).2.mpr hc] at hm
    cases hm
  · rintro _ u d' event pos ⟨t, ht, rfl⟩ hu _ ha
    refine ⟨deserializeWildcardMatch_bounds ha, t, ht, ?_⟩
    rw [deserializeWildcardMatch_at hpi] at ha
    obtain ⟨last, hs, _⟩ := searchAnswer_ok ha
    rw [← searchAnswer_congr hr hu (.inr (by simp [hs])), ha]

theorem cursor_search_error {d' : Deserializer} {err : GoError ε} (hm : err.isIncomplete = false)
    (h : searchAnswer clp iv query d t full = (d', .error err)) :
    ∃ t', d' = d.at t' ∧
      Cursor.search clp d.encoding iv query ⟨t, full⟩ = some (⟨t', full⟩, .error err) := by
  obtain ⟨hd, hi⟩ := searchAnswer_error h
  refine ⟨_, hd, ?_⟩
  rw [searchAnswer] at h
  rw [Cursor.search]
  dsimp only at h ⊢
  rcases hs : scan d.encoding iv query 0 t ((itemDecoder clp d.encoding).parse full).1 with
    ⟨last, _ | v⟩
  · rw [hs] at h hi
    cases h
    cases ht : ((itemDecoder clp d.encoding).parse full).2 with
    | incompleteIr => exact absurd (hi.mpr ⟨ht, rfl⟩) (by simp [hm])
    | decodeError => rfl
    | eof => rfl
    | corruptedIr => rfl
  · rw [hs] at h
    cases v with
    | reached => cases h; rfl
    | found event k pos => cases h

theorem cursor_search_ok {d' : Deserializer} {r : LogEventView × ℕ} {pos : ℕ}
    (h : searchAnswer (ε := ε) clp iv query d t full = (d', .ok (r, pos))) :
    ∃ t', d' = d.at t' ∧ Cursor.search (ε := ε) clp d.encoding iv query ⟨t, full⟩ =
      some (⟨t', full.drop pos⟩, .ok r) := by
  obtain ⟨last, hs, hd⟩ := searchAnswer_ok h
  refine ⟨last, hd, ?_⟩
  rw [Cursor.search]
  dsimp only
  rw [hs]

theorem search_after {enc : Encoding} {c c' : Cursor} {res : Except (GoError ε) (LogEventView × ℕ)}
    (h : Cursor.search clp enc iv query c = some (c', res)) :
    (itemDecoder clp enc).After c.bytes c'.bytes := by
  rw [Cursor.search] at h
  split at h
  · rename_i hs
    cases h
    obtain ⟨j, hj, rfl⟩ := scan_found hs
    rw [Nat.zero_add]
    exact ItemDecoder.after_items _ j hj
  · cases h
    exact .refl
  · cases h
  · cases h
    exact .refl

theorem search_refines (hsrc : io.Conserves src) (hpi : clp.PositionIndependent)
    (queries : List WildcardQuery) (P : EpochTimeMs → Prop) {rd rd' : Reader σ}
    {res : Except (GoError ε) (LogEventView × ℕ)}
    (hr : (itemDecoder clp d.encoding).Regular full) (ht : P t)
    (h : rd.Holds src d ⟨t, full⟩)
    (hg : ∀ rd', Loop.Turns (Reader.searchTurn clp io queries iv) rd rd' →
      ∀ t, P t → rd'.deserializer = d.at t →
      ((itemDecoder clp d.encoding).parse rd'.unread).2 = .incompleteIr →
      (scan d.encoding iv (matchingQuery clp queries) 0 t
        ((itemDecoder clp d.encoding).parse rd'.unread).1).2 = none →
      P (elapsed d.encoding t ((itemDecoder clp d.encoding).parse rd'.unread).1))
    (he : Loop.Ends (Reader.searchTurn clp io queries iv) rd (rd', res)) :
    (∃ e t, io.Fails src e ∧ P t ∧ res = .error (.io e) ∧ rd'.Holds src d ⟨t, full⟩) ∨
      ∃ t c', P t ∧ Cursor.search clp d.encoding iv (matchingQuery clp queries) ⟨t, full⟩ =
        some (c', res) ∧ rd'.Holds src d c' := by
  have ho := Reader.loop_outcome hsrc (search_settles (ε := ε) iv hpi queries hr P) h.buffered
    ⟨t, ht, h.deserializer⟩ hg he
  cases ho with
  | sourceFailed hf hb hd =>
    obtain ⟨t, ht, hd⟩ := hd
    exact .inl ⟨_, t, hf, ht, rfl, hb, hd⟩
  | rejected hb hm hp =>
    obtain ⟨t, ht, ha⟩ := hp
    obtain ⟨t', hd, hc⟩ := cursor_search_error hm ha
    exact .inr ⟨t, _, ht, hc, hb, hd⟩
  | returned hb hp =>
    obtain ⟨t, ht, ha⟩ := hp
    obtain ⟨t', hd, hc⟩ := cursor_search_ok ha
    exact .inr ⟨t, _, ht, hc, hb, hd⟩

variable (iv) in
theorem search_ends {allowed : ε → Prop} (hpi : clp.PositionIndependent)
    (queries : List WildcardQuery) {c : Cursor} {rd : Reader σ}
    (hne : ((itemDecoder clp d.encoding).parse c.bytes).2 ≠ .incompleteIr)
    (h : rd.Holds (io.Delivers allowed) d c) :
    ∃ r, Loop.Ends (Reader.searchTurn clp io queries iv) rd r := by
  refine Reader.loop_ends (I := fun d' => ∃ t, d' = d.at t) ?_ ?_ ⟨_, h.deserializer⟩ h.buffered
  · rintro _ u d' err ⟨t, rfl⟩ _ ha _
    rw [deserializeWildcardMatch_at hpi] at ha
    exact ⟨_, (searchAnswer_error ha).1⟩
  · rintro _ d' err ⟨t, rfl⟩ ha
    rw [deserializeWildcardMatch_at hpi] at ha
    cases hm : err.isIncomplete with
    | false => rfl
    | true => exact absurd ((searchAnswer_error ha).2.mp hm).1 hne

end searching

end ClpFfiGo
