import ClpFfiGo.WildcardQuery

namespace ClpFfiGo

def WildcardQuery.matches (clp : IrReadApi) (logMessage : GoString) (q : WildcardQuery) : Bool :=
  clp.wildcardMatchUnsafe logMessage q.query q.caseSensitive

-- The positions that the splitting loop hands to `substr`, in order.
def Native.substrPositions : ℕ → List ℕ → List ℕ
  | _, [] => []
  | pos, off :: offs => pos :: substrPositions (pos + off) offs

theorem substrPositions_le {pos p : ℕ} {offs : List ℕ}
    (h : p ∈ Native.substrPositions pos offs) : p ≤ pos + offs.sum := by
  induction offs generalizing pos with
  | nil => cases h
  | cons off offs ih =>
    rw [Native.substrPositions, List.mem_cons] at h
    rw [List.sum_cons]
    rcases h with rfl | h
    · exact Nat.le_add_right _ _
    · have hp := ih h
      omega

def mergedView (queries : List WildcardQuery) : Native.MergedWildcardQueryView :=
  newMergedWildcardQueryView (mergeWildcardQueries queries)

theorem length_mergedView (queries : List WildcardQuery) :
    (mergedView queries).queries.length = (mergedView queries).endOffsets.sum := by
  simp only [mergedView, newMergedWildcardQueryView, mergeWildcardQueries, List.length_flatten,
    List.map_map]
  rfl

section searching

variable (clp : IrReadApi)

theorem matchingQuery_nil (logMessage : GoString) : matchingQuery clp [] logMessage = some 0 := rfl

theorem matchingQuery_of_ne_nil {queries : List WildcardQuery} (hne : queries ≠ [])
    (logMessage : GoString) : matchingQuery clp queries logMessage =
      queries.findIdx? (WildcardQuery.matches clp logMessage) := by
  have hmap : queries.map WildcardQuery.pair ≠ [] := by simpa using hne
  rw [matchingQuery, Native.queryFn, if_neg hmap, List.findIdx?_map]
  rfl

theorem matchingQuery_eq_some_iff (queries : List WildcardQuery) (logMessage : GoString) (i : ℕ) :
    matchingQuery clp queries logMessage = some i ↔ (queries = [] ∧ i = 0) ∨
      ∃ h : i < queries.length, queries[i].matches clp logMessage = true ∧
        ∀ j (hj : j < i), queries[j].matches clp logMessage = false := by
  by_cases hq : queries = []
  · subst hq
    rw [matchingQuery_nil, Option.some.injEq]
    constructor
    · rintro rfl
      exact .inl ⟨rfl, rfl⟩
    · rintro (⟨-, rfl⟩ | ⟨h, -⟩)
      · rfl
      · cases h
  · rw [matchingQuery_of_ne_nil clp hq, List.findIdx?_eq_some_iff_getElem]
    simp [hq]

theorem matchingQuery_eq_none_iff (queries : List WildcardQuery) (logMessage : GoString) :
    matchingQuery clp queries logMessage = none ↔
      queries ≠ [] ∧ ∀ q ∈ queries, q.matches clp logMessage = false := by
  by_cases hq : queries = []
  · subst hq
    simp [matchingQuery_nil]
  · rw [matchingQuery_of_ne_nil clp hq, List.findIdx?_eq_none_iff]
    simp [hq]

theorem merging_keeps_search (queries : List WildcardQuery) :
    (∀ pos ∈ Native.substrPositions 0 (mergedView queries).endOffsets,
      pos ≤ (mergedView queries).queries.length) ∧
    ∃ split, Native.splitQueries (mergedView queries).queries 0 (mergedView queries).endOffsets
        (mergedView queries).caseSensitivity = some split ∧
      split = queries.map WildcardQuery.pair ∧
      ∀ logMessage,
        (∀ i, Native.queryFn clp split logMessage = some i ↔ (queries = [] ∧ i = 0) ∨
          ∃ h : i < queries.length, queries[i].matches clp logMessage = true ∧
            ∀ j (hj : j < i), queries[j].matches clp logMessage = false) ∧
        (Native.queryFn clp split logMessage = none ↔
          queries ≠ [] ∧ ∀ q ∈ queries, q.matches clp logMessage = false) := by
  refine ⟨?_, _, splitQueries_view queries, rfl, fun logMessage => ⟨?_, ?_⟩⟩
  · intro pos hpos
    have hle := substrPositions_le hpos
    rw [Nat.zero_add] at hle
    exact hle.trans (length_mergedView queries).ge
  · exact matchingQuery_eq_some_iff clp queries logMessage
  · exact matchingQuery_eq_none_iff clp queries logMessage

end searching

end ClpFfiGo
