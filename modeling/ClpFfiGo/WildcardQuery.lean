import ClpFfiGo.Clp
import Mathlib.Tactic.Common

namespace ClpFfiGo

structure WildcardQuery where
  query : GoString
  caseSensitive : Bool
  deriving DecidableEq

structure MergedWildcardQuery where
  queries : GoString
  endOffsets : List ℕ
  caseSensitivity : List Bool

def mergeWildcardQueries (queries : List WildcardQuery) : MergedWildcardQuery where
  queries := (queries.map WildcardQuery.query).flatten
  endOffsets := queries.map (fun q => q.query.length)
  caseSensitivity := queries.map WildcardQuery.caseSensitive

namespace Native

structure MergedWildcardQueryView where
  queries : GoString
  endOffsets : List ℕ
  caseSensitivity : List Bool

-- The C++ loop over the end offsets; `none` is an exception thrown by `substr`, or a read
-- past the end of the case sensitivity span.
def splitQueries (queryView : GoString) : ℕ → List ℕ → List Bool → Option (List (GoString × Bool))
  | _, [], _ => some []
  | _, _ :: _, [] => none
  | pos, off :: offs, cs :: css =>
    if pos ≤ queryView.length then
      (splitQueries queryView (pos + off) offs css).map
        (((queryView.drop pos).take off, cs) :: ·)
    else none

def queryFn (clp : IrReadApi) (queries : List (GoString × Bool)) (logMessage : GoString) :
    Option ℕ :=
  if queries = [] then some 0
  else queries.findIdx? (fun q => clp.wildcardMatchUnsafe logMessage q.1 q.2)

end Native

def newMergedWildcardQueryView (mergedQuery : MergedWildcardQuery) :
    Native.MergedWildcardQueryView where
  queries := mergedQuery.queries
  endOffsets := mergedQuery.endOffsets
  caseSensitivity := mergedQuery.caseSensitivity

def WildcardQuery.pair (q : WildcardQuery) : GoString × Bool := (q.query, q.caseSensitive)

theorem splitQueries_merge (pre : GoString) (queries : List WildcardQuery) :
    Native.splitQueries (pre ++ (mergeWildcardQueries queries).queries) pre.length
      (mergeWildcardQueries queries).endOffsets (mergeWildcardQueries queries).caseSensitivity =
      some (queries.map WildcardQuery.pair) := by
  induction queries generalizing pre with
  | nil => rfl
  | cons q qs ih =>
    have hr := ih (pre ++ q.query)
    simp only [mergeWildcardQueries, List.length_append, List.append_assoc] at hr
    simp only [mergeWildcardQueries, List.map_cons, List.flatten_cons, Native.splitQueries]
    rw [if_pos (by simp), hr]
    simp [WildcardQuery.pair]

def matchingQuery (clp : IrReadApi) (queries : List WildcardQuery) (logMessage : GoString) :
    Option ℕ :=
  Native.queryFn clp (queries.map WildcardQuery.pair) logMessage

theorem splitQueries_view (queries : List WildcardQuery) :
    Native.splitQueries (newMergedWildcardQueryView (mergeWildcardQueries queries)).queries 0
      (newMergedWildcardQueryView (mergeWildcardQueries queries)).endOffsets
      (newMergedWildcardQueryView (mergeWildcardQueries queries)).caseSensitivity =
      some (queries.map WildcardQuery.pair) :=
  splitQueries_merge [] queries

end ClpFfiGo
