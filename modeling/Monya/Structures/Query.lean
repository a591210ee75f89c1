/-
  `ProximityQuery` (`structures/Query.hpp`): a query vector and, for each tree of the forest, the
  neighbours found so far.
-/
import Monya.Common.NNVector

namespace Monya.Structures

open Monya.Lib

structure ProximityQuery (α : Type) where
  /-- A `short`. -/
  k : Int
  qsample : List α
  ntree : Nat
  result : List (NNVector α)

namespace ProximityQuery

variable {α : Type}

/-- The constructor. `k` is converted to `sample_id_t`. -/
def new (dataMax : α) (qsample : List α) (k : Int) (ntree : Nat) : ProximityQuery α where
  k := k
  qsample := qsample
  ntree := ntree
  result := List.replicate ntree (NNVector.new dataMax (k % 2 ^ 32).toNat)

/-- `operator[]`. -/
def get (q : ProximityQuery α) (idx : Nat) : Except Fault α := (Buf.ofList q.qsample 0).get idx

def eval [LinearOrder α] (fuel : Nat) (q : ProximityQuery α) (id : Nat) (dist : α) (treeId : Nat) :
    Except Fault (ProximityQuery α) :=
  match q.result[treeId]? with
  | none => .error .outOfBounds
  | some v => do
      let v ← v.eval fuel ⟨sampleId id, dist⟩
      return { q with result := q.result.set treeId v }

/-- The entries `es` have been offered to the vector of tree `treeId`. -/
structure Seen [LinearOrder α] (q : ProximityQuery α) (treeId k : Nat) (es : List (IndexVal α)) :
    Prop where
  vector : ∃ v, q.result[treeId]? = some v ∧ v.k = k ∧ v.Evaluated es

variable [LinearOrder α] {q : ProximityQuery α} {treeId k : Nat} {es : List (IndexVal α)}

theorem seen_new (dataMax : α) (qsample : List α) {ntree : Nat} (hk : k < 2 ^ 32)
    (ht : treeId < ntree) : Seen (new dataMax qsample k ntree) treeId k [] := by
  have hk' : ((k : Int) % 2 ^ 32).toNat = k := by omega
  refine ⟨NNVector.new dataMax k, ?_, rfl, NNVector.evaluated_new dataMax k⟩
  simp only [new, hk', List.getElem?_replicate, ht, if_true]

theorem Seen.eval (h : Seen q treeId k es) {id : Nat} (hid : id < 2 ^ 32) (dist : α) :
    ∃ q', Returns (fun fuel => q.eval fuel id dist treeId) q' ∧ q'.qsample = q.qsample ∧
      Seen q' treeId k (es ++ [⟨id, dist⟩]) := by
  obtain ⟨v, hv, hk, he⟩ := h.vector
  obtain ⟨v', hret, hk', he'⟩ := he.eval ⟨id, dist⟩
  have hlt := (List.getElem?_eq_some_iff.mp hv).1
  refine ⟨{ q with result := q.result.set treeId v' }, ?_, rfl, v', ?_, hk'.trans hk, he'⟩
  · refine (hret.bind (g := fun _ v => .ok { q with result := q.result.set treeId v })
      (.pure _)).of_eq fun fuel => ?_
    simp only [ProximityQuery.eval, hv, sampleId_of_lt hid]
    rfl
  · simp [hlt]

end ProximityQuery

end Monya.Structures
