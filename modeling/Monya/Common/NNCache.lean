/-
  The cache of `NNVector::operator[]` (`common/NNVector.hpp`) over histories of calls.

  `entries k calls` is the list that a history of calls leaves, without any nodes: `eval` puts an
  entry in its place and cuts the list at `k`, `pop_back` drops the last one. A call of `eval` or
  `pop_back` leaves the cache cold, an access leaves it at its own node, and an access never changes
  the list, so the vector stays `Accessible` (`performAll_returns`). `cache_transparent` is what
  follows for the accesses of a history.
-/
import Monya.Common.NNAccess

namespace Monya.NNVector

open Monya.Lib Monya.Lib.Ring

inductive Call (α : Type) where
  | eval (iv : IndexVal α)
  | popBack
  /-- `operator[]`. -/
  | get (index : Nat)

section Source

variable {α : Type}

/-- The entry that is `index + 1` links from the sentinel. -/
def walkTo (v : NNVector α) (index : Nat) : Except Fault (IndexVal α) := do
  let curr ← target (← advance v.heap (index + 1) (some v.sentinel))
  return (← v.heap.read curr).data

variable [LinearOrder α]

def perform (fuel : Nat) (v : NNVector α) : Call α → Except Fault (NNVector α)
  | .eval iv => v.eval fuel iv
  | .popBack => v.popBack
  | .get index => do return (← v.get index).2

def performAll (fuel : Nat) (v : NNVector α) (calls : List (Call α)) : Except Fault (NNVector α) :=
  calls.foldlM (perform fuel) v

/-- What a call does to the list of entries. -/
def Call.apply (k : Nat) (xs : List (IndexVal α)) : Call α → List (IndexVal α)
  | .eval iv => (insertSorted IndexVal.val iv xs).take k
  | .popBack => xs.dropLast
  | .get _ => xs

/-- The list of entries after a history of calls. -/
def entries (k : Nat) (calls : List (Call α)) : List (IndexVal α) := calls.foldl (Call.apply k) []

end Source

variable {α : Type}

/-! ## One call -/

theorem Accessible.holds {v : NNVector α} {as : List Nat} {xs : List (IndexVal α)}
    (h : Accessible v as xs) : Holds v xs := ⟨⟨as, h.ring, h.data⟩, h.size⟩

theorem Accessible.walkTo_ok {v : NNVector α} {as : List Nat} {xs : List (IndexVal α)}
    (h : Accessible v as xs) {i : Nat} {x : IndexVal α} (hx : xs[i]? = some x) :
    v.walkTo i = .ok x := by
  have hi : i < as.length := by
    rw [h.length_eq]
    exact (List.getElem?_eq_some_iff.mp hx).1
  have hadv := h.ring.advance_ok (i := 0) (n := i + 1) (by omega)
  rw [Nat.zero_add, List.getElem?_cons_succ, List.getElem?_cons_zero,
    List.getElem?_eq_getElem hi] at hadv
  obtain ⟨l, hl, hlx⟩ := read_data (h.data_get (List.getElem?_eq_getElem hi) hx)
  unfold walkTo
  rw [hadv, ok_bind, target_some, ok_bind, hl, ok_bind, hlx]
  rfl

theorem Accessible.popBack {v : NNVector α} {as : List Nat} {xs : List (IndexVal α)}
    (h : Accessible v as xs) :
    ∃ v' as', v.popBack = .ok v' ∧ v'.k = v.k ∧ Accessible v' as' xs.dropLast := by
  rcases List.eq_nil_or_concat xs with rfl | ⟨ys, y, rfl⟩
  · -- an empty vector stays as it is
    refine ⟨v, as, ?_, rfl, h⟩
    have hsize : v.size = 0 := h.size
    unfold NNVector.popBack
    rw [if_pos hsize]
    rfl
  · rw [List.concat_eq_append] at h ⊢
    obtain ⟨v', hpop, hv', hk, hcold⟩ := popBack_ok h.holds
    obtain ⟨as', h'⟩ := hv'.accessible hcold
    rw [List.dropLast_concat]
    exact ⟨v', as', hpop, hk, h'⟩

variable [LinearOrder α]

theorem Accessible.eval {v : NNVector α} {as : List Nat} {xs : List (IndexVal α)}
    (h : Accessible v as xs) (hle : xs.length ≤ v.k) (iv : IndexVal α) :
    ∃ v' as', Returns (fun fuel => v.eval fuel iv) v' ∧ v'.k = v.k ∧
      Accessible v' as' ((insertSorted IndexVal.val iv xs).take v.k) := by
  obtain ⟨v', hret, hk, hv'⟩ := eval_returns iv h.holds hle
  obtain ⟨N, hN⟩ := id hret
  obtain ⟨as', h'⟩ := hv'.accessible (eval_cache (hN N (le_refl N)))
  exact ⟨v', as', hret, hk, h'⟩

/-- Every call keeps the vector accessible; an index has to be in range. -/
theorem Accessible.perform {v : NNVector α} {as : List Nat} {xs : List (IndexVal α)}
    (h : Accessible v as xs) (hle : xs.length ≤ v.k) (call : Call α)
    (hin : ∀ i, call = .get i → i < v.size) :
    ∃ v' as', Returns (fun fuel => perform fuel v call) v' ∧ v'.k = v.k ∧
      Accessible v' as' (call.apply v.k xs) := by
  cases call with
  | eval iv => exact h.eval hle iv
  | popBack =>
    obtain ⟨v', as', hpop, hk, h'⟩ := h.popBack
    exact ⟨v', as', ⟨0, fun _ _ => hpop⟩, hk, h'⟩
  | get i =>
    have hi : i < xs.length := h.size ▸ hin i rfl
    obtain ⟨v', hget, h'⟩ := h.get_ok (List.getElem?_eq_getElem hi)
    refine ⟨v', as, ⟨0, fun _ _ => ?_⟩, ?_, h'⟩
    · simp only [NNVector.perform, hget, ok_bind, pure_ok]
    · exact get_k hget

/-! ## Histories -/

theorem length_apply_le {k : Nat} {xs : List (IndexVal α)} (h : xs.length ≤ k) (call : Call α) :
    (call.apply k xs).length ≤ k := by
  cases call with
  | eval iv => exact List.length_take_le _ _
  | popBack =>
    change xs.dropLast.length ≤ k
    rw [List.length_dropLast]
    omega
  | get i => exact h

theorem length_entries_le (k : Nat) (calls : List (Call α)) : (entries k calls).length ≤ k := by
  induction calls using List.reverseRecOn with
  | nil => exact Nat.zero_le k
  | append_singleton pre call ih =>
    rw [entries, List.foldl_append]
    exact length_apply_le ih call

/-- Every index is below the size that the vector has at that moment. -/
def InRange (dataMax : α) (k : Nat) (calls : List (Call α)) : Prop :=
  ∀ pre i post v, calls = pre ++ .get i :: post →
    Returns (fun fuel => performAll fuel (new dataMax k) pre) v → i < v.size

theorem InRange.left {dataMax : α} {k : Nat} {pre post : List (Call α)}
    (h : InRange dataMax k (pre ++ post)) : InRange dataMax k pre := by
  intro pre' i post' v hpre hv
  exact h pre' i (post' ++ post) v (by rw [hpre]; simp) hv

theorem performAll_returns {dataMax : α} {k : Nat} {calls : List (Call α)}
    (hin : InRange dataMax k calls) :
    ∃ v as, Returns (fun fuel => performAll fuel (new dataMax k) calls) v ∧ v.k = k ∧
      Accessible v as (entries k calls) := by
  induction calls using List.reverseRecOn with
  | nil =>
    obtain ⟨as, h⟩ := (holds_new dataMax k).accessible rfl
    exact ⟨_, as, .pure _, rfl, h⟩
  | append_singleton pre call ih =>
    obtain ⟨v, as, hret, hk, h⟩ := ih hin.left
    obtain ⟨v', as', hcall, hk', h'⟩ := h.perform (hk ▸ length_entries_le k pre) call
      fun i hi => hin pre i [] v (by rw [hi]) hret
    have hboth := hret.bind (g := fun fuel v => perform fuel v call) hcall
    refine ⟨v', as', hboth.of_eq fun fuel => ?_, hk'.trans hk, ?_⟩
    · unfold performAll
      simp only [List.foldlM_append, List.foldlM_cons, List.foldlM_nil, bind_pure]
    · rw [hk] at h'
      rwa [entries, List.foldl_append]

/-- It is enough to look at the lists. -/
theorem inRange_of_entries (dataMax : α) {k : Nat} {calls : List (Call α)}
    (h : ∀ pre i post, calls = pre ++ .get i :: post → i < (entries k pre).length) :
    InRange dataMax k calls := by
  induction calls using List.reverseRecOn with
  | nil =>
    intro pre i post v hcalls
    simp at hcalls
  | append_singleton cs call ih =>
    have hcs : InRange dataMax k cs := ih fun pre i post hpre =>
      h pre i (post ++ [call]) (by rw [hpre]; simp)
    intro pre i post v hcalls hv
    rcases List.eq_nil_or_concat post with rfl | ⟨post', c, rfl⟩
    · obtain ⟨rfl, -⟩ := List.append_inj' hcalls rfl
      obtain ⟨u, as, hu, -, hacc⟩ := performAll_returns hcs
      rw [hv.unique hu, hacc.size]
      exact h cs i [] hcalls
    · have hsplit : cs ++ [call] = (pre ++ .get i :: post') ++ [c] := by simpa using hcalls
      exact hcs pre i post' v (List.append_inj' hsplit rfl).1 hv

/-- Any history of `eval`, `pop_back` and `operator[]` with indexes in range returns, and each
    access in it returns the entry that stands at its index at that moment, which is also what
    following the links from the sentinel comes to. -/
theorem cache_transparent (dataMax : α) (k : Nat) (calls : List (Call α))
    (hin : InRange dataMax k calls) :
    (∃ v, Returns (fun fuel => performAll fuel (new dataMax k) calls) v) ∧
    ∀ pre i post, calls = pre ++ .get i :: post →
      ∃ v x v', Returns (fun fuel => performAll fuel (new dataMax k) pre) v ∧
        Returns (walk v.heap v.sentinel Link.next) (entries k pre) ∧
        (entries k pre)[i]? = some x ∧ v.walkTo i = .ok x ∧ v.get i = .ok (x, v') := by
  obtain ⟨v, as, hret, -⟩ := performAll_returns hin
  refine ⟨⟨v, hret⟩, fun pre i post hcalls => ?_⟩
  obtain ⟨u, as', hu, -, h⟩ := performAll_returns (hcalls ▸ hin).left
  have hi : i < (entries k pre).length := h.size ▸ hin pre i post u hcalls hu
  have hx := List.getElem?_eq_getElem hi
  obtain ⟨u', hget, -⟩ := h.get_ok hx
  exact ⟨u, _, u', hu, h.holds.walk_next, hx, h.walkTo_ok hx, hget⟩

/-- Room for two: an access, a new entry that pushes one out, and an access from the cache. -/
theorem cache_transparent_mixed :
    ∃ v x v', Returns (fun fuel => performAll fuel (new 9 2)
        [.eval ⟨0, 4⟩, .eval ⟨1, 2⟩, .get 0, .eval ⟨2, 3⟩, .get 0]) v ∧
      v.walkTo 1 = .ok x ∧ v.get 1 = .ok (x, v') := by
  let pre : List (Call Nat) := [.eval ⟨0, 4⟩, .eval ⟨1, 2⟩, .get 0, .eval ⟨2, 3⟩, .get 0]
  have hin : InRange 9 2 (pre ++ [.get 1]) := by
    refine inRange_of_entries 9 fun pre' i post h => ?_
    rcases pre' with _ | ⟨a, _ | ⟨b, _ | ⟨c, _ | ⟨d, _ | ⟨e, _ | ⟨f, pre'⟩⟩⟩⟩⟩⟩ <;> simp [pre] at h
    · obtain ⟨rfl, rfl, rfl, -⟩ := h
      decide
    · obtain ⟨rfl, rfl, rfl, rfl, rfl, -⟩ := h
      decide
    · obtain ⟨rfl, rfl, rfl, rfl, rfl, rfl, -⟩ := h
      decide
  obtain ⟨v, x, v', hv, -, -, hwalk, hget⟩ :=
    (cache_transparent 9 2 (pre ++ [.get 1]) hin).2 pre 1 []
    rfl
  exact ⟨v, x, v', hv, hwalk, hget⟩

end Monya.NNVector
