/-
  `Metric` (`common/Metric.hpp`): how many of the exact neighbours an approximate answer has, for
  two `IndexVector`s and for two `NNVector`s.

  The two overloads differ in how they look an entry up. `IndexVector::find` is a binary search;
  `NNVector::find` never leaves the first node, and `to_IndexVector`, which would take the one to
  the other, does not end on a list that is not empty. So the overloads can be compared only where
  there is nothing to compare (`overloads_agree_iff`).
-/
import Monya.Common.NNAccess

namespace Monya

open Monya.Lib Monya.Lib.Ring

namespace Metric

variable {α : Type} [LinearOrder α]

section Source

variable [NatCast α] [Div α] [Zero α]

/-- `std::accumulate` over the bitmap; it starts at 0, an `int`, and adds in `int`. -/
def accumulate (found : List Bool) : Except Fault Nat :=
  if found.count true < 2 ^ 31 then .ok (found.count true) else .error .overflow

/-- The end of both overloads, once `matches` is filled. The casts and the division are those of
    `data_t`: for a floating-point type they round (`DataT` in `Accuracy`). -/
def ratio (found : List Bool) : Except Fault α := do
  let matchCount ← accumulate found
  return if matchCount ≠ 0 then (matchCount : α) / (found.length : α) else 0

/-- One pass of the loop over two `IndexVector`s; `find` may sort `approx`. -/
def matchIndex (sorter : Sorter α) (exact : IndexVector α) (s : List Bool × IndexVector α)
    (i : Nat) : Except Fault (List Bool × IndexVector α) := do
  let e ← exact.get i
  let (b, approx) := s.2.find sorter e
  return (s.1 ++ [b], approx)

/-- `get_raw_accuracy(IndexVector&, IndexVector&)`. -/
def getRawAccuracy (sorter : Sorter α) (approx exact : IndexVector α) : Except Fault α :=
  if approx.size ≠ exact.size then .error .assertion
  else do
    let s ← (List.range approx.size).foldlM (matchIndex sorter exact) ([], approx)
    ratio s.1

/-- One pass of the loop over two `NNVector`s; `exact[i]` moves the cache of `exact`. -/
def matchNN (fuel : Nat) (approx : NNVector α) (s : List Bool × NNVector α) (i : Nat) :
    Except Fault (List Bool × NNVector α) := do
  let (e, exact) ← s.2.get i
  let b ← approx.find fuel e
  return (s.1 ++ [b], exact)

/-- `get_raw_accuracy(NNVector&, NNVector&)`. -/
def getRawAccuracyNN (fuel : Nat) (approx exact : NNVector α) : Except Fault α :=
  if approx.size ≠ exact.size then .error .assertion
  else do
    let s ← (List.range approx.size).foldlM (matchNN fuel approx) ([], exact)
    ratio s.1

end Source

/-- `find` and `to_IndexVector` come to an end on `v` and say what its entries `xs` are. -/
structure Readable (v : NNVector α) (xs : List (IndexVal α)) : Prop where
  find : ∀ iv, ∃ b, Returns (fun fuel => v.find fuel iv) b ∧
    (b = true ↔ ∃ x ∈ xs, x.val = iv.val)
  list : ∃ iv, Returns (fun fuel => v.toIndexVector fuel) iv ∧ iv.items = xs

/-- The two overloads return the same, the one on `u` and `w`, the other on their lists. -/
def SameAccuracy [NatCast α] [Div α] [Zero α] (sorter : Sorter α) (u w : NNVector α) : Prop :=
  ∃ a b r, Returns (fun fuel => u.toIndexVector fuel) a ∧
    Returns (fun fuel => w.toIndexVector fuel) b ∧
    Returns (fun fuel => getRawAccuracyNN fuel u w) r ∧ getRawAccuracy sorter a b = .ok r

variable {u w : NNVector α} {as as' : List Nat}

theorem readable_nil (h : u.Accessible as []) : Readable u [] := by
  refine ⟨fun iv => ⟨false, h.find_nil iv, ?_⟩, .new, h.toIndexVector_nil, rfl⟩
  simp

theorem not_readable_cons {x : IndexVal α} {xs : List (IndexVal α)}
    (h : u.Accessible as (x :: xs)) : ¬ Readable u (x :: xs) := by
  rintro ⟨-, iv, hret, -⟩
  exact not_returns_of_outOfFuel h.toIndexVector_cons iv hret

theorem sameAccuracy_nil [NatCast α] [Div α] [Zero α] (sorter : Sorter α)
    (hu : u.Accessible as []) (hw : w.Accessible as' []) : SameAccuracy sorter u w := by
  have hsize : u.size = 0 := hu.size
  have hsize' : w.size = 0 := hw.size
  refine ⟨.new, .new, 0, hu.toIndexVector_nil, hw.toIndexVector_nil, ⟨0, fun fuel _ => ?_⟩,
    rfl⟩
  unfold getRawAccuracyNN
  rw [hsize, hsize']
  rfl

/-- For two vectors of equal size that calls of `eval` have filled, `find`, `to_IndexVector` and the
    two overloads behave as they should exactly if the vectors are empty. -/
theorem overloads_agree_iff [NatCast α] [Div α] [Zero α] (sorter : Sorter α) (dataMax : α)
    {k k' : Nat} {es es' : List (IndexVal α)}
    (hsize : min k es.length = min k' es'.length) :
    ∃ u w, Returns (fun fuel => NNVector.evalAll fuel (.new dataMax k) es) u ∧
      Returns (fun fuel => NNVector.evalAll fuel (.new dataMax k') es') w ∧ u.size = w.size ∧
      ((Readable u ((stableSort IndexVal.val es).take k) ∧
          Readable w ((stableSort IndexVal.val es').take k') ∧ SameAccuracy sorter u w) ↔
        k = 0 ∨ es = []) := by
  obtain ⟨u, hu, rfl, heu, hcu⟩ := NNVector.evalAll_returns dataMax k es
  obtain ⟨w, hw, rfl, hew, hcw⟩ := NNVector.evalAll_returns dataMax k' es'
  obtain ⟨as, hau⟩ := heu.accessible hcu
  obtain ⟨as', haw⟩ := hew.accessible hcw
  have hsize' : u.size = w.size := by rw [heu.size_eq, hew.size_eq, hsize]
  refine ⟨u, w, hu, hw, hsize', ?_⟩
  have hempty : u.k = 0 ∨ es = [] ↔ u.size = 0 := by
    rw [heu.size_eq, ← List.length_eq_zero_iff]
    omega
  rw [hempty]
  constructor
  · rintro ⟨hread, -, -⟩
    rw [hau.size]
    cases hxs : (stableSort IndexVal.val es).take u.k with
    | nil => rfl
    | cons x xs =>
      rw [hxs] at hau hread
      exact absurd hread (not_readable_cons hau)
  · intro h0
    have hxs := List.length_eq_zero_iff.mp (hau.size.symm.trans h0)
    have hys := List.length_eq_zero_iff.mp (haw.size.symm.trans (hsize'.symm.trans h0))
    rw [hxs] at hau ⊢
    rw [hys] at haw ⊢
    exact ⟨readable_nil hau, readable_nil haw, sameAccuracy_nil sorter hau haw⟩

theorem overloads_agree_zero :
    ∃ u w, Returns (fun fuel => NNVector.evalAll fuel (.new 9 0) [⟨0, 4⟩]) u ∧
      Returns (fun fuel => NNVector.evalAll fuel (.new 9 3) ([] : List (IndexVal Nat))) w ∧
      Readable u [] ∧ Readable w [] ∧ SameAccuracy stableSorter u w := by
  have hsize : min 0 [(⟨0, 4⟩ : IndexVal Nat)].length =
      min 3 ([] : List (IndexVal Nat)).length := rfl
  obtain ⟨u, w, hu, hw, -, hiff⟩ := overloads_agree_iff stableSorter 9 hsize
  obtain ⟨hru, hrw, hsame⟩ := hiff.mpr (Or.inl rfl)
  rw [List.take_zero] at hru
  rw [List.Perm.eq_nil (stableSort_perm _ _), List.take_nil] at hrw
  exact ⟨u, w, hu, hw, hru, hrw, hsame⟩

theorem find_unmatched (sorter : Sorter α) {a e : IndexVal α} (hne : a.val ≠ e.val) :
    IndexVector.find sorter ⟨[a], false⟩ e = (false, ⟨[a], true⟩) := by
  have hsort : sorter.sort false 0 [a] = [a] := List.perm_singleton.mp (sorter.perm false 0 [a])
  have hsearch : IndexVector.binarySearch [a] e = false := by
    unfold IndexVector.binarySearch
    rcases lt_or_gt_of_ne hne with hlt | hgt
    · simp [hlt]
    · simp [hgt, not_lt_of_gt hgt]
  simp only [IndexVector.find, IndexVector.sort, Bool.false_eq_true, if_false, hsort, hsearch]

/-- Two vectors of one entry each that have no value in common. -/
theorem getRawAccuracy_unmatched [NatCast α] [Div α] [Zero α] (sorter : Sorter α)
    {a e : IndexVal α} (hne : a.val ≠ e.val) :
    getRawAccuracy sorter ⟨[a], false⟩ ⟨[e], false⟩ = .ok 0 := by
  have hget : IndexVector.get ⟨[e], false⟩ 0 = .ok e := IndexVector.get_ok (by decide) rfl
  have hsize : IndexVector.size ⟨[a], false⟩ = IndexVector.size ⟨[e], false⟩ := rfl
  rw [getRawAccuracy, if_neg (not_not.mpr hsize)]
  change ([0].foldlM (matchIndex sorter ⟨[e], false⟩) ([], ⟨[a], false⟩) >>= _) = _
  rw [List.foldlM_cons, matchIndex, hget, ok_bind, find_unmatched sorter hne]
  rfl

/-- One entry is enough for a search that does not end. -/
theorem endless_one :
    ∃ u w, Returns (fun fuel => NNVector.evalAll fuel (.new 9 1) [⟨0, 4⟩]) u ∧
      Returns (fun fuel => NNVector.evalAll fuel (.new 9 1) [⟨0, 5⟩]) w ∧ u.size = w.size ∧
      (∀ fuel, u.find fuel ⟨0, 5⟩ = .error .outOfFuel) ∧
      (∀ fuel, u.toIndexVector fuel = .error .outOfFuel) ∧
      (∀ fuel, getRawAccuracyNN fuel u w = .error .outOfFuel) ∧
      getRawAccuracy stableSorter ⟨[⟨0, 4⟩], false⟩ ⟨[⟨0, 5⟩], false⟩ = .ok 0 := by
  have hsort : ∀ x : IndexVal Nat, (stableSort IndexVal.val [x]).take 1 = [x] := fun x => by
    simp [stableSort]
  obtain ⟨u, hu, hku, heu, hcu⟩ := NNVector.evalAll_returns 9 1 [⟨0, 4⟩]
  obtain ⟨w, hw, hkw, hew, hcw⟩ := NNVector.evalAll_returns 9 1 [⟨0, 5⟩]
  obtain ⟨as, hau⟩ := heu.accessible hcu
  obtain ⟨as', haw⟩ := hew.accessible hcw
  rw [hku, hsort] at hau
  rw [hkw, hsort] at haw
  have hfind := (hau.find_cons ⟨0, 5⟩).2 (by decide)
  refine ⟨u, w, hu, hw, hau.size.trans haw.size.symm, hfind, hau.toIndexVector_cons,
    fun fuel => ?_, ?_⟩
  · obtain ⟨w', hget, -⟩ := haw.get_ok (i := 0) rfl
    have hstep : matchNN fuel u ([], w) 0 = .error .outOfFuel := by
      rw [matchNN, hget, ok_bind]
      dsimp only
      rw [hfind fuel, error_bind]
    have hu1 : u.size = 1 := hau.size
    have hw1 : w.size = 1 := haw.size
    rw [getRawAccuracyNN, hu1, hw1, if_neg (not_not.mpr rfl)]
    change ([0].foldlM (matchNN fuel u) ([], w) >>= _) = _
    rw [List.foldlM_cons, hstep, error_bind, error_bind]
  · exact getRawAccuracy_unmatched stableSorter (by decide)

end Metric

end Monya
