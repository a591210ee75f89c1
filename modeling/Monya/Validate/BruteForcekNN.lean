/-
  `BruteForcekNN` (`validate/BruteForcekNN.hpp`): the oracle that the query is compared with.

  `get_nn` appends the first `k` distances as they come and sorts them when row `k` arrives; from
  then on it inserts into the vector, which grows, and looks at its first `k` places only. Up to
  row `k` the vector is the history (`gather_rows`), after it its first `k` values are those of the
  sorted history (`Kept`).

  If there are no more than `k` rows nothing is ever sorted, and the result is in row order. It
  then has the values of the neighbour list only if the rows came in order of distance
  (`oracle_agrees_iff`).
-/
import Monya.Common.NNAccess

namespace Monya

open Monya.Lib Monya.Lib.Ring

structure BruteForcekNN (α : Type) where
  data : List α
  nsamples : Nat
  nfeatures : Nat
  /-- The array holds the rows. -/
  rows : data.length = nsamples * nfeatures

namespace BruteForcekNN

variable {α : Type} [LinearOrder α]

/-- `distance::euclidean(sample, &data[i*nfeatures], nfeatures)`. -/
def distance (euclidean : List α → List α → α) (bf : BruteForcekNN α) (sample : List α) (i : Nat) :
    Except Fault α := do
  let s ← (Buf.ofList sample 0).copy bf.nfeatures
  return euclidean s (← (Buf.ofList bf.data (i * bf.nfeatures)).copy bf.nfeatures)

/-- One pass of the loop over `j`. -/
def scanStep (nn : IndexVector α) (dist : α) (repl : Option Nat) (j : Nat) :
    Except Fault (Option Nat) := do
  let iv ← nn.get j
  return if dist < iv.val then some j else repl

/-- `repl_indx` after the loop, which goes down from `k - 1`; -1 is `none`. -/
def replIndx (nn : IndexVector α) (dist : α) (k : Nat) : Except Fault (Option Nat) :=
  (List.range k).reverse.foldlM (scanStep nn dist) none

/-- The rest of the loop's body, for a row behind the first `k`. -/
def offer (nn : IndexVector α) (iv : IndexVal α) (k : Nat) : Except Fault (IndexVector α) := do
  match ← replIndx nn iv.val k with
  | some j => nn.insert iv j
  | none => return nn

/-- One pass of the loop over the rows. `k` is a `long`, compared as an `unsigned`. -/
def gatherStep (sorter : Sorter α) (euclidean : List α → List α → α) (bf : BruteForcekNN α)
    (sample : List α) (k : Nat) (nn : IndexVector α) (i : Nat) : Except Fault (IndexVector α) := do
  let dist ← bf.distance euclidean sample i
  if i < k % 2 ^ 32 then return nn.append ⟨sampleId i, dist⟩
  else
    let nn := if i = k % 2 ^ 32 then nn.sort sorter else nn
    offer nn ⟨sampleId i, dist⟩ k

def gather (sorter : Sorter α) (euclidean : List α → List α → α) (bf : BruteForcekNN α)
    (sample : List α) (k n : Nat) : Except Fault (IndexVector α) :=
  (List.range n).foldlM (gatherStep sorter euclidean bf sample k) .new

/-- `getNN`. -/
def getNN (sorter : Sorter α) (euclidean : List α → List α → α) (uninit : α)
    (bf : BruteForcekNN α) (sample : List α) (k : Nat) : Except Fault (IndexVector α) := do
  let nn ← gather sorter euclidean bf sample k bf.nsamples
  return if k % 2 ^ 32 < nn.size then nn.trim (fun _ => uninit) k else nn

/-! ## Distances -/

section Rows

variable (euclidean : List α → List α → α) (bf : BruteForcekNN α) (sample : List α)

def row (i : Nat) : List α := (bf.data.drop (i * bf.nfeatures)).take bf.nfeatures

/-- Row `i`, as it is offered to the neighbour list. -/
def entry (i : Nat) : IndexVal α := ⟨sampleId i, euclidean sample (bf.row i)⟩

/-- The first `n` rows, in order. -/
def entries (n : Nat) : List (IndexVal α) := (List.range n).map (bf.entry euclidean sample)

variable {euclidean bf sample}

omit [LinearOrder α] in
theorem distance_ok (hs : sample.length = bf.nfeatures) {i : Nat} (hi : i < bf.nsamples) :
    bf.distance euclidean sample i = .ok (bf.entry euclidean sample i).val := by
  have hend : i * bf.nfeatures + bf.nfeatures ≤ bf.data.length := by
    rw [bf.rows, ← Nat.succ_mul]
    exact Nat.mul_le_mul_right _ hi
  have hsample : (Buf.ofList sample 0).copy bf.nfeatures = .ok sample := by
    rw [Buf.copy_ofList (by omega), List.drop_zero, ← hs, List.take_length]
  rw [distance, hsample, ok_bind, Buf.copy_ofList hend, ok_bind, pure_ok]
  rfl

omit [LinearOrder α] in
theorem entries_succ (n : Nat) : bf.entries euclidean sample (n + 1) =
    bf.entries euclidean sample n ++ [bf.entry euclidean sample n] := by
  simp [entries, List.range_succ]

omit [LinearOrder α] in
theorem length_entries (n : Nat) : (bf.entries euclidean sample n).length = n := by
  simp [entries]

end Rows

/-! ## The place to insert at -/

/-- Going down from `m`, the loop ends at the first place with a larger value, if there is one. -/
theorem scan_down {nn : IndexVector α} {dist : α} {m : Nat} (hm : m ≤ 2 ^ 31)
    (hlen : m ≤ nn.items.length) (repl : Option Nat) :
    ∃ r, (List.range m).reverse.foldlM (scanStep nn dist) repl = .ok r ∧
      ((∃ j x, j < m ∧ r = some j ∧ nn.items[j]? = some x ∧ dist < x.val ∧
          ∀ y ∈ nn.items.take j, y.val ≤ dist) ∨
        r = repl ∧ ∀ y ∈ nn.items.take m, y.val ≤ dist) := by
  induction m generalizing repl with
  | zero => exact ⟨repl, rfl, Or.inr ⟨rfl, fun y hy => absurd hy (by simp)⟩⟩
  | succ m ih =>
    obtain ⟨x, hx⟩ : ∃ x, nn.items[m]? = some x := ⟨_, List.getElem?_eq_getElem hlen⟩
    have hget : nn.get m = .ok x := IndexVector.get_ok (by omega) hx
    obtain ⟨r, hr, hcases⟩ := ih (by omega) (by omega) (if dist < x.val then some m else repl)
    refine ⟨r, ?_, ?_⟩
    · rw [List.range_succ, List.reverse_append, List.reverse_singleton, List.singleton_append,
        List.foldlM_cons, scanStep, hget, ok_bind, pure_ok, ok_bind, hr]
    · rcases hcases with ⟨j, y, hj, hrj, hy⟩ | ⟨rfl, hall⟩
      · exact Or.inl ⟨j, y, by omega, hrj, hy⟩
      · by_cases hlt : dist < x.val
        · exact Or.inl ⟨m, x, by omega, if_pos hlt, hx, hlt, hall⟩
        · refine Or.inr ⟨if_neg hlt, fun y hy => ?_⟩
          rw [List.take_add_one, hx] at hy
          rcases List.mem_append.mp hy with hy | hy
          · exact hall y hy
          · obtain rfl : y = x := by simpa using hy
            exact not_lt.mp hlt

/-- From `2 ^ 31` on, `j` is out of range as an `int`. -/
theorem offer_error (nn : IndexVector α) (iv : IndexVal α) {k : Nat} (hk : 2 ^ 31 < k) :
    ∃ e, offer nn iv k = .error e := by
  have hmem : 2 ^ 31 ∈ (List.range k).reverse := by simpa using hk
  have hscan : ∃ e, replIndx nn iv.val k = .error e := by
    refine foldlM_error_of_mem hmem (fun repl => ⟨.outOfBounds, ?_⟩) none
    simp [scanStep, IndexVector.get, intIndex]
  obtain ⟨e, he⟩ := hscan
  exact ⟨e, by rw [offer, he, error_bind]⟩

/-! ## The rows so far -/

/-- The first `k` values are those of the sorted history. -/
structure Kept (k : Nat) (es : List (IndexVal α)) (nn : IndexVector α) : Prop where
  length : k ≤ nn.items.length
  values : (nn.items.map IndexVal.val).take k = (stableSort id (es.map IndexVal.val)).take k

theorem kept_sort (sorter : Sorter α) (nn : IndexVector α) :
    Kept nn.items.length nn.items (nn.sort sorter) := by
  have hperm := sorter.perm false 0 nn.items
  refine ⟨hperm.length_eq.ge, congrArg _ ?_⟩
  exact eq_stableSort_id (List.pairwise_map.mpr (sorter.sorted false 0 nn.items)) (hperm.map _)

theorem Kept.offer {k : Nat} {es : List (IndexVal α)} {nn : IndexVector α} (h : Kept k es nn)
    (hk : k ≤ 2 ^ 31) (x : IndexVal α) :
    ∃ nn', offer nn x k = .ok nn' ∧ Kept k (es ++ [x]) nn' := by
  have hlen := h.length
  have hsorted : (stableSort id ((es ++ [x]).map IndexVal.val)).take k =
      (insertSorted id x.val ((nn.items.map IndexVal.val).take k)).take k := by
    rw [List.map_append, List.map_singleton, ← insertSorted_stableSort, ← take_insertSorted,
      h.values]
  obtain ⟨r, hr, hcases⟩ := scan_down hk h.length none
  have hrepl : replIndx nn x.val k = .ok r := hr
  rcases hcases with ⟨j, y, hj, rfl, hy, hlt, hle⟩ | ⟨rfl, hle⟩
  · -- the new value goes before the first larger one
    have hpre : ∀ z ∈ (nn.items.take j).map IndexVal.val, z ≤ x.val := by
      intro z hz
      obtain ⟨w, hw, rfl⟩ := List.mem_map.mp hz
      exact hle w hw
    have hpost : ∀ z ∈ ((nn.items.drop j).map IndexVal.val).head?, x.val < z := by
      intro z hz
      rw [List.head?_map, List.head?_drop, hy] at hz
      cases hz
      exact hlt
    have hins : insertSorted id x.val (nn.items.map IndexVal.val) =
        (nn.items.take j ++ x :: nn.items.drop j).map IndexVal.val := by
      have heq : insertSorted id x.val ((nn.items.take j).map IndexVal.val ++
          (nn.items.drop j).map IndexVal.val) = _ := insertSorted_eq hpre hpost
      rwa [← List.map_append, List.take_append_drop, ← List.map_cons, ← List.map_append] at heq
    refine ⟨{ nn with items := nn.items.take j ++ x :: nn.items.drop j }, ?_, ?_, ?_⟩
    · rw [BruteForcekNN.offer, hrepl, ok_bind]
      exact if_pos (by rw [IndexVector.size]; omega)
    · simp only [List.length_append, List.length_take, List.length_cons, List.length_drop]
      omega
    · rw [hsorted, take_insertSorted, hins]
  · -- no larger value: the new one would come behind the first `k`
    have hpre : ∀ z ∈ (nn.items.map IndexVal.val).take k, z ≤ x.val := by
      intro z hz
      rw [← List.map_take] at hz
      obtain ⟨w, hw, rfl⟩ := List.mem_map.mp hz
      exact hle w hw
    have hins : insertSorted id x.val ((nn.items.map IndexVal.val).take k ++ []) =
        (nn.items.map IndexVal.val).take k ++ [x.val] := insertSorted_eq hpre (by simp)
    have hfirst : ((nn.items.map IndexVal.val).take k).length = k := by
      rw [List.length_take, List.length_map]
      exact Nat.min_eq_left hlen
    refine ⟨nn, by rw [BruteForcekNN.offer, hrepl, ok_bind]; rfl, hlen, ?_⟩
    rw [List.append_nil] at hins
    rw [hsorted, hins, List.take_left' hfirst]

section Gather

variable {sorter : Sorter α} {euclidean : List α → List α → α} {bf : BruteForcekNN α}
variable {sample : List α} {k m : Nat}

theorem gather_succ (k m : Nat) : gather sorter euclidean bf sample k (m + 1) =
    gather sorter euclidean bf sample k m >>=
      fun nn => gatherStep sorter euclidean bf sample k nn m := by
  rw [gather, List.range_succ, List.foldlM_append]
  simp only [List.foldlM_cons, List.foldlM_nil, bind_pure]
  rfl

/-- The first `k` rows are appended. -/
theorem gather_rows (hs : sample.length = bf.nfeatures) (hm : m ≤ bf.nsamples)
    (hk : m ≤ k % 2 ^ 32) :
    ∃ nn, gather sorter euclidean bf sample k m = .ok nn ∧
      nn.items = bf.entries euclidean sample m := by
  induction m with
  | zero => exact ⟨.new, rfl, rfl⟩
  | succ m ih =>
    obtain ⟨nn, hg, hnn⟩ := ih (by omega) (by omega)
    refine ⟨nn.append (bf.entry euclidean sample m), ?_, ?_⟩
    · rw [gather_succ, hg, ok_bind, gatherStep, distance_ok hs (by omega), ok_bind,
        if_pos (by omega)]
      rfl
    · rw [entries_succ, ← hnn]
      rfl

/-- The pass for row `m`, on a vector that has been sorted by then. -/
theorem gatherStep_kept (hs : sample.length = bf.nfeatures) (hk : k ≤ 2 ^ 31)
    (hm : m < bf.nsamples) (hkm : k ≤ m) {nn : IndexVector α}
    (h : Kept k (bf.entries euclidean sample m) (if m = k % 2 ^ 32 then nn.sort sorter else nn)) :
    ∃ nn', gatherStep sorter euclidean bf sample k nn m = .ok nn' ∧
      Kept k (bf.entries euclidean sample (m + 1)) nn' := by
  have hmod : k % 2 ^ 32 = k := Nat.mod_eq_of_lt (by omega)
  obtain ⟨nn', ho, hkept⟩ := h.offer hk (bf.entry euclidean sample m)
  rw [← entries_succ] at hkept
  refine ⟨nn', ?_, hkept⟩
  rw [gatherStep, distance_ok hs hm, ok_bind, if_neg (by omega)]
  exact ho

/-- From row `k` on, the first `k` values are right. -/
theorem gather_kept (hs : sample.length = bf.nfeatures) (hk : k ≤ 2 ^ 31) (hm : m < bf.nsamples)
    (hkm : k ≤ m) :
    ∃ nn, gather sorter euclidean bf sample k (m + 1) = .ok nn ∧
      Kept k (bf.entries euclidean sample (m + 1)) nn := by
  have hmod : k % 2 ^ 32 = k := Nat.mod_eq_of_lt (by omega)
  suffices hbefore : ∃ nn, gather sorter euclidean bf sample k m = .ok nn ∧
      Kept k (bf.entries euclidean sample m) (if m = k % 2 ^ 32 then nn.sort sorter else nn) by
    obtain ⟨nn, hg, hkept⟩ := hbefore
    obtain ⟨nn', hstep, hkept'⟩ := gatherStep_kept hs hk hm hkm hkept
    exact ⟨nn', by rw [gather_succ, hg, ok_bind, hstep], hkept'⟩
  induction m, hkm using Nat.le_induction with
  | base =>
    obtain ⟨nn, hg, hnn⟩ : ∃ nn, gather sorter euclidean bf sample k k = .ok nn ∧
        nn.items = bf.entries euclidean sample k := gather_rows hs hm.le hmod.ge
    refine ⟨nn, hg, ?_⟩
    have hkept := kept_sort sorter nn
    rw [hnn, length_entries] at hkept
    rwa [if_pos hmod.symm]
  | succ m hkm ih =>
    obtain ⟨nn, hg, hkept⟩ := ih (by omega)
    obtain ⟨nn', hstep, hkept'⟩ := gatherStep_kept hs hk (by omega) hkm hkept
    refine ⟨nn', by rw [gather_succ, hg, ok_bind, hstep], ?_⟩
    rwa [if_neg (by omega)]

variable (sorter euclidean) (uninit : α)

theorem getNN_rows (hs : sample.length = bf.nfeatures) (hn : bf.nsamples ≤ k % 2 ^ 32) :
    ∃ nn, getNN sorter euclidean uninit bf sample k = .ok nn ∧
      nn.items = bf.entries euclidean sample bf.nsamples := by
  obtain ⟨nn, hg, hnn⟩ : ∃ nn, gather sorter euclidean bf sample k bf.nsamples = .ok nn ∧
      nn.items = bf.entries euclidean sample bf.nsamples := gather_rows hs (le_refl _) hn
  refine ⟨nn, ?_, hnn⟩
  rw [getNN, hg, ok_bind, if_neg]
  · rfl
  · rw [IndexVector.size, hnn, length_entries]
    omega

theorem getNN_kept (hs : sample.length = bf.nfeatures) (hk : k ≤ 2 ^ 31) (hn : k < bf.nsamples) :
    ∃ nn, getNN sorter euclidean uninit bf sample k = .ok nn ∧
      nn.items.map IndexVal.val = (stableSort id
        ((bf.entries euclidean sample bf.nsamples).map IndexVal.val)).take k := by
  have hmod : k % 2 ^ 32 = k := Nat.mod_eq_of_lt (by omega)
  obtain ⟨m, hm⟩ : ∃ m, bf.nsamples = m + 1 := ⟨bf.nsamples - 1, by omega⟩
  obtain ⟨nn, hg, hkept⟩ : ∃ nn, gather sorter euclidean bf sample k (m + 1) = .ok nn ∧
      Kept k (bf.entries euclidean sample (m + 1)) nn := gather_kept hs hk (by omega) (by omega)
  rw [← hm] at hg hkept
  rw [getNN, hg, ok_bind, hmod]
  by_cases hlt : k < nn.size
  · refine ⟨nn.trim (fun _ => uninit) k, by rw [if_pos hlt]; rfl, ?_⟩
    have hnil : k - nn.size = 0 := by omega
    rw [← hkept.values, IndexVector.trim, hnil, List.range_zero, List.map_nil, List.append_nil,
      List.map_take]
  · refine ⟨nn, by rw [if_neg hlt]; rfl, ?_⟩
    rw [← hkept.values, List.take_of_length_le]
    rw [List.length_map]
    exact Nat.le_of_not_lt hlt

/-- The pass for row `k % 2 ^ 32` is the first to scan the vector. -/
theorem getNN_error (hs : sample.length = bf.nfeatures) (hk : 2 ^ 31 < k)
    (hn : k % 2 ^ 32 < bf.nsamples) :
    ∃ e, getNN sorter euclidean uninit bf sample k = .error e := by
  have hgather : ∃ e, gather sorter euclidean bf sample k bf.nsamples = .error e := by
    refine foldlM_error_of_mem (List.mem_range.mpr hn) (fun nn => ?_) IndexVector.new
    obtain ⟨e, he⟩ := offer_error (if k % 2 ^ 32 = k % 2 ^ 32 then nn.sort sorter else nn)
      (bf.entry euclidean sample (k % 2 ^ 32)) hk
    refine ⟨e, ?_⟩
    rw [gatherStep, distance_ok hs hn, ok_bind, if_neg (lt_irrefl _)]
    exact he
  obtain ⟨e, he⟩ := hgather
  exact ⟨e, by rw [getNN, he, error_bind]⟩

end Gather

/-! ## Against the neighbour list -/

/-- The two have the same values, and `operator==` finds them equal. -/
structure Agree (nn : IndexVector α) (v : NNVector α) : Prop where
  size : nn.size = v.size
  values : ∃ xs, Returns (walk v.heap v.sentinel Link.next) xs ∧
    nn.items.map IndexVal.val = xs.map IndexVal.val
  eq : ∃ v', v.eqIndexVector nn = .ok (true, v')

section Agreement

variable {v : NNVector α} {es : List (IndexVal α)}

/-- A neighbour list that has been offered `es` agrees with a vector of the first values in order,
    if an `int` can count them. -/
theorem agree_iff (nn : IndexVector α) (he : v.Evaluated es) (hc : v.cache.2 = none) :
    Agree nn v ↔ nn.items.map IndexVal.val = (stableSort id (es.map IndexVal.val)).take v.k ∧
      min v.k es.length ≤ 2 ^ 31 := by
  have hvalues : ((stableSort IndexVal.val es).take v.k).map IndexVal.val =
      (stableSort id (es.map IndexVal.val)).take v.k := by
    rw [List.map_take, map_stableSort]
  constructor
  · rintro ⟨-, ⟨xs, hxs, hval⟩, v', heq⟩
    rw [he.walk_next.unique hxs, ← hval] at hvalues
    exact ⟨hvalues, he.size_eq ▸ NNVector.size_le_of_eqIndexVector heq⟩
  · rintro ⟨hval, hlen⟩
    rw [← hvalues] at hval
    obtain ⟨as, hacc⟩ := he.accessible hc
    refine ⟨?_, ⟨_, he.walk_next, hval⟩, hacc.eqIndexVector_ok ?_ hval⟩
    · have hl := congrArg List.length hval
      rw [List.length_map, List.length_map] at hl
      rw [IndexVector.size, hl, he.size]
    · rw [← he.size, he.size_eq]
      exact hlen

/-- Behind a vector of the rows in order there is a sorted list only if they were in order. -/
theorem eq_take_stableSort_iff {xs : List α} {k : Nat} (hk : xs.length ≤ k) :
    xs = (stableSort id xs).take k ↔ xs.Pairwise (· ≤ ·) := by
  have hlen : (stableSort id xs).length ≤ k := by
    rw [(stableSort_perm id xs).length_eq]
    exact hk
  rw [List.take_of_length_le hlen]
  constructor
  · intro h
    rw [h]
    exact stableSort_sorted id xs
  · exact fun h => eq_stableSort_id h (List.Perm.refl xs)

/-- The oracle and a neighbour list that is given the rows in order agree exactly if there are more
    rows than `k`, or the rows come in order of their distances. (`k` is a `long` that is converted
    to `unsigned` and indexes as an `int`, hence the bounds.) -/
theorem oracle_agrees_iff (sorter : Sorter α) (euclidean : List α → List α → α)
    (uninit dataMax : α) (bf : BruteForcekNN α) {sample : List α}
    (hs : sample.length = bf.nfeatures) (k : Nat) :
    (∃ nn v, getNN sorter euclidean uninit bf sample k = .ok nn ∧
        Returns (fun fuel => NNVector.evalAll fuel (.new dataMax (sampleId k))
          (bf.entries euclidean sample bf.nsamples)) v ∧ Agree nn v) ↔
      (sampleId k < bf.nsamples ∧ k ≤ 2 ^ 31) ∨
      (bf.nsamples ≤ sampleId k ∧ bf.nsamples ≤ 2 ^ 31 ∧
        ((bf.entries euclidean sample bf.nsamples).map IndexVal.val).Pairwise (· ≤ ·)) := by
  have hlen : ((bf.entries euclidean sample bf.nsamples).map IndexVal.val).length =
      bf.nsamples := by
    rw [List.length_map, length_entries]
  obtain ⟨v, hret, hvk, he, hc⟩ := NNVector.evalAll_returns dataMax (sampleId k)
    (bf.entries euclidean sample bf.nsamples)
  -- the neighbour list is the one just obtained, so only the oracle's result is at stake
  have hiff : ∀ nn, getNN sorter euclidean uninit bf sample k = .ok nn →
      ((∃ nn v, getNN sorter euclidean uninit bf sample k = .ok nn ∧
        Returns (fun fuel => NNVector.evalAll fuel (.new dataMax (sampleId k))
          (bf.entries euclidean sample bf.nsamples)) v ∧ Agree nn v) ↔
        nn.items.map IndexVal.val = (stableSort id ((bf.entries euclidean sample
          bf.nsamples).map IndexVal.val)).take (sampleId k) ∧
          min (sampleId k) bf.nsamples ≤ 2 ^ 31) := by
    intro nn hnn
    have hagree := agree_iff nn he hc
    rw [hvk, length_entries] at hagree
    rw [← hagree]
    constructor
    · rintro ⟨nn', v', hnn', hret', ha⟩
      cases hnn.symm.trans hnn'
      rwa [hret.unique hret']
    · exact fun ha => ⟨nn, v, hnn, hret, ha⟩
  rcases Nat.lt_or_ge (sampleId k) bf.nsamples with hn | hn
  · rcases Nat.lt_or_ge (2 ^ 31) k with hk | hk
    · obtain ⟨e, herr⟩ := getNN_error sorter euclidean uninit hs hk hn
      refine iff_of_false ?_ (by omega)
      rintro ⟨nn, v', hnn, -⟩
      rw [herr] at hnn
      cases hnn
    · have hmod : sampleId k = k := sampleId_of_lt (by omega)
      rw [hmod] at hn
      obtain ⟨nn, hnn, hval⟩ := getNN_kept sorter euclidean uninit hs hk hn
      rw [hiff nn hnn, hmod]
      exact iff_of_true ⟨hval, by omega⟩ (Or.inl ⟨hn, hk⟩)
  · obtain ⟨nn, hnn, hval⟩ := getNN_rows sorter euclidean uninit hs hn
    rw [hiff nn hnn, hval, eq_take_stableSort_iff (hlen.trans_le hn), Nat.min_eq_right hn]
    constructor
    · exact fun ⟨hsorted, hle⟩ => Or.inr ⟨hn, hle, hsorted⟩
    · rintro (⟨hlt, -⟩ | ⟨-, hle, hsorted⟩)
      · omega
      · exact ⟨hsorted, hle⟩

end Agreement

/-- The distance of two vectors of numbers, summed over the features. -/
def cityBlock (a b : List Nat) : Nat := (List.zipWith (fun x y => (x - y) + (y - x)) a b).sum

/-- Two samples of one feature, the farther one from 0 first. -/
def twoRows : BruteForcekNN Nat := ⟨[1, 0], 2, 1, rfl⟩

theorem oracle_agrees_one :
    ∃ nn v, getNN stableSorter cityBlock 0 twoRows [0] 1 = .ok nn ∧
      Returns (fun fuel => NNVector.evalAll fuel (.new 0 (sampleId 1))
        (twoRows.entries cityBlock [0] 2)) v ∧ Agree nn v :=
  (oracle_agrees_iff stableSorter cityBlock 0 0 twoRows (show [0].length = 1 from rfl) 1).mpr
    (Or.inl ⟨by decide, by decide⟩)

/-- With `k = 2` the oracle leaves the two samples as they come. -/
theorem unsorted_two :
    ∃ nn v, getNN stableSorter cityBlock 0 twoRows [0] 2 = .ok nn ∧
      Returns (fun fuel => NNVector.evalAll fuel (.new 0 (sampleId 2))
        (twoRows.entries cityBlock [0] 2)) v ∧
      nn.items.map IndexVal.val = [1, 0] ∧
      (∃ xs, Returns (walk v.heap v.sentinel Link.next) xs ∧ xs.map IndexVal.val = [0, 1]) ∧
      ¬ Agree nn v := by
  have hs : [0].length = twoRows.nfeatures := rfl
  obtain ⟨nn, hnn, hitems⟩ := getNN_rows stableSorter cityBlock 0 hs (show 2 ≤ 2 % 2 ^ 32 by decide)
  obtain ⟨v, hret, hk, he, hc⟩ := NNVector.evalAll_returns 0 (sampleId 2)
    (twoRows.entries cityBlock [0] 2)
  have hval : nn.items.map IndexVal.val = [1, 0] := by
    rw [hitems]
    rfl
  have hsort : [0, 1] = stableSort id [1, 0] := eq_stableSort_id (by decide) (by decide)
  have hsorted : [0, 1] = (stableSort id [1, 0]).take (sampleId 2) := by
    rw [← hsort]
    rfl
  refine ⟨nn, v, hnn, hret, hval, ⟨_, he.walk_next, ?_⟩, fun ha => ?_⟩
  · rw [List.map_take, map_stableSort, hk]
    exact hsorted.symm
  · have hfirst := ((agree_iff nn he hc).mp ha).1
    rw [hval, hk] at hfirst
    exact absurd (hfirst.trans hsorted.symm) (by decide)

end BruteForcekNN

end Monya
