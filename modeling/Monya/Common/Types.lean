/-
  The value types of `common/types.hpp`.

  `data_t` is a type variable: only its order is used. `sample_id_t` is `unsigned`, so an id made
  from a `size_t` is reduced modulo `2 ^ 32`. `IndexVector::operator[]` takes an `int`, so an
  index from `2 ^ 31` on arrives as a negative number and misses the vector.

  `std::sort` and `__gnu_parallel::sort` are any functions that return a sorted permutation:
  `Sorter` carries the proofs. They need not be the same function at every node, so the node's
  address is an argument.
-/
import Monya.Lib.Heap
import Monya.Lib.StableSort

namespace Monya

open Monya.Lib

/-- `sizeof(data_t)`; `data_t` is `float`. -/
abbrev dtypeSize : Nat := 4

/-- The conversion of a `size_t` to `sample_id_t`. -/
def sampleId (x : Nat) : Nat := x % 2 ^ 32

theorem sampleId_of_lt {x : Nat} (h : x < 2 ^ 32) : sampleId x = x := Nat.mod_eq_of_lt h

theorem sampleId_le (x : Nat) : sampleId x ≤ x := Nat.mod_le _ _

/-- The conversion of a `size_t` to `int`; a negative result is of no use as an index. -/
def intIndex (i : Nat) : Option Nat :=
  if i % 2 ^ 32 < 2 ^ 31 then some (i % 2 ^ 32) else none

theorem intIndex_of_lt {i : Nat} (h : i < 2 ^ 31) : intIndex i = some i := by
  have hm : i % 2 ^ 32 = i := Nat.mod_eq_of_lt (by omega)
  rw [intIndex, hm, if_pos h]

inductive MatOrient where
  | row
  | col
  | band
  | invalid
  deriving DecidableEq, Repr

structure IndexVal (α : Type) where
  index : Nat
  val : α
  deriving DecidableEq, Repr

/-- The library's sorting routines: `par` selects the parallel one. -/
structure Sorter (α : Type) [LinearOrder α] where
  sort (par : Bool) (node : Nat) (xs : List (IndexVal α)) : List (IndexVal α)
  perm : ∀ par node xs, (sort par node xs).Perm xs
  sorted : ∀ par node xs, (sort par node xs).Pairwise fun a b => a.val ≤ b.val

/-- A library whose sort is stable. -/
def stableSorter {α : Type} [LinearOrder α] : Sorter α where
  sort _ _ xs := stableSort IndexVal.val xs
  perm _ _ xs := stableSort_perm IndexVal.val xs
  sorted _ _ xs := stableSort_sorted IndexVal.val xs

structure IndexVector (α : Type) where
  items : List (IndexVal α)
  sorted : Bool
  deriving DecidableEq, Repr

namespace IndexVector

variable {α : Type}

def new : IndexVector α := ⟨[], false⟩

def size (v : IndexVector α) : Nat := v.items.length

/-- The indexes, for the proofs and for `get_indexes`. -/
def ids (v : IndexVector α) : List Nat := v.items.map IndexVal.index

/-- `operator[]`. -/
def get (v : IndexVector α) (i : Nat) : Except Fault (IndexVal α) :=
  match intIndex i with
  | some j => (Buf.ofList v.items 0).get j
  | none => .error .outOfBounds

/-- `v[i].set_val(val)`. -/
def setVal (v : IndexVector α) (i : Nat) (val : α) : Except Fault (IndexVector α) := do
  let iv ← v.get i
  return { v with items := v.items.set (i % 2 ^ 32) { iv with val } }

/-- `set_indexes` of ids, with 0 as the placeholder value. -/
def setIndexes [Zero α] (v : IndexVector α) (idxs : Buf Nat) (nelem : Nat) :
    Except Fault (IndexVector α) := do
  let xs ← idxs.copy nelem
  return { v with items := xs.map fun i => ⟨i, 0⟩ }

/-- `set_indexes` of values, with contiguous ids. -/
def setIndexesVals (v : IndexVector α) (vals : Buf α) (nelem : Nat) :
    Except Fault (IndexVector α) := do
  let xs ← vals.copy nelem
  return { v with items := xs.zipIdx.map fun p => ⟨sampleId p.2, p.1⟩ }

/-- `get_indexes` into an empty vector. -/
def getIndexes (v : IndexVector α) : List Nat := v.ids

def append (v : IndexVector α) (iv : IndexVal α) : IndexVector α :=
  { v with items := v.items ++ [iv] }

/-- `insert`; `begin() + offset` has to be a place in the vector or its end. -/
def insert (v : IndexVector α) (item : IndexVal α) (offset : Nat) :
    Except Fault (IndexVector α) :=
  if offset ≤ v.size then
    .ok { v with items := v.items.take offset ++ item :: v.items.drop offset }
  else .error .outOfBounds

/-- One pass of the loop in `resize`, which looks at `size()` again each time. -/
def resizeStep [Zero α] (nelem : Nat) :
    IndexVector α × Nat → Except Fault (Pass (IndexVector α × Nat) (IndexVector α))
  | (v, i) =>
      if i < nelem - v.size then .ok (.next (v.append ⟨0, 0⟩, i + 1)) else .ok (.done v)

def resize [Zero α] (fuel : Nat) (v : IndexVector α) (nelem : Nat) : Except Fault (IndexVector α) :=
  if v.size ≤ nelem then loop (resizeStep nelem) fuel (v, 0) else .error .assertion

/-- The constructor that takes a size. -/
def ofSize [Zero α] (fuel nelem : Nat) : Except Fault (IndexVector α) := new.resize fuel nelem

/-- The constructor that takes values; they get contiguous ids. -/
def ofVals (vals : List α) : IndexVector α :=
  ⟨vals.zipIdx.map fun p => ⟨sampleId p.2, p.1⟩, false⟩

/-- The constructor that takes ids, with 0 as the placeholder value. -/
def ofIds [Zero α] (ids : List Nat) : IndexVector α := ⟨ids.map fun i => ⟨i, 0⟩, false⟩

/-- `trim`, that is `std::vector::resize`: the value of an entry that it adds is not set. -/
def trim (uninit : Nat → α) (v : IndexVector α) (nelem : Nat) : IndexVector α :=
  { v with
    items := v.items.take nelem ++ (List.range (nelem - v.size)).map fun i => ⟨0, uninit i⟩ }

/-- `sort`; which node asks for it makes no difference here. -/
def sort [LinearOrder α] (sorter : Sorter α) (v : IndexVector α) : IndexVector α :=
  ⟨sorter.sort false 0 v.items, true⟩

/-- `std::binary_search`: the first entry that is not below `iv` is not above it. The entry is found
    here by a scan and not by halving; the two agree on a sorted range, and `find` searches no
    other unless `sorted` is wrong. -/
def binarySearch [LinearOrder α] (items : List (IndexVal α)) (iv : IndexVal α) : Bool :=
  match items.dropWhile fun x => x.val < iv.val with
  | [] => false
  | x :: _ => !decide (iv.val < x.val)

/-- `find`, which sorts the vector first unless it is known to be sorted. -/
def find [LinearOrder α] (sorter : Sorter α) (v : IndexVector α) (iv : IndexVal α) :
    Bool × IndexVector α :=
  let v := if v.sorted then v else v.sort sorter
  (binarySearch v.items iv, v)

theorem get_ok {v : IndexVector α} {i : Nat} {iv : IndexVal α} (hi : i < 2 ^ 31)
    (h : v.items[i]? = some iv) : v.get i = .ok iv := by
  simp only [get, intIndex_of_lt hi]
  refine Buf.get_ok ?_
  rw [Buf.ofList, Nat.zero_add, h]

theorem setVal_ok {v : IndexVector α} {i : Nat} {iv : IndexVal α} (hi : i < 2 ^ 31)
    (h : v.items[i]? = some iv) (val : α) :
    v.setVal i val = .ok { v with items := v.items.set i { iv with val } } := by
  simp only [setVal, get_ok hi h, ok_bind, pure_ok, Nat.mod_eq_of_lt (show i < 2 ^ 32 by omega)]

theorem setIndexes_ofList [Zero α] (v : IndexVector α) {xs : List Nat} {off n : Nat}
    (h : off + n ≤ xs.length) :
    v.setIndexes (Buf.ofList xs off) n =
      .ok { v with items := ((xs.drop off).take n).map fun i => ⟨i, 0⟩ } := by
  simp only [setIndexes, Buf.copy_ofList h, ok_bind, pure_ok]

theorem setIndexesVals_ok (v : IndexVector α) {vals : Buf α} {n : Nat} {f : Nat → α}
    (hn : n ≤ 2 ^ 32) (h : ∀ i, i < n → vals i = some (f i)) :
    v.setIndexesVals vals n =
      .ok { v with items := (List.range n).map fun i => ⟨i, f i⟩ } := by
  simp only [setIndexesVals, Buf.copy_ok h, ok_bind, pure_ok]
  congr 2
  refine List.ext_getElem (by simp) fun i h₁ h₂ => ?_
  have hi : i < n := by simpa using h₂
  simp [sampleId_of_lt (show i < 2 ^ 32 by omega)]

/-- The loop of `resize` counts up while the distance to `nelem` goes down, so it stops half way. -/
theorem resize_returns [Zero α] (v : IndexVector α) {nelem : Nat} (h : v.size ≤ nelem) :
    Returns (fun fuel => v.resize fuel nelem)
      { v with items := v.items ++ List.replicate ((nelem - v.size + 1) / 2) ⟨0, 0⟩ } := by
  let grown : Nat → IndexVector α := fun j =>
    { v with items := v.items ++ List.replicate j ⟨0, 0⟩ }
  have hsize : ∀ j, (grown j).size = v.size + j := fun j => by simp [grown, size]
  have hpush : ∀ j, (grown j).append ⟨0, 0⟩ = grown (j + 1) := fun j => by
    simp [grown, append, List.replicate_succ']
  have hloop : ∀ m j, j + m = (nelem - v.size + 1) / 2 →
      Returns (fun fuel => loop (resizeStep nelem) fuel (grown j, j))
        (grown ((nelem - v.size + 1) / 2)) := by
    intro m
    induction m with
    | zero =>
      intro j hj
      rw [← hj, Nat.add_zero]
      refine returns_done ?_
      rw [resizeStep, hsize, if_neg (by omega)]
    | succ m ih =>
      intro j hj
      refine returns_next ?_ (ih (j + 1) (by omega))
      rw [resizeStep, hsize, if_pos (by omega), hpush]
  have hzero : grown 0 = v := by simp [grown]
  have h₀ := hloop _ 0 (Nat.zero_add _)
  rw [hzero] at h₀
  refine h₀.of_eq fun fuel => ?_
  rw [resize, if_pos h]

/-- `v'` is `v` with entries `(0, 0)` added up to `nelem`. -/
structure Resized [Zero α] (v : IndexVector α) (nelem : Nat) (v' : IndexVector α) : Prop where
  size : v'.size = nelem
  kept : v'.items.take v.size = v.items
  added : ∀ x ∈ v'.items.drop v.size, x = ⟨0, 0⟩

/-- `resize` gets to the size it is asked for exactly if that is at most one entry away, and so
    the constructor that takes a size makes a vector of that size only for 0 and 1. -/
theorem resize_reaches_iff [Zero α] (v : IndexVector α) {nelem : Nat} (h : v.size ≤ nelem) :
    ((∃ v', Returns (fun fuel => v.resize fuel nelem) v' ∧ v.Resized nelem v') ↔
      nelem ≤ v.size + 1) ∧
    ∀ n, (∃ w : IndexVector α, Returns (fun fuel => ofSize fuel n) w ∧ w.size = n) ↔ n ≤ 1 := by
  have hsize : ∀ (u : IndexVector α) (n : Nat), u.size ≤ n → ∀ u',
      Returns (fun fuel => u.resize fuel n) u' → (u'.size = n ↔ n ≤ u.size + 1) := by
    intro u n hu u' hret
    rw [hret.unique (u.resize_returns hu)]
    simp only [IndexVector.size, List.length_append, List.length_replicate] at hu ⊢
    omega
  refine ⟨⟨?_, fun hle => ?_⟩, fun n => ⟨?_, fun hle => ?_⟩⟩
  · rintro ⟨v', hret, hv'⟩
    exact (hsize v nelem h v' hret).mp hv'.size
  · refine ⟨_, v.resize_returns h, (hsize v nelem h _ (v.resize_returns h)).mpr hle, ?_, ?_⟩
    · exact List.take_left' rfl
    · intro x hx
      unfold IndexVector.size at hx
      rw [List.drop_left] at hx
      exact List.eq_of_mem_replicate hx
  · rintro ⟨w, hret, hw⟩
    exact (hsize new n (Nat.zero_le n) w hret).mp hw
  · exact ⟨_, resize_returns new (Nat.zero_le n),
      (hsize new n (Nat.zero_le n) _ (resize_returns new (Nat.zero_le n))).mpr hle⟩

/-- From one entry to two. -/
theorem resize_reaches_two :
    ∃ v', Returns (fun fuel => (⟨[⟨7, 5⟩], false⟩ : IndexVector Nat).resize fuel 2) v' ∧
      (⟨[⟨7, 5⟩], false⟩ : IndexVector Nat).Resized 2 v' :=
  (resize_reaches_iff (⟨[⟨7, 5⟩], false⟩ : IndexVector Nat) (by decide)).1.mpr (by decide)

/-- `IndexVector(2)` has one entry. -/
theorem resize_stops_short :
    Returns (fun fuel => (ofSize fuel 2 : Except Fault (IndexVector Nat))) ⟨[⟨0, 0⟩], false⟩ :=
  resize_returns new (Nat.zero_le 2)

end IndexVector

/-! ## `cunsigned` -/

/-- A number that counts modulo `max`. -/
structure CUnsigned where
  val : Nat
  max : Nat
  lt : val < max
  deriving DecidableEq, Repr

namespace CUnsigned

def new (max : Nat) : Except Fault CUnsigned :=
  if h : 0 < max then .ok ⟨0, max, h⟩ else .error (.thrown "max must be > 0")

/-- `cunsigned(val, max)`. -/
def newAt (val max : Nat) : Except Fault CUnsigned :=
  if max = 0 then .error (.thrown "max must be > 0")
  else if h : val < max then .ok ⟨val, max, h⟩
  else .error (.thrown "val must be < max")

def inc (c : CUnsigned) : CUnsigned :=
  ⟨if c.val = c.max - 1 then 0 else c.val + 1, c.max, by have := c.lt; split <;> omega⟩

/-- The calls of `set` that return; what the others leave behind is no `CUnsigned`. -/
def set (c : CUnsigned) (val : Nat) : Except Fault CUnsigned :=
  if h : val < c.max then .ok ⟨val, c.max, h⟩ else .error (.thrown "val must be < max")

def dec (c : CUnsigned) : CUnsigned :=
  ⟨if c.val = 0 then c.max - 1 else c.val - 1, c.max, by have := c.lt; split <;> omega⟩

theorem eq_of_val {c d : CUnsigned} (hval : c.val = d.val) (hmax : c.max = d.max) : c = d := by
  cases c
  cases d
  cases hval
  cases hmax
  rfl

theorem inc_max (c : CUnsigned) : c.inc.max = c.max := rfl

/-- `inc` counts modulo `max`. -/
theorem inc_val (c : CUnsigned) : c.inc.val = (c.val + 1) % c.max := by
  have hlt := c.lt
  unfold inc
  dsimp only
  split
  · next h => rw [h, Nat.sub_add_cancel (by omega), Nat.mod_self]
  · rw [Nat.mod_eq_of_lt (by omega)]

theorem inc_iterate_max (c : CUnsigned) (n : Nat) : (inc^[n] c).max = c.max := by
  induction n generalizing c with
  | zero => rfl
  | succ n ih => exact ih c.inc

theorem inc_iterate_val (c : CUnsigned) (n : Nat) : (inc^[n] c).val = (c.val + n) % c.max := by
  induction n with
  | zero => exact (Nat.mod_eq_of_lt c.lt).symm
  | succ n ih =>
    rw [Function.iterate_succ_apply', inc_val, inc_iterate_max, ih, Nat.mod_add_mod, Nat.add_assoc]

theorem dec_inc (c : CUnsigned) : c.inc.dec = c := by
  refine eq_of_val ?_ rfl
  show (if c.inc.val = 0 then c.max - 1 else c.inc.val - 1) = c.val
  by_cases h : c.val = c.max - 1
  · have hinc : c.inc.val = 0 := if_pos h
    rw [hinc, if_pos rfl, h]
  · have hinc : c.inc.val = c.val + 1 := if_neg h
    rw [hinc, if_neg (Nat.succ_ne_zero c.val), Nat.add_sub_cancel]

theorem inc_dec (c : CUnsigned) : c.dec.inc = c := by
  have hlt := c.lt
  refine eq_of_val ?_ rfl
  show (if c.dec.val = c.max - 1 then 0 else c.dec.val + 1) = c.val
  by_cases h : c.val = 0
  · have hdec : c.dec.val = c.max - 1 := if_pos h
    rw [hdec, if_pos rfl, h]
  · have hdec : c.dec.val = c.val - 1 := if_neg h
    rw [hdec, if_neg (by omega), Nat.sub_add_cancel (by omega)]

end CUnsigned

end Monya
