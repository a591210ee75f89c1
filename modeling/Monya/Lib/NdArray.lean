/-
  Arrays as functions of checked indexes: a numpy that keeps the laws of `Numpy`.

  An array is its shape, the conversion of its dtype and its cells. Every call outside the arrays is
  an error. `plain f` takes `f` for the conversion to `float64`; with a rounding that is
  `laws_plain`, and without one its arithmetic is exact (`exact_plain`).
-/
import Mathlib.Algebra.BigOperators.Intervals
import Monya.Lib.Numpy

namespace Monya.Lib

structure NdArray (α : Type) where
  nrow : Nat
  ncol : Nat
  cast : α → α
  cell : Nat → Nat → α

structure NdVec (α : Type) where
  len : Nat
  cast : α → α
  entry : Nat → α

namespace NdArray

variable {α : Type} [Semiring α] [DecidableEq α]

/-- The diagonal has the dtype of the array. -/
def diagonal (a : NdArray α) (k : Int) : NdVec α :=
  ⟨min (a.nrow - (-k).toNat) (a.ncol - k.toNat), a.cast, fun i =>
    a.cell (i + (-k).toNat) (i + k.toNat)⟩

def plain (float64 : α → α) : Numpy α where
  Mat := NdArray α
  Vec := NdVec α
  nrow := nrow
  ncol := ncol
  cell := cell
  cast := cast
  len := NdVec.len
  entry := NdVec.entry
  castVec := NdVec.cast
  float64 := float64
  zeros r c := ⟨r, c, float64, fun _ _ => 0⟩
  zerosVec n := ⟨n, float64, fun _ => 0⟩
  get a i j :=
    if 0 ≤ i ∧ i < a.nrow ∧ 0 ≤ j ∧ j < a.ncol then .ok (a.cell i.toNat j.toNat)
    else .error .outOfBounds
  setCol a j v :=
    if j < a.ncol ∧ v.len = a.nrow then
      .ok { a with cell := fun r c => if c = j then a.cast (v.entry r) else a.cell r c }
    else .error .outOfBounds
  setRow a i v :=
    if i < a.nrow ∧ v.len = a.ncol then
      .ok { a with cell := fun r c => if r = i then a.cast (v.entry c) else a.cell r c }
    else .error .outOfBounds
  setEntry v i x :=
    if i < v.len then .ok { v with entry := fun k => if k = i then v.cast x else v.entry k }
    else .error .outOfBounds
  diagonal := diagonal
  any v := (List.range v.len).any fun i => v.entry i ≠ 0
  pad v before after := ⟨before + v.len + after, v.cast, fun i =>
    if before ≤ i ∧ i < before + v.len then v.entry (i - before) else 0⟩
  rowSlice a i start stop :=
    if i < a.nrow ∧ 0 ≤ start ∧ start ≤ stop ∧ stop ≤ a.ncol then
      .ok ⟨(stop - start).toNat, a.cast, fun k => a.cell i (start.toNat + k)⟩
    else .error .outOfBounds
  slice v start stop := ⟨(stop - start).toNat, v.cast, fun k => v.entry (start.toNat + k)⟩
  transpose v := v
  dot v w :=
    if v.len = w.len then .ok (∑ k ∈ Finset.range v.len, v.entry k * w.entry k)
    else .error .outOfBounds
  column v n :=
    if n = v.len then .ok ⟨n, 1, v.cast, fun i _ => v.entry i⟩ else .error .outOfBounds

theorem laws_plain {f : α → α} (hf : ∀ x, f (f x) = f x) (hzero : ∀ x, f x = 0 ↔ x = 0) :
    (plain f).Laws where
  float64_float64 := hf
  float64_eq_zero := hzero
  zeros _ _ := ⟨rfl, rfl, rfl, fun _ _ _ _ => rfl⟩
  zerosVec _ := ⟨rfl, rfl⟩
  get a i j hi hj := by
    have hin : 0 ≤ (i : Int) ∧ (i : Int) < a.nrow ∧ 0 ≤ (j : Int) ∧ (j : Int) < a.ncol :=
      ⟨by omega, Int.ofNat_lt.mpr hi, by omega, Int.ofNat_lt.mpr hj⟩
    exact if_pos hin
  setCol a j v hj hv := ⟨_, if_pos ⟨hj, hv⟩, rfl, rfl, rfl, fun _ _ _ _ => rfl⟩
  setRow a i v hi hv := ⟨_, if_pos ⟨hi, hv⟩, rfl, rfl, rfl, fun _ _ _ _ => rfl⟩
  setEntry v i x hi := ⟨_, if_pos hi, rfl, rfl, fun _ _ => rfl⟩
  diagonal _ _ := ⟨rfl, fun _ _ => rfl⟩
  any v := by
    simp only [plain, List.any_eq_true, List.mem_range, decide_eq_true_eq]
  pad _ _ _ := ⟨rfl, fun _ _ => rfl⟩
  rowSlice a i start len hi hlen := by
    have hin : i < a.nrow ∧ 0 ≤ (start : Int) ∧ (start : Int) ≤ ((start + len : Nat) : Int) ∧
        ((start + len : Nat) : Int) ≤ a.ncol :=
      ⟨hi, by omega, by omega, Int.ofNat_le.mpr hlen⟩
    exact ⟨_, if_pos hin, by simp [plain], fun _ _ => rfl⟩
  slice v start len _ := ⟨by simp [plain], fun _ _ => rfl⟩
  transpose _ := ⟨rfl, fun _ _ => rfl⟩
  column v := ⟨_, if_pos rfl, rfl, rfl, fun _ _ => rfl⟩

theorem exact_plain : (plain (id : α → α)).Exact where
  float64 _ := rfl
  dot _ _ h := if_pos h

end NdArray

end Monya.Lib
