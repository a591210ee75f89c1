/-
  The part of numpy that programs over dense arrays use, as a parameter.

  `Numpy` has the operations, and what can be seen of an array: its shape, its numbers, and the
  conversion that an assignment into it makes (`cast`), which belongs to its dtype. Nothing is said
  about how arrays are kept. `α` is the type of all the numbers that occur; a dtype is known by its
  conversion only, and `float64` is that of `np.float64`.

  `Laws` are the hypotheses, each a sentence of numpy's documentation. They cover the calls that
  stay inside the arrays. What numpy does beyond (a negative index counts from the end, the bounds
  of a slice are moved into the array, a vector of length one is repeated) is left open, so a
  program that is proved right from the laws depends on none of it. `Exact` adds arithmetic without
  rounding.
-/
import Mathlib.Algebra.BigOperators.Group.Finset.Basic
import Monya.Lib.Heap

namespace Monya.Lib

structure Numpy (α : Type) where
  /-- arrays with two dimensions -/
  Mat : Type
  /-- arrays with one dimension -/
  Vec : Type
  -- what an array is
  nrow : Mat → Nat
  ncol : Mat → Nat
  cell : Mat → Nat → Nat → α
  cast : Mat → α → α
  len : Vec → Nat
  entry : Vec → Nat → α
  castVec : Vec → α → α
  /-- conversion to dtype `float64` -/
  float64 : α → α
  -- operations
  /-- `np.zeros((r, c))` -/
  zeros : Nat → Nat → Mat
  /-- `np.zeros(n)` -/
  zerosVec : Nat → Vec
  /-- `a[i, j]` -/
  get : Mat → Int → Int → Except Fault α
  /-- `a[:, j] = v` -/
  setCol : Mat → Nat → Vec → Except Fault Mat
  /-- `a[i] = v` -/
  setRow : Mat → Nat → Vec → Except Fault Mat
  /-- `v[i] = x` -/
  setEntry : Vec → Nat → α → Except Fault Vec
  /-- `a.diagonal(k)` -/
  diagonal : Mat → Int → Vec
  /-- `v.any()` -/
  any : Vec → Bool
  /-- `np.pad(v, (before, after), "constant", constant_values=0)` -/
  pad : Vec → Nat → Nat → Vec
  /-- `a[i, start:stop]` -/
  rowSlice : Mat → Nat → Int → Int → Except Fault Vec
  /-- `v[start:stop]` -/
  slice : Vec → Int → Int → Vec
  /-- `v.T` -/
  transpose : Vec → Vec
  /-- `np.dot(v, w)` -/
  dot : Vec → Vec → Except Fault α
  /-- `v.reshape(n, 1)` -/
  column : Vec → Nat → Except Fault Mat

namespace Numpy

variable {α : Type}

/-- Conversion to `float64` is rounding: it does nothing the second time, and only zero becomes
    zero. (The latter is so for integers and for floats of at most 64 bits.) -/
structure Laws [Zero α] (np : Numpy α) : Prop where
  float64_float64 : ∀ x, np.float64 (np.float64 x) = np.float64 x
  float64_eq_zero : ∀ x, np.float64 x = 0 ↔ x = 0
  /-- a new array of the given shape, of dtype `float64`, filled with zeros -/
  zeros : ∀ r c, np.nrow (np.zeros r c) = r ∧ np.ncol (np.zeros r c) = c ∧
    np.cast (np.zeros r c) = np.float64 ∧ ∀ i < r, ∀ j < c, np.cell (np.zeros r c) i j = 0
  zerosVec : ∀ n, np.len (np.zerosVec n) = n ∧ np.castVec (np.zerosVec n) = np.float64
  get : ∀ a (i j : Nat), i < np.nrow a → j < np.ncol a → np.get a i j = .ok (np.cell a i j)
  /-- the column gets the entries of a vector of its length, converted to the dtype of the array -/
  setCol : ∀ a j v, j < np.ncol a → np.len v = np.nrow a → ∃ a', np.setCol a j v = .ok a' ∧
    np.nrow a' = np.nrow a ∧ np.ncol a' = np.ncol a ∧ np.cast a' = np.cast a ∧
    ∀ r < np.nrow a, ∀ c < np.ncol a,
      np.cell a' r c = if c = j then np.cast a (np.entry v r) else np.cell a r c
  /-- the same for a row -/
  setRow : ∀ a i v, i < np.nrow a → np.len v = np.ncol a → ∃ a', np.setRow a i v = .ok a' ∧
    np.nrow a' = np.nrow a ∧ np.ncol a' = np.ncol a ∧ np.cast a' = np.cast a ∧
    ∀ r < np.nrow a, ∀ c < np.ncol a,
      np.cell a' r c = if r = i then np.cast a (np.entry v c) else np.cell a r c
  setEntry : ∀ v i x, i < np.len v → ∃ v', np.setEntry v i x = .ok v' ∧
    np.len v' = np.len v ∧ np.castVec v' = np.castVec v ∧
    ∀ k < np.len v, np.entry v' k = if k = i then np.castVec v x else np.entry v k
  /-- the cells with `col - row = k`, from the top -/
  diagonal : ∀ a k,
    np.len (np.diagonal a k) = min (np.nrow a - (-k).toNat) (np.ncol a - k.toNat) ∧
    ∀ i < np.len (np.diagonal a k),
      np.entry (np.diagonal a k) i = np.cell a (i + (-k).toNat) (i + k.toNat)
  any : ∀ v, np.any v = true ↔ ∃ i < np.len v, np.entry v i ≠ 0
  pad : ∀ v before after, np.len (np.pad v before after) = before + np.len v + after ∧
    ∀ i < before + np.len v + after, np.entry (np.pad v before after) i =
      if before ≤ i ∧ i < before + np.len v then np.entry v (i - before) else 0
  rowSlice : ∀ a i (start len : Nat), i < np.nrow a → start + len ≤ np.ncol a →
    ∃ v, np.rowSlice a i start ((start + len : Nat) : Int) = .ok v ∧ np.len v = len ∧
      ∀ k < len, np.entry v k = np.cell a i (start + k)
  slice : ∀ v (start len : Nat), start + len ≤ np.len v →
    np.len (np.slice v start ((start + len : Nat) : Int)) = len ∧
    ∀ k < len, np.entry (np.slice v start ((start + len : Nat) : Int)) k = np.entry v (start + k)
  /-- an array with one dimension is its own transpose -/
  transpose : ∀ v, np.len (np.transpose v) = np.len v ∧
    ∀ k < np.len v, np.entry (np.transpose v) k = np.entry v k
  column : ∀ v, ∃ a, np.column v (np.len v) = .ok a ∧ np.nrow a = np.len v ∧ np.ncol a = 1 ∧
    ∀ i < np.len v, np.cell a i 0 = np.entry v i

/-- Arithmetic without rounding. -/
structure Exact [Semiring α] (np : Numpy α) : Prop where
  float64 : ∀ x, np.float64 x = x
  dot : ∀ v w, np.len v = np.len w →
    np.dot v w = .ok (∑ k ∈ Finset.range (np.len v), np.entry v k * np.entry w k)

end Numpy

end Monya.Lib
