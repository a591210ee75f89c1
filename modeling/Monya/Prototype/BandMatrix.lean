/-
  `BandMatrix` (`prototype/python/BandMatrix.py`): the diagonals of a matrix that are not zero,
  packed into the columns (`R`) or the rows (`C`) of a smaller array.

  numpy is a parameter (`Numpy`); what is proved uses its `Laws`. `np.zeros` makes arrays of
  `float64`, so the stores hold the numbers of the matrix as they are after that conversion.

  The loops of `_build_row_store_` and `_build_col_store_` give a line to the main diagonal and to
  each other diagonal that has something on it, in their order, and count the lines below (`l`) and
  above (`u`) the main one. `kept` lists the diagonals that take a line; `kept_main`, `kept_above`
  and `kept_below` say which line that is, in terms of ranks: diagonal `a` above the main one is in
  the line with as many lines between the two as there are diagonals between them that are not zero.

  `store` is one of the two letters; any other raises a `RuntimeError` and is left out.
-/
import Monya.Lib.Numpy
import Monya.Lib.Ranks

namespace Monya.Prototype

open Monya.Lib

inductive Store where
  | R
  | C
  deriving DecidableEq, Repr

structure BandMatrix {α : Type} (np : Numpy α) where
  m : Nat
  n : Nat
  l : Nat
  u : Nat
  nrow : Nat
  ncol : Nat
  store : Store
  data : np.Mat

namespace BandMatrix

variable {α : Type} {np : Numpy α}

/-- `range(-k + 1, k)`. -/
def diagIndexes (k : Nat) : List Int :=
  (List.range (2 * k - 1)).map fun i : Nat => (i : Int) + (-(k : Int) + 1)

/-- One pass of the loops that build the store, on the matrix and the next free line of `data`. The
    two loops write the lines with different assignments, and pad them at different ends. -/
def buildStep (put : np.Mat → Nat → np.Vec → Except Fault np.Mat)
    (padAbove padBelow : Nat → Nat × Nat) (mat : np.Mat) (s : BandMatrix np × Nat)
    (diagIndex : Int) : Except Fault (BandMatrix np × Nat) := do
  let (b, line) := s
  let d := np.diagonal mat diagIndex
  if diagIndex = 0 then
    let data ← if np.any d then put b.data line d else pure b.data
    return ({ b with data := data }, line + 1)
  else if np.any d then
    let padLen := b.n - np.len d
    if 0 < diagIndex then
      let data ← put b.data line (np.pad d (padAbove padLen).1 (padAbove padLen).2)
      return ({ b with u := b.u + 1, data := data }, line + 1)
    else
      let data ← put b.data line (np.pad d (padBelow padLen).1 (padBelow padLen).2)
      return ({ b with l := b.l + 1, data := data }, line + 1)
  else return (b, line)

/-- `(0, pad_len)`. -/
def padEnd (padLen : Nat) : Nat × Nat := (0, padLen)

/-- `(pad_len, 0)`. -/
def padFront (padLen : Nat) : Nat × Nat := (padLen, 0)

/-- `_build_row_store_`. -/
def buildRowStore (mat : np.Mat) (b : BandMatrix np) : Except Fault (BandMatrix np) := do
  let (b, _) ← (diagIndexes b.nrow).foldlM (buildStep np.setCol padEnd padFront mat) (b, 0)
  return b

/-- `_build_col_store_`. -/
def buildColStore (mat : np.Mat) (b : BandMatrix np) : Except Fault (BandMatrix np) := do
  let (b, _) ← (diagIndexes b.n).reverse.foldlM (buildStep np.setRow padFront padEnd mat) (b, 0)
  return b

/-- `__init__` and `_build_banded_`. -/
def new (np : Numpy α) (mat : np.Mat) (kl ku : Nat) (store : Store) :
    Except Fault (BandMatrix np) :=
  let m := np.nrow mat
  let n := np.ncol mat
  match store with
  | .C => buildColStore mat ⟨m, n, 0, 0, ku + kl + 1, n, .C, np.zeros (kl + ku + 1) n⟩
  | .R =>
      let nrow := np.len (np.diagonal mat 0)
      buildRowStore mat ⟨m, n, 0, 0, nrow, ku + kl + 1, .R, np.zeros nrow (kl + ku + 1)⟩

/-- `__getitem__`. -/
def getItem [Zero α] (b : BandMatrix np) (row col : Nat) : Except Fault α :=
  match b.store with
  | .C =>
      if (row : Int) ≥ max 1 ((col : Int) - b.u) ∧ (row : Int) ≤ min (b.m : Int) (col + b.l) then
        np.get b.data (b.u + row - col) col
      else .ok 0
  | .R =>
      let bCol : Int := b.l + col - row
      if bCol < 0 ∨ bCol > b.l + b.u then .ok 0 else np.get b.data row bCol

/-- The bounds that `__mul__` computes for row `i`: of the vector, and of a row of `data`. -/
structure Window where
  jstart : Int
  start : Int
  jstop : Int
  stop : Int
  deriving DecidableEq, Repr

def window (b : BandMatrix np) (i : Nat) : Window :=
  let jstart : Int := max 0 ((i : Int) - b.l)
  let jstop : Int := min (b.n : Int) (i + b.u + 1)
  ⟨jstart, jstart - i + b.l, jstop, jstop - i + b.l⟩

/-- One pass of the loop of `__mul__`. -/
def mulRow (b : BandMatrix np) (x : np.Vec) (res : np.Vec) (i : Nat) : Except Fault np.Vec := do
  let w := b.window i
  let row ← np.rowSlice b.data i w.start w.stop
  np.setEntry res i (← np.dot (np.transpose row) (np.slice x w.jstart w.jstop))

/-- `__mul__`. -/
def mul (b : BandMatrix np) (x : np.Vec) : Except Fault np.Mat :=
  match b.store with
  | .R => do
      let res ← (List.range b.n).foldlM (mulRow b x) (np.zerosVec b.n)
      np.column res b.n
  | .C => .error (.thrown "C storage matrix vector multiply")

/-! ## Diagonals -/

section Diagonals

variable [Zero α] [DecidableEq α] {G : Nat → Nat → α} {n : Nat}

/-- There is something on the diagonal `d + 1` above the main one. -/
def above (G : Nat → Nat → α) (n d : Nat) : Prop :=
  ∃ i, i < n - (d + 1) ∧ G i (i + (d + 1)) ≠ 0

/-- There is something on the diagonal `d + 1` below the main one. -/
def below (G : Nat → Nat → α) (n d : Nat) : Prop :=
  ∃ j, j < n - (d + 1) ∧ G (j + (d + 1)) j ≠ 0

instance (G : Nat → Nat → α) (n : Nat) : DecidablePred (above G n) := fun d =>
  inferInstanceAs (Decidable (∃ i, i < n - (d + 1) ∧ _))

instance (G : Nat → Nat → α) (n : Nat) : DecidablePred (below G n) := fun d =>
  inferInstanceAs (Decidable (∃ j, j < n - (d + 1) ∧ _))

/-- Nothing is outside the band of `lo` diagonals below the main one and `hi` above it. -/
def Banded (G : Nat → Nat → α) (n lo hi : Nat) : Prop :=
  ∀ i j, i < n → j < n → G i j ≠ 0 → i ≤ j + lo ∧ j ≤ i + hi

omit [DecidableEq α] in
theorem lt_of_above {lo hi a : Nat} (hband : Banded G n lo hi) (ha : above G n a) :
    a < hi ∧ a < n - 1 := by
  obtain ⟨i, hi, hne⟩ := ha
  have hle := (hband i (i + (a + 1)) (by omega) (by omega) hne).2
  omega

omit [DecidableEq α] in
theorem lt_of_below {lo hi a : Nat} (hband : Banded G n lo hi) (ha : below G n a) :
    a < lo ∧ a < n - 1 := by
  obtain ⟨j, hj, hne⟩ := ha
  have hle := (hband (j + (a + 1)) j (by omega) (by omega) hne).1
  omega

/-- Something is on diagonal `k`. -/
def nonzero (G : Nat → Nat → α) (n : Nat) (k : Int) : Prop :=
  ∃ i, i < n - k.natAbs ∧ G (i + (-k).toNat) (i + k.toNat) ≠ 0

instance (G : Nat → Nat → α) (n : Nat) : DecidablePred (nonzero G n) := fun k =>
  inferInstanceAs (Decidable (∃ i, i < n - k.natAbs ∧ _))

/-- The diagonals that take a line, of those that the loop has seen. -/
def kept (G : Nat → Nat → α) (n : Nat) (ks : List Int) : List Int :=
  ks.filter fun k => k = 0 ∨ nonzero G n k

theorem kept_snoc_of_pos {ks : List Int} {k : Int} (h : k = 0 ∨ nonzero G n k) :
    kept G n (ks ++ [k]) = kept G n ks ++ [k] := by
  rw [kept, List.filter_append, List.filter_cons_of_pos (by simpa using h), List.filter_nil]
  rfl

theorem kept_snoc_of_neg {ks : List Int} {k : Int} (h : ¬ (k = 0 ∨ nonzero G n k)) :
    kept G n (ks ++ [k]) = kept G n ks := by
  rw [kept, List.filter_append, List.filter_cons_of_neg (by simpa using h), List.filter_nil,
    List.append_nil]
  rfl

omit [DecidableEq α] in
theorem nonzero_above (d : Nat) : nonzero G n ((d : Int) + 1) ↔ above G n d := by
  have hcol : ((d : Int) + 1).toNat = d + 1 := by omega
  have hrow : (-((d : Int) + 1)).toNat = 0 := by omega
  have habs : ((d : Int) + 1).natAbs = d + 1 := by omega
  simp only [nonzero, above, hcol, hrow, habs, Nat.add_zero]

omit [DecidableEq α] in
theorem nonzero_below (d : Nat) : nonzero G n (-((d : Int) + 1)) ↔ below G n d := by
  have hcol : (-((d : Int) + 1)).toNat = 0 := by omega
  have hrow : (- -((d : Int) + 1)).toNat = d + 1 := by omega
  have habs : (-((d : Int) + 1)).natAbs = d + 1 := by omega
  simp only [nonzero, below, hcol, hrow, habs, Nat.add_zero]

theorem diagIndexes_succ (k : Nat) :
    diagIndexes (k + 1) = ((List.range k).map fun d : Nat => -((d : Int) + 1)).reverse ++
      0 :: (List.range k).map fun d : Nat => (d : Int) + 1 := by
  have hlen : 2 * (k + 1) - 1 = k + (1 + k) := by omega
  unfold diagIndexes
  rw [hlen, List.range_add, List.range_add]
  simp only [List.map_append, List.map_map, List.range_one, List.map_cons,
    List.singleton_append]
  refine congrArg₂ _ ?_ ?_
  · refine List.ext_getElem (by simp) fun i hi _ => ?_
    rw [List.length_map, List.length_range] at hi
    simp only [List.getElem_map, List.getElem_range, List.getElem_reverse, List.length_map,
      List.length_range]
    omega
  · refine congrArg₂ _ (by simp) (List.map_congr_left fun d _ => ?_)
    simp only [Function.comp_apply]
    omega

theorem diagIndexes_reverse (k : Nat) :
    (diagIndexes k).reverse = (diagIndexes k).map fun i => -i := by
  refine List.ext_getElem (by simp) fun i hi _ => ?_
  simp only [diagIndexes, List.length_reverse, List.length_map, List.length_range] at hi
  simp only [diagIndexes, List.getElem_reverse, List.getElem_map, List.getElem_range,
    List.length_map, List.length_range]
  omega

theorem kept_diagIndexes (k : Nat) :
    kept G n (diagIndexes (k + 1)) =
      (((List.range k).filter (below G n)).map fun d : Nat => -((d : Int) + 1)).reverse ++
        0 :: ((List.range k).filter (above G n)).map fun d : Nat => (d : Int) + 1 := by
  rw [diagIndexes_succ, kept, List.filter_append, List.filter_reverse, List.filter_map,
    List.filter_cons_of_pos (by simp), List.filter_map]
  have hbelow : ∀ d : Nat, (-((d : Int) + 1) = 0 ∨ nonzero G n (-((d : Int) + 1))) ↔
      below G n d := fun d => (or_iff_right (by omega)).trans (nonzero_below d)
  have habove : ∀ d : Nat, ((d : Int) + 1 = 0 ∨ nonzero G n ((d : Int) + 1)) ↔ above G n d :=
    fun d => (or_iff_right (by omega)).trans (nonzero_above d)
  simp only [Function.comp_def, hbelow, habove]

section Lines

variable {k a : Nat}

theorem length_kept_below (G : Nat → Nat → α) (n k : Nat) :
    (((List.range k).filter (below G n)).map fun d : Nat => -((d : Int) + 1)).reverse.length =
      Nat.count (below G n) k := by
  simp [length_filter_range]

theorem kept_main : (kept G n (diagIndexes (k + 1)))[Nat.count (below G n) k]? = some 0 := by
  have hlen := length_kept_below G n k
  rw [kept_diagIndexes, List.getElem?_append_right (by omega), hlen, Nat.sub_self]
  rfl

theorem kept_above (hak : a < k) (ha : above G n a) :
    (kept G n (diagIndexes (k + 1)))[Nat.count (below G n) k + (Nat.count (above G n) a + 1)]? =
      some ((a : Int) + 1) := by
  have hlen := length_kept_below G n k
  rw [kept_diagIndexes, List.getElem?_append_right (by omega), hlen, Nat.add_sub_cancel_left,
    List.getElem?_cons_succ, List.getElem?_map, (getElem?_filter_range _).mpr ⟨hak, ha, rfl⟩]
  rfl

theorem kept_below (hak : a < k) (ha : below G n a) :
    (kept G n (diagIndexes (k + 1)))[Nat.count (below G n) k - (Nat.count (below G n) a + 1)]? =
      some (-((a : Int) + 1)) := by
  have hlen := length_kept_below G n k
  have hlt := Nat.count_strict_mono ha hak
  have hidx : Nat.count (below G n) k - 1 -
      (Nat.count (below G n) k - (Nat.count (below G n) a + 1)) = Nat.count (below G n) a := by
    omega
  rw [kept_diagIndexes, List.getElem?_append_left (by omega),
    List.getElem?_reverse (by rw [← List.length_reverse]; omega), List.length_map,
    length_filter_range, hidx, List.getElem?_map, (getElem?_filter_range _).mpr ⟨hak, ha, rfl⟩]
  rfl

theorem length_kept : (kept G n (diagIndexes (k + 1))).length =
    Nat.count (below G n) k + (Nat.count (above G n) k + 1) := by
  simp [kept_diagIndexes, length_filter_range]

theorem neg_of_mem_below {xs : List Nat} {x : Int}
    (hx : x ∈ (xs.map fun d : Nat => -((d : Int) + 1)).reverse) : x < 0 := by
  obtain ⟨d, -, rfl⟩ := List.mem_map.mp (List.mem_reverse.mp hx)
  omega

theorem pos_of_mem_above {xs : List Nat} {x : Int}
    (hx : x ∈ xs.map fun d : Nat => (d : Int) + 1) : 0 < x := by
  obtain ⟨d, -, rfl⟩ := List.mem_map.mp hx
  omega

theorem countP_kept_neg :
    (kept G n (diagIndexes (k + 1))).countP (· < 0) = Nat.count (below G n) k := by
  rw [kept_diagIndexes, List.countP_append, List.countP_eq_length.mpr, length_kept_below,
    List.countP_cons_of_neg (by simp), List.countP_eq_zero.mpr, Nat.add_zero]
  · exact fun x hx => by simpa using (pos_of_mem_above hx).le
  · exact fun x hx => by simpa using neg_of_mem_below hx

theorem countP_kept_pos :
    (kept G n (diagIndexes (k + 1))).countP (0 < ·) = Nat.count (above G n) k := by
  rw [kept_diagIndexes, List.countP_append, List.countP_eq_zero.mpr, Nat.zero_add,
    List.countP_cons_of_neg (by simp), List.countP_eq_length.mpr, List.length_map,
    length_filter_range]
  · exact fun x hx => by simpa using pos_of_mem_above hx
  · exact fun x hx => by simpa using (neg_of_mem_below hx).le

end Lines

/-- The room that `kl` and `ku` make is enough for the lines. -/
theorem length_kept_le {lo hi : Nat} (hband : Banded G n lo hi) :
    (kept G n (diagIndexes n)).length ≤ lo + hi + 1 := by
  cases n with
  | zero => exact Nat.zero_le _
  | succ k =>
    have hl := count_le_of_forall_lt (below G (k + 1)) (fun a ha => (lt_of_below hband ha).1) k
    have hu := count_le_of_forall_lt (above G (k + 1)) (fun a ha => (lt_of_above hband ha).1) k
    rw [length_kept]
    omega

end Diagonals

end BandMatrix

end Monya.Prototype
