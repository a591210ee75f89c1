/-
  What the two stores of a `BandMatrix` (`prototype/python/BandMatrix.py`) give back.

  `__getitem__` looks for diagonal `k` in line `k` from that of the main one. The lines are packed,
  so the cell it reads is on the diagonal that came as number `k`, which is diagonal `k` only if no
  diagonal before it was left out. `rowStore_lossless_iff`: the row store gives the matrix back
  exactly if there is no such gap on either side and the numbers are `float64`s.

  The column store is read as the row store of the transpose, but for row 0 (`getItem_col`);
  `stores_agree_iff` compares the two. `mul_eq_sum` is the product with a vector.
-/
import Monya.Lib.Binary
import Monya.Lib.NdArray
import Monya.Prototype.BandStore

namespace Monya.Prototype

open Monya.Lib

namespace BandMatrix

variable {α : Type} [Zero α] [DecidableEq α] {np : Numpy α} {L : Loop np} {G : Nat → Nat → α}
  {n : Nat} {b : BandMatrix np}

/-! ## Looking up a diagonal by its number -/

/-- The number at place `p` of the line that is taken for diagonal `q - p`. -/
def slot (L : Loop np) (b : BandMatrix np) (p q : Nat) : α :=
  if p ≤ q + L.lo b ∧ q ≤ p + L.hi b then L.cell b.data (L.lo b + q - p) p else 0

namespace Stored

theorem slot_main (h : Stored L G n b) {p : Nat} (hp : p < n) : slot L b p p = G p p := by
  rw [slot, if_pos (by omega), Nat.add_sub_cancel, h.main p hp]

section Sides

variable {p e a : Nat}

theorem slot_above (h : Stored L G n b) (hp : p < n) (ha : above G n a)
    (he : Nat.count (above G n) a = e) :
    slot L b p (p + (e + 1)) = if p + (a + 1) < n then G p (p + (a + 1)) else 0 := by
  have hlt : e < L.hi b := by
    have hn : a < n - 1 := by
      obtain ⟨i, hi, -⟩ := ha
      omega
    rw [h.hi, ← he]
    exact Nat.count_strict_mono ha hn
  have hline : L.lo b + (p + (e + 1)) - p = L.lo b + (Nat.count (above G n) a + 1) := by omega
  rw [slot, if_pos (by omega), hline, h.up p hp a ha]

theorem slot_above_none (h : Stored L G n b)
    (hno : ∀ a, above G n a → Nat.count (above G n) a ≠ e) : slot L b p (p + (e + 1)) = 0 := by
  have hle : L.hi b ≤ e := by
    refine Nat.le_of_not_lt fun hlt => ?_
    rw [h.hi] at hlt
    obtain ⟨a, -, ha, he⟩ := exists_rank _ hlt
    exact hno a ha he
  rw [slot, if_neg (by omega)]

theorem slot_below (h : Stored L G n b) (hp : p + (e + 1) < n) (ha : below G n a)
    (he : Nat.count (below G n) a = e) :
    slot L b (p + (e + 1)) p = if a ≤ p + e then G (p + (e + 1)) (p + e - a) else 0 := by
  have hlt : e < L.lo b := by
    have hn : a < n - 1 := by
      obtain ⟨j, hj, -⟩ := ha
      omega
    rw [h.lo, ← he]
    exact Nat.count_strict_mono ha hn
  have hline : L.lo b + p - (p + (e + 1)) = L.lo b - (Nat.count (below G n) a + 1) := by omega
  rw [slot, if_pos (by omega), hline, h.down _ hp a ha]
  exact if_congr (by omega) (congrArg _ (by omega)) rfl

theorem slot_below_none (h : Stored L G n b)
    (hno : ∀ a, below G n a → Nat.count (below G n) a ≠ e) : slot L b (p + (e + 1)) p = 0 := by
  have hle : L.lo b ≤ e := by
    refine Nat.le_of_not_lt fun hlt => ?_
    rw [h.lo] at hlt
    obtain ⟨a, -, ha, he⟩ := exists_rank _ hlt
    exact hno a ha he
  rw [slot, if_neg (by omega)]

end Sides

/-- Without a gap every cell is found where it is looked for. -/
theorem slot_eq (h : Stored L G n b) (ha : Gapless (above G n)) (hb : Gapless (below G n))
    {p q : Nat} (hp : p < n) (hq : q < n) : slot L b p q = G p q := by
  rw [gapless_iff] at ha hb
  rcases lt_trichotomy p q with hpq | rfl | hpq
  · obtain ⟨e, rfl⟩ : ∃ e, q = p + (e + 1) := ⟨q - p - 1, by omega⟩
    by_cases he : above G n e
    · rw [h.slot_above hp he (ha e he), if_pos hq]
    · -- the diagonal is zero, and no other has its number
      have hzero : G p (p + (e + 1)) = 0 := by
        by_contra hne
        exact he ⟨p, by omega, hne⟩
      rw [hzero]
      exact h.slot_above_none fun a haa hrank => he (by rwa [← hrank, ha a haa])
  · exact h.slot_main hp
  · obtain ⟨e, rfl⟩ : ∃ e, p = q + (e + 1) := ⟨p - q - 1, by omega⟩
    by_cases he : below G n e
    · rw [h.slot_below hp he (hb e he), if_pos (Nat.le_add_left e q), Nat.add_sub_cancel]
    · have hzero : G (q + (e + 1)) q = 0 := by
        by_contra hne
        exact he ⟨q, by omega, hne⟩
      rw [hzero]
      exact h.slot_below_none fun a haa hrank => he (by rwa [← hrank, hb a haa])

/-- With gaps it is at least a cell of the matrix, or zero. -/
theorem slot_cases (h : Stored L G n b) {p : Nat} (hp : p < n) (q : Nat) :
    slot L b p q = 0 ∨ ∃ i j, slot L b p q = G i j := by
  rcases lt_trichotomy p q with hpq | rfl | hpq
  · obtain ⟨e, rfl⟩ : ∃ e, q = p + (e + 1) := ⟨q - p - 1, by omega⟩
    by_cases he : ∃ a, above G n a ∧ Nat.count (above G n) a = e
    · obtain ⟨a, ha, he⟩ := he
      rw [h.slot_above hp ha he]
      split
      · exact .inr ⟨_, _, rfl⟩
      · exact .inl rfl
    · exact .inl (h.slot_above_none fun a ha hrank => he ⟨a, ha, hrank⟩)
  · exact .inr ⟨p, p, h.slot_main hp⟩
  · obtain ⟨e, rfl⟩ : ∃ e, p = q + (e + 1) := ⟨p - q - 1, by omega⟩
    by_cases he : ∃ a, below G n a ∧ Nat.count (below G n) a = e
    · obtain ⟨a, ha, he⟩ := he
      rw [h.slot_below hp ha he]
      split
      · exact .inr ⟨_, _, rfl⟩
      · exact .inl rfl
    · exact .inl (h.slot_below_none fun a ha hrank => he ⟨a, ha, hrank⟩)

/-- A gap shows as a cell of a later diagonal. -/
theorem gapless_of_slot (h : Stored L G n b)
    (hslot : ∀ p q, p < n → q < n → slot L b p q = G p q) :
    Gapless (above G n) ∧ Gapless (below G n) := by
  refine ⟨gapless_of_rank _ fun a ha => ?_, gapless_of_rank _ fun a ha => ?_⟩
  · have hle := Nat.count_le (above G n) (n := a)
    obtain ⟨i, hi, hne⟩ := ha
    have hcell := h.slot_above (by omega) ⟨i, hi, hne⟩ rfl (p := i)
    rw [hslot i _ (by omega) (by omega), if_pos (by omega)] at hcell
    exact ⟨i, by omega, by rwa [hcell]⟩
  · have hle := Nat.count_le (below G n) (n := a)
    obtain ⟨j, hj, hne⟩ := ha
    -- the row that holds the cell, and the column where its rank puts it
    obtain ⟨c, hc⟩ : ∃ c, c + (Nat.count (below G n) a + 1) = j + (a + 1) :=
      ⟨j + a - Nat.count (below G n) a, by omega⟩
    have hcell := h.slot_below (by omega) ⟨j, hj, hne⟩ rfl (p := c)
    have hcol : c + Nat.count (below G n) a - a = j := by omega
    rw [hslot _ c (by omega) (by omega), if_pos (by omega), hcol, hc] at hcell
    exact ⟨c, by omega, by rwa [hc, hcell]⟩

end Stored

/-! ## `__getitem__` -/

section GetItem

variable {i j : Nat}

omit [DecidableEq α] in
theorem slot_row (b : BandMatrix np) (i j : Nat) : slot (rowLoop np) b i j =
    if i ≤ j + b.l ∧ j ≤ i + b.u then np.cell b.data i (b.l + j - i) else 0 := rfl

omit [DecidableEq α] in
theorem slot_col (b : BandMatrix np) (j i : Nat) : slot (colLoop np) b j i =
    if j ≤ i + b.u ∧ i ≤ j + b.l then np.cell b.data (b.u + i - j) j else 0 := rfl

theorem getItem_row (hnp : np.Laws) (hstore : b.store = .R) (h : Stored (rowLoop np) G n b)
    (hi : i < n) (j : Nat) : b.getItem i j = .ok (slot (rowLoop np) b i j) := by
  have hsize : np.nrow b.data = n := h.size
  have hroom : b.l + b.u < np.ncol b.data := h.room
  unfold getItem
  rw [hstore, slot_row]
  dsimp only
  by_cases hin : i ≤ j + b.l ∧ j ≤ i + b.u
  · have hcol : (b.l : Int) + j - i = ((b.l + j - i : Nat) : Int) := by omega
    rw [if_neg (by omega), if_pos hin, hcol, hnp.get _ _ _ (by omega) (by omega)]
  · rw [if_pos (by omega), if_neg hin]

/-- The guard of the column store is never met in row 0. -/
theorem getItem_col (hnp : np.Laws) (hm : b.m = n) (hstore : b.store = .C)
    (h : Stored (colLoop np) G n b) (hi : i < n) (hj : j < n) :
    b.getItem i j = .ok (if i = 0 then 0 else slot (colLoop np) b j i) := by
  have hsize : np.ncol b.data = n := h.size
  have hroom : b.u + b.l < np.nrow b.data := h.room
  unfold getItem
  rw [hstore, slot_col]
  dsimp only
  by_cases h0 : i = 0
  · rw [if_pos h0, if_neg (by omega)]
  · rw [if_neg h0]
    by_cases hin : j ≤ i + b.u ∧ i ≤ j + b.l
    · have hrow : (b.u : Int) + i - j = ((b.u + i - j : Nat) : Int) := by omega
      rw [if_pos (by omega), if_pos hin, hrow, hnp.get _ _ _ (by omega) (by omega)]
    · rw [if_neg (by omega), if_neg hin]

end GetItem

/-! ## The row store -/

section Gaps

variable (hnp : np.Laws) (mat : np.Mat) (n : Nat)

include hnp

omit [DecidableEq α] in
/-- Conversion does not change which diagonals are zero. -/
theorem above_stored : above (stored mat) n = above (np.cell mat) n := by
  funext d
  simp only [above, stored, ne_eq, hnp.float64_eq_zero]

omit [DecidableEq α] in
theorem below_stored : below (stored mat) n = below (np.cell mat) n := by
  funext d
  simp only [below, stored, ne_eq, hnp.float64_eq_zero]

end Gaps

/-- The row store gives back the matrix exactly if its numbers are `float64`s and no diagonal
    between the main one and one that is not zero is zero. -/
theorem rowStore_lossless_iff (np : Numpy α) (hnp : np.Laws) (mat : np.Mat)
    (hsq : np.nrow mat = np.ncol mat) (kl ku : Nat)
    (hband : Banded (np.cell mat) (np.ncol mat) kl ku) :
    ∃ b, new np mat kl ku .R = .ok b ∧
      ((∀ i j, i < np.ncol mat → j < np.ncol mat → b.getItem i j = .ok (np.cell mat i j)) ↔
        (∀ i j, i < np.ncol mat → j < np.ncol mat →
          np.float64 (np.cell mat i j) = np.cell mat i j) ∧
        Gapless (above (np.cell mat) (np.ncol mat)) ∧
        Gapless (below (np.cell mat) (np.ncol mat))) := by
  obtain ⟨b, hnew, ⟨-, -, hstore⟩, hb⟩ := new_row hnp hsq hband
  refine ⟨b, hnew, ?_⟩
  rw [← above_stored hnp, ← below_stored hnp]
  constructor
  · intro hget
    have hslot : ∀ i j, i < np.ncol mat → j < np.ncol mat →
        slot (rowLoop np) b i j = np.cell mat i j := fun i j hi hj =>
      Except.ok.inj ((getItem_row hnp hstore hb hi j).symm.trans (hget i j hi hj))
    have hfloat : ∀ i j, i < np.ncol mat → j < np.ncol mat →
        np.float64 (np.cell mat i j) = np.cell mat i j := by
      intro i j hi hj
      rw [← hslot i j hi hj]
      rcases hb.slot_cases hi j with h0 | ⟨i', j', h⟩
      · rw [h0, hnp.float64_eq_zero]
      · rw [h, stored, hnp.float64_float64]
    exact ⟨hfloat, hb.gapless_of_slot fun i j hi hj =>
      (hslot i j hi hj).trans (hfloat i j hi hj).symm⟩
  · rintro ⟨hfloat, hup, hdown⟩ i j hi hj
    rw [getItem_row hnp hstore hb hi, hb.slot_eq hup hdown hi hj, stored, hfloat i j hi hj]

/-- `float64` of 53 bits. -/
def binary64 : Numpy ℚ := NdArray.plain (Binary.round 53)

theorem binary64_laws : binary64.Laws :=
  NdArray.laws_plain
    (fun x => Binary.round_of_representable (by norm_num) (Binary.representable_round 53 x))
    fun _ => Binary.round_eq_zero_iff (by norm_num)

section Tridiagonal

/-- A matrix with three diagonals and a first row of zeros. -/
def tridiagonal (α : Type) [Semiring α] : NdArray α :=
  ⟨3, 3, id, fun i j => if i = 0 ∨ j + 2 ≤ i then 0 else ((3 * i + j + 1 : Nat) : α)⟩

theorem tridiagonal_banded (α : Type) [Semiring α] : Banded (tridiagonal α).cell 3 1 1 := by
  intro i j _ hj hne
  have hin : ¬ (i = 0 ∨ j + 2 ≤ i) := fun h => hne (if_pos h)
  omega

theorem tridiagonal_gapless (α : Type) [Semiring α] :
    Gapless (above (tridiagonal α).cell 3) ∧ Gapless (below (tridiagonal α).cell 3) := by
  refine ⟨fun a ha e he => ?_, fun a ha e he => ?_⟩
  · have hlt := (lt_of_above (tridiagonal_banded α) ha).1
    omega
  · have hlt := (lt_of_below (tridiagonal_banded α) ha).1
    omega

theorem tridiagonal_representable (i : Nat) {j : Nat} (hj : j < 3) :
    Representable 53 ((tridiagonal ℚ).cell i j) := by
  unfold tridiagonal
  dsimp only
  split
  · exact ⟨0, 0, by norm_num, by simp⟩
  · refine ⟨(3 * i + j + 1 : Nat), 0, ?_, by simp⟩
    rw [Nat.abs_cast]
    norm_cast
    omega

theorem rowStore_lossless_tridiagonal :
    ∃ b, new binary64 (tridiagonal ℚ) 1 1 .R = .ok b ∧
      ∀ i j, i < 3 → j < 3 → b.getItem i j = .ok ((tridiagonal ℚ).cell i j) := by
  obtain ⟨b, hnew, hiff⟩ := rowStore_lossless_iff binary64 binary64_laws (tridiagonal ℚ) rfl 1 1
    (tridiagonal_banded ℚ)
  exact ⟨b, hnew, hiff.mpr ⟨fun i j _ hj =>
    Binary.round_of_representable (by norm_num) (tridiagonal_representable i hj),
    tridiagonal_gapless ℚ⟩⟩

end Tridiagonal

/-- One cell, on the second diagonal above the main one. -/
def corner : NdArray Int := ⟨3, 3, id, fun i j => if i = 0 ∧ j = 2 then 1 else 0⟩

/-- The cell is found on the first diagonal, and not where it is. -/
theorem rowStore_corner :
    (NdArray.plain (id : Int → Int)).Laws ∧ Banded corner.cell 3 0 2 ∧
      ∃ b, new (NdArray.plain id) corner 0 2 .R = .ok b ∧
        b.getItem 0 1 = .ok 1 ∧ corner.cell 0 1 = 0 ∧
        b.getItem 0 2 = .ok 0 ∧ corner.cell 0 2 = 1 := by
  refine ⟨NdArray.laws_plain (fun _ => rfl) fun _ => Iff.rfl, fun i j _ _ hne => ?_, _, rfl, rfl,
    rfl, rfl, rfl⟩
  have hij : i = 0 ∧ j = 2 := by
    by_contra h
    exact hne (if_neg h)
  omega

/-! ## The column store -/

omit [DecidableEq α] in
/-- A vector that is its own shift by `d` is zero. -/
theorem eq_zero_of_shift {D : Nat → α} {N d : Nat} (hd : 0 < d)
    (h : ∀ i, i < N → D i = if d ≤ i then D (i - d) else 0) (i : Nat) (hi : i < N) : D i = 0 := by
  induction i using Nat.strong_induction_on with
  | _ i ih =>
    rw [h i hi]
    split
    · exact ih (i - d) (by omega) (by omega)
    · rfl

/-! With a gap the two stores shift a diagonal in different directions. -/

section Agree

variable {c : BandMatrix np} (hb : Stored (rowLoop np) G n b)
  (hc : Stored (colLoop np) (fun i j => G j i) n c)
  (hagree : ∀ i j, i < n → j < n →
    (if i = 0 then 0 else slot (colLoop np) c j i) = slot (rowLoop np) b i j)

include hb hc hagree

theorem gapless_above_of_agree : Gapless (above G n) := by
  rw [gapless_iff]
  intro a ha
  obtain ⟨r, hr, hne⟩ := ha
  have ha : above G n a := ⟨r, hr, hne⟩
  have hle := Nat.count_le (above G n) (n := a)
  by_contra hgap
  set e := Nat.count (above G n) a with he
  refine hne (eq_zero_of_shift (D := fun i => G i (i + (a + 1))) (N := n - (a + 1))
    (d := a - e) (by omega) (fun i hi => ?_) r (by omega))
  have hcell := hagree i (i + (e + 1)) (by omega) (by omega)
  rw [hb.slot_above (by omega) ha he.symm, hc.slot_below (by omega) ha he.symm,
    if_pos (show i + (a + 1) < n by omega)] at hcell
  by_cases h0 : i = 0
  · rw [if_pos h0] at hcell
    rw [if_neg (by omega)]
    exact hcell.symm
  · rw [if_neg h0] at hcell
    refine hcell.symm.trans (if_ctx_congr (by omega) (fun hin => ?_) fun _ => rfl)
    have hrow : i + e - a = i - (a - e) := by omega
    have hcol : i + (e + 1) = i - (a - e) + (a + 1) := by omega
    rw [hrow, hcol]

theorem gapless_below_of_agree : Gapless (below G n) := by
  rw [gapless_iff]
  intro a ha
  obtain ⟨r, hr, hne⟩ := ha
  have ha : below G n a := ⟨r, hr, hne⟩
  have hle := Nat.count_le (below G n) (n := a)
  by_contra hgap
  set e := Nat.count (below G n) a with he
  refine hne (eq_zero_of_shift (D := fun j => G (j + (a + 1)) j) (N := n - (a + 1))
    (d := a - e) (by omega) (fun j hj => ?_) r (by omega))
  have hcell := hagree (j + (e + 1)) j (by omega) (by omega)
  rw [if_neg (by omega), hb.slot_below (by omega) ha he.symm,
    hc.slot_above (by omega) ha he.symm, if_pos (show j + (a + 1) < n by omega)] at hcell
  refine hcell.trans (if_ctx_congr (by omega) (fun hin => ?_) fun _ => rfl)
  have hcol : j + e - a = j - (a - e) := by omega
  have hrow : j + (e + 1) = j - (a - e) + (a + 1) := by omega
  rw [hrow, hcol]

end Agree

/-- The two stores of a matrix agree exactly if its first row is zero and no diagonal between the
    main one and one that is not zero is zero. -/
theorem stores_agree_iff (np : Numpy α) (hnp : np.Laws) (mat : np.Mat)
    (hsq : np.nrow mat = np.ncol mat) (kl ku : Nat)
    (hband : Banded (np.cell mat) (np.ncol mat) kl ku) :
    ∃ b c, new np mat kl ku .R = .ok b ∧ new np mat kl ku .C = .ok c ∧
      ((∀ i j, i < np.ncol mat → j < np.ncol mat → c.getItem i j = b.getItem i j) ↔
        (∀ j, j < np.ncol mat → np.cell mat 0 j = 0) ∧
        Gapless (above (np.cell mat) (np.ncol mat)) ∧
        Gapless (below (np.cell mat) (np.ncol mat))) := by
  obtain ⟨b, hnew, ⟨-, -, hstore⟩, hb⟩ := new_row hnp hsq hband
  obtain ⟨c, hnew', ⟨hm, -, hstore'⟩, hc⟩ := new_col hnp hsq hband
  have hagree : (∀ i j, i < np.ncol mat → j < np.ncol mat → c.getItem i j = b.getItem i j) ↔
      ∀ i j, i < np.ncol mat → j < np.ncol mat →
        (if i = 0 then 0 else slot (colLoop np) c j i) = slot (rowLoop np) b i j := by
    refine forall₄_congr fun i j hi hj => ?_
    rw [getItem_col hnp (hm.trans hsq) hstore' hc hi hj, getItem_row hnp hstore hb hi,
      Except.ok.injEq]
  refine ⟨b, c, hnew, hnew', ?_⟩
  rw [hagree, ← above_stored hnp, ← below_stored hnp]
  constructor
  · intro h
    have hup := gapless_above_of_agree hb hc h
    have hdown := gapless_below_of_agree hb hc h
    refine ⟨fun j hj => ?_, hup, hdown⟩
    have hcell := h 0 j (by omega) hj
    rw [if_pos rfl, hb.slot_eq hup hdown (by omega) hj] at hcell
    exact (hnp.float64_eq_zero _).mp hcell.symm
  · rintro ⟨hfirst, hup, hdown⟩ i j hi hj
    rw [hb.slot_eq hup hdown hi hj]
    split
    · next h0 => rw [h0, stored, hfirst j hj, (hnp.float64_eq_zero 0).mpr rfl]
    · exact hc.slot_eq hdown hup hj hi

theorem stores_agree_tridiagonal :
    ∃ b c, new binary64 (tridiagonal ℚ) 1 1 .R = .ok b ∧
      new binary64 (tridiagonal ℚ) 1 1 .C = .ok c ∧
      ∀ i j, i < 3 → j < 3 → c.getItem i j = b.getItem i j := by
  obtain ⟨b, c, hb, hc, hiff⟩ := stores_agree_iff binary64 binary64_laws (tridiagonal ℚ) rfl 1 1
    (tridiagonal_banded ℚ)
  exact ⟨b, c, hb, hc, hiff.mpr ⟨fun _ _ => rfl, tridiagonal_gapless ℚ⟩⟩

def oneCell : NdArray Int := ⟨1, 1, id, fun _ _ => 1⟩

/-- The column store never finds the first row. -/
theorem stores_one_cell :
    (NdArray.plain (id : Int → Int)).Laws ∧ Banded oneCell.cell 1 0 0 ∧
      ∃ b c, new (NdArray.plain id) oneCell 0 0 .R = .ok b ∧
        new (NdArray.plain id) oneCell 0 0 .C = .ok c ∧
        b.getItem 0 0 = .ok 1 ∧ c.getItem 0 0 = .ok 0 := by
  refine ⟨NdArray.laws_plain (fun _ => rfl) fun _ => Iff.rfl, fun i j hi hj _ => ?_, _, _, rfl, rfl,
    rfl, rfl⟩
  omega

end BandMatrix

/-! ## The product with a vector -/

namespace BandMatrix

variable {α : Type} [Semiring α] [DecidableEq α] {np : Numpy α} {G : Nat → Nat → α} {n : Nat}
  {b : BandMatrix np}

/-- The bounds lie within the vector and within a row of `data`. -/
structure Window.Inside (w : Window) (b : BandMatrix np) : Prop where
  vec : 0 ≤ w.jstart ∧ w.jstart ≤ w.jstop ∧ w.jstop ≤ b.n
  row : 0 ≤ w.start ∧ w.start ≤ w.stop ∧ w.stop ≤ np.ncol b.data

/-- The window of row `i`: `k` columns from `jstart`, and from `start` in the row of `data`. -/
theorem window_eq (h : Stored (rowLoop np) G n b) (hn : b.n = n) {i : Nat} (hi : i < n) :
    ∃ jstart start k : Nat, b.window i = ⟨jstart, start, (jstart + k : Nat), (start + k : Nat)⟩ ∧
      jstart = i - b.l ∧ start + i = jstart + b.l ∧ jstart + k = min n (i + b.u + 1) := by
  have hroom : b.l + b.u < np.ncol b.data := h.room
  refine ⟨i - b.l, i - b.l + b.l - i, min n (i + b.u + 1) - (i - b.l), ?_, rfl, by omega, by omega⟩
  unfold window
  simp only [Window.mk.injEq, hn]
  omega

theorem window_inside (h : Stored (rowLoop np) G n b) (hn : b.n = n) {i : Nat} (hi : i < n) :
    (b.window i).Inside b := by
  have hroom : b.l + b.u < np.ncol b.data := h.room
  obtain ⟨jstart, start, k, hw, hj, hst, hk⟩ := window_eq h hn hi
  rw [hw]
  constructor <;> dsimp only <;> omega

/-- One pass: the window is all that `__getitem__` finds in the row. -/
theorem mulRow_eq (hnp : np.Laws) (hex : np.Exact) (h : Stored (rowLoop np) G n b) (hn : b.n = n)
    {x res : np.Vec} (hx : np.len x = n) {i : Nat} (hi : i < n) :
    b.mulRow x res i =
      np.setEntry res i (∑ j ∈ Finset.range n, slot (rowLoop np) b i j * np.entry x j) := by
  have hroom : b.l + b.u < np.ncol b.data := h.room
  have hsize : np.nrow b.data = n := h.size
  obtain ⟨js, st, k, hw, hj, hst, hk⟩ := window_eq h hn hi
  obtain ⟨row, hrow, hlen, hentry⟩ := hnp.rowSlice b.data i st k (by omega) (by omega)
  obtain ⟨hlen', hentry'⟩ := hnp.slice x js k (by omega)
  obtain ⟨hlenT, hentryT⟩ := hnp.transpose row
  unfold mulRow
  rw [hw]
  dsimp only
  rw [hrow, ok_bind, hex.dot _ _ (by omega), ok_bind, hlenT, hlen]
  congr 1
  have hout : ∀ j ∈ Finset.range n, j ∉ Finset.Ico js (js + k) →
      slot (rowLoop np) b i j * np.entry x j = 0 := by
    intro j hj hnot
    rw [Finset.mem_range] at hj
    rw [Finset.mem_Ico] at hnot
    rw [slot_row, if_neg (by omega), zero_mul]
  have hsub : Finset.Ico js (js + k) ⊆ Finset.range n := fun j hj => by
    rw [Finset.mem_Ico] at hj
    exact Finset.mem_range.mpr (by omega)
  rw [← Finset.sum_subset hsub hout, Finset.sum_Ico_eq_sum_range, Nat.add_sub_cancel_left]
  refine Finset.sum_congr rfl fun t ht => ?_
  rw [Finset.mem_range] at ht
  have hline : b.l + (js + t) - i = st + t := by omega
  rw [hentryT t (by omega), hentry t ht, hentry' t ht, slot_row, if_pos (by omega), hline]

/-- In exact arithmetic the product of a row store with a vector is the product of what
    `__getitem__` returns, and no slice leaves its array. -/
theorem mul_eq_sum (np : Numpy α) (hnp : np.Laws) (hex : np.Exact) (mat : np.Mat)
    (hsq : np.nrow mat = np.ncol mat) (kl ku : Nat)
    (hband : Banded (np.cell mat) (np.ncol mat) kl ku) :
    ∃ b, new np mat kl ku .R = .ok b ∧ (∀ i, i < np.ncol mat → (b.window i).Inside b) ∧
      ∀ x : np.Vec, np.len x = np.ncol mat → ∃ (v : Nat → Nat → α) (res : np.Mat),
        (∀ i j, i < np.ncol mat → j < np.ncol mat → b.getItem i j = .ok (v i j)) ∧
        b.mul x = .ok res ∧ np.nrow res = np.ncol mat ∧ np.ncol res = 1 ∧
        ∀ i, i < np.ncol mat →
          np.cell res i 0 = ∑ j ∈ Finset.range (np.ncol mat), v i j * np.entry x j := by
  obtain ⟨b, hnew, ⟨-, hn, hstore⟩, hb⟩ := new_row hnp hsq hband
  refine ⟨b, hnew, fun i hi => window_inside hb hn hi, fun x hx => ?_⟩
  -- after `i` passes the first `i` entries are there
  obtain ⟨vec, hrun, hlen, -, hentry⟩ := foldlM_range (mulRow b x) (np.ncol mat)
    (fun i (res : np.Vec) => np.len res = np.ncol mat ∧ np.castVec res = np.float64 ∧
      ∀ r, r < i → np.entry res r =
        ∑ j ∈ Finset.range (np.ncol mat), slot (rowLoop np) b r j * np.entry x j)
    (fun i res hi hres => by
      obtain ⟨hlen, hcast, hentry⟩ := hres
      obtain ⟨res', hset, hlen', hcast', hentry'⟩ := hnp.setEntry res i
        (∑ j ∈ Finset.range (np.ncol mat), slot (rowLoop np) b i j * np.entry x j) (by omega)
      refine ⟨res', (mulRow_eq hnp hex hb hn hx hi).trans hset, hlen'.trans hlen,
        hcast'.trans hcast, fun r hr => ?_⟩
      rw [hentry' r (by omega)]
      split
      · next hri => rw [hcast, hex.float64, hri]
      · exact hentry r (by omega))
    (s := np.zerosVec (np.ncol mat))
    ⟨(hnp.zerosVec _).1, (hnp.zerosVec _).2, fun r hr => absurd hr (Nat.not_lt_zero r)⟩
  obtain ⟨res, hcol, hrow, hone, hcell⟩ := hnp.column vec
  refine ⟨slot (rowLoop np) b, res, fun i j hi _ => getItem_row hnp hstore hb hi j, ?_,
    hrow.trans hlen, hone, fun i hi => ?_⟩
  · unfold mul
    rw [hstore, hn]
    dsimp only
    rw [hrun, ok_bind, ← hlen]
    exact hcol
  · rw [hcell i (by omega), hentry i hi]

theorem mul_tridiagonal :
    ∃ b, new (NdArray.plain (id : ℚ → ℚ)) (tridiagonal ℚ) 1 1 .R = .ok b ∧
      ∃ (v : Nat → Nat → ℚ) (res : NdArray ℚ),
        (∀ i j, i < 3 → j < 3 → b.getItem i j = .ok (v i j)) ∧
        b.mul ⟨3, id, fun i => i + 2⟩ = .ok res ∧
        res.cell 1 0 = v 1 0 * 2 + v 1 1 * 3 + v 1 2 * 4 := by
  obtain ⟨b, hnew, -, hmul⟩ := mul_eq_sum (NdArray.plain id)
    (NdArray.laws_plain (fun _ => rfl) fun _ => Iff.rfl) NdArray.exact_plain (tridiagonal ℚ) rfl 1 1
    (tridiagonal_banded ℚ)
  obtain ⟨v, res, hget, hres, -, -, hsum⟩ := hmul ⟨3, id, fun i => i + 2⟩ rfl
  refine ⟨b, hnew, v, res, hget, hres, (hsum 1 (by decide)).trans ?_⟩
  show ∑ j ∈ Finset.range 3, v 1 j * ((j : ℚ) + 2) = _
  norm_num [Finset.sum_range_succ]

end BandMatrix

end Monya.Prototype
