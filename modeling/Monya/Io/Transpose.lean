/-
  `MemoryIO::transpose` (`io/IO.hpp`).

  The two branches move the elements in the same way, and each then flips the orientation. In row
  order the move makes the column order of the same matrix, so with the sides swapped the buffer
  is read with the wrong stride; in column order the sides and the flip would have been enough.
  `transpose_ofMatrix` says which matrix is left in either case: the one that reads the `R × C`
  matrix in column order and cuts it into columns of length `C`. `transposes_iff` compares that
  matrix with the transposed one, and `transposes_all_iff` says for which shapes the two are always
  the same. On the buffer the second move undoes the first (`transpose_twice`).
-/
import Monya.Io.MemoryIO

namespace Monya.MemoryIO

open Monya.Lib

variable {α : Type}

/-- The loops that fill `tmp`, the same in both branches. -/
def moved (io : MemoryIO α) : Except Fault (Buf α) :=
  (List.range io.nsamples).foldlM (fun tmp row =>
    (List.range io.nfeatures).foldlM (fun tmp col => do
      let x ← io.data.get (row * io.nfeatures + col)
      tmp.put (io.nsamples * io.nfeatures) (col * io.nsamples + row) x) tmp) fun _ => none

def transpose (io : MemoryIO α) : Except Fault <| MemoryIO α := do
  match io.orientation with
  | .row =>
      let tmp ← io.moved
      return ⟨tmp, .col, io.nfeatures, io.nsamples⟩
  | _ =>
      let tmp ← io.moved
      return ⟨tmp, .row, io.nfeatures, io.nsamples⟩

/-! ## What the loops leave -/

section Moved

variable {R C : Nat} {d : Nat → α}

/-- Place `k` of `tmp` once its row is copied up to row `r`, and in row `r` up to column `c`. -/
def partOf (R C : Nat) (d : Nat → α) (r c : Nat) : Buf α := fun k =>
  if k < R * C ∧ (k % R < r ∨ k % R = r ∧ k / R < c) then some (d (k % R * C + k / R)) else none

theorem put_partOf {r c : Nat} (hr : r < R) (hc : c < C) :
    (partOf R C d r c).put (R * C) (c * R + r) (d (r * C + c)) =
      .ok (partOf R C d r (c + 1)) := by
  have hR : 0 < R := by omega
  have hlt : c * R + r < R * C := by
    have := Nat.mul_le_mul_right R (Nat.succ_le_of_lt hc)
    rw [Nat.succ_mul, Nat.mul_comm C R] at this
    omega
  have hmod : (c * R + r) % R = r := by
    rw [Nat.mul_comm, Nat.mul_add_mod, Nat.mod_eq_of_lt hr]
  have hdiv : (c * R + r) / R = c := by
    rw [Nat.mul_comm, Nat.mul_add_div hR, Nat.div_eq_of_lt hr, Nat.add_zero]
  unfold Buf.put
  rw [if_pos hlt]
  congr 1
  funext k
  rcases eq_or_ne k (c * R + r) with rfl | hk
  · rw [Function.update_self, partOf, hmod, hdiv, if_pos ⟨hlt, Or.inr ⟨rfl, Nat.lt_succ_self c⟩⟩]
  · -- no other place has this row and this column
    have hne : ¬ (k % R = r ∧ k / R = c) := by
      rintro ⟨rfl, rfl⟩
      exact hk (by rw [Nat.mul_comm, Nat.div_add_mod])
    rw [Function.update_of_ne hk]
    unfold partOf
    congr 1
    simp only [eq_iff_iff]
    constructor
    · rintro ⟨h₁, h₂ | ⟨h₂, h₃⟩⟩
      · exact ⟨h₁, Or.inl h₂⟩
      · exact ⟨h₁, Or.inr ⟨h₂, by omega⟩⟩
    · rintro ⟨h₁, h₂ | ⟨h₂, h₃⟩⟩
      · exact ⟨h₁, Or.inl h₂⟩
      · have : k / R ≠ c := fun he => hne ⟨h₂, he⟩
        exact ⟨h₁, Or.inr ⟨h₂, by omega⟩⟩

theorem partOf_row_end {r : Nat} : partOf R C d r C = partOf R C d (r + 1) 0 := by
  funext k
  unfold partOf
  congr 1
  simp only [eq_iff_iff]
  constructor
  · rintro ⟨h₁, h₂⟩
    exact ⟨h₁, Or.inl (by omega)⟩
  · rintro ⟨h₁, h₂ | h₂⟩
    · have : k / R < C := Nat.div_lt_of_lt_mul h₁
      exact ⟨h₁, by omega⟩
    · exact absurd h₂.2 (Nat.not_lt_zero _)

/-- The loops put element `(row, col)` at `col * R + row`. -/
theorem moved_ok {io : MemoryIO α} (hR : io.nsamples = R) (hC : io.nfeatures = C)
    (hd : ∀ k, k < R * C → io.data k = some (d k)) :
    io.moved = .ok fun k => if k < R * C then some (d (k % R * C + k / R)) else none := by
  have hrow : ∀ r, r < R → (List.range C).foldlM (fun tmp col => do
      let x ← io.data.get (r * C + col)
      tmp.put (R * C) (col * R + r) x) (partOf R C d r 0) = .ok (partOf R C d (r + 1) 0) := by
    intro r hr
    obtain ⟨tmp, hrun, rfl⟩ := foldlM_range (fun (tmp : Buf α) col => do
        let x ← io.data.get (r * C + col)
        tmp.put (R * C) (col * R + r) x) C (fun c tmp => tmp = partOf R C d r c)
      (fun c tmp hc htmp => by
        have hlt : r * C + c < R * C := by
          have := Nat.mul_le_mul_right C (Nat.succ_le_of_lt hr)
          rw [Nat.succ_mul] at this
          omega
        refine ⟨_, ?_, rfl⟩
        rw [htmp, Buf.get_ok (hd _ hlt), ok_bind, put_partOf hr hc]) rfl
    rw [hrun, partOf_row_end]
  have hinit : (fun _ => none : Buf α) = partOf R C d 0 0 := by
    funext k
    simp [partOf]
  obtain ⟨tmp, hrun, rfl⟩ := foldlM_range (fun (tmp : Buf α) row =>
      (List.range C).foldlM (fun tmp col => do
        let x ← io.data.get (row * C + col)
        tmp.put (R * C) (col * R + row) x) tmp) R (fun r tmp => tmp = partOf R C d r 0)
    (fun r tmp hr htmp => ⟨_, by rw [htmp]; exact hrow r hr, rfl⟩) hinit
  unfold moved
  rw [hR, hC, hrun]
  congr 1
  funext k
  unfold partOf
  congr 1
  simp only [eq_iff_iff, and_iff_left_iff_imp]
  intro hk
  exact Or.inl (Nat.mod_lt k (Nat.pos_of_ne_zero fun h0 => by simp [h0] at hk))

/-- Either branch: the elements moved, the orientation flipped and the sides swapped. -/
theorem transpose_ok {io : MemoryIO α} (hR : io.nsamples = R) (hC : io.nfeatures = C)
    (hd : ∀ k, k < R * C → io.data k = some (d k)) :
    io.transpose = .ok ⟨fun k => if k < R * C then some (d (k % R * C + k / R)) else none,
      if io.orientation = .row then .col else .row, C, R⟩ := by
  unfold transpose
  rw [moved_ok hR hC hd]
  cases io.orientation <;> simp [ok_bind, pure_ok, hR, hC]

end Moved

/-! ## Twice -/

theorem place_div {a b n : Nat} (hb : b < n) : (a * n + b) / n = a := by
  rw [Nat.mul_comm, Nat.mul_add_div (Nat.zero_lt_of_lt hb), Nat.div_eq_of_lt hb, Nat.add_zero]

theorem place_mod {a b n : Nat} (hb : b < n) : (a * n + b) % n = b := by
  rw [Nat.mul_comm, Nat.mul_add_mod, Nat.mod_eq_of_lt hb]

/-- Element `(row, col)` of one buffer is element `(col, row)` of the other. -/
theorem place_twice {R C k : Nat} (hk : k < R * C) :
    (k % C * R + k / C) % R * C + (k % C * R + k / C) / R = k := by
  have hR : k / C < R := Nat.div_lt_of_lt_mul (by rwa [Nat.mul_comm])
  rw [place_mod hR, place_div hR, Nat.mul_comm, Nat.div_add_mod]

/-- A second `transpose` undoes the first: the buffer `d`, the shape and the orientation are as they
    were. -/
theorem transpose_twice {io : MemoryIO α} {d : Nat → α}
    (hd : ∀ k, k < io.nsamples * io.nfeatures → io.data k = some (d k))
    (horient : io.orientation = .row ∨ io.orientation = .col) :
    ∃ io₁ io₂, io.transpose = .ok io₁ ∧ io₁.transpose = .ok io₂ ∧
      (∀ k, k < io.nsamples * io.nfeatures → io₂.data k = io.data k) ∧
      io₂.nsamples = io.nsamples ∧ io₂.nfeatures = io.nfeatures ∧
      io₂.orientation = io.orientation := by
  have h₁ := transpose_ok rfl rfl hd
  have hd₁ : ∀ k, k < io.nfeatures * io.nsamples →
      (if k < io.nsamples * io.nfeatures then
        some (d (k % io.nsamples * io.nfeatures + k / io.nsamples)) else none) =
      some (d (k % io.nsamples * io.nfeatures + k / io.nsamples)) := by
    intro k hk
    rw [if_pos (by rwa [Nat.mul_comm])]
  refine ⟨_, _, h₁, transpose_ok rfl rfl hd₁, fun k hk => ?_, rfl, rfl, ?_⟩
  · rw [hd k hk]
    simp only
    rw [if_pos (by rwa [Nat.mul_comm]), place_twice hk]
  · rcases horient with h | h
    · simp [h]
    · simp [h]

/-- A buffer of six numbers. -/
def sixCells : MemoryIO Nat := ⟨fun k => some k, .col, 2, 3⟩

theorem transpose_twice_six :
    ∃ io₁ io₂, sixCells.transpose = .ok io₁ ∧ io₁.transpose = .ok io₂ ∧
      (∀ k, k < 6 → io₂.data k = some k) ∧ io₂.orientation = .col := by
  have hd : ∀ k, k < sixCells.nsamples * sixCells.nfeatures → sixCells.data k = some k :=
    fun _ _ => rfl
  have horient : sixCells.orientation = .row ∨ sixCells.orientation = .col := Or.inr rfl
  obtain ⟨io₁, io₂, h₁, h₂, hdata, -, -, hback⟩ := transpose_twice hd horient
  exact ⟨io₁, io₂, h₁, h₂, hdata, hback⟩

/-! ## The matrix that is left -/

section OfMatrix

variable {M : Nat → Nat → α} {R C : Nat}

/-- The `C × R` matrix with the `R × C` matrix `M` in its columns, read down the columns of `M`. -/
def restride (M : Nat → Nat → α) (R C : Nat) : Nat → Nat → α := fun i j =>
  M ((j * C + i) % R) ((j * C + i) / R)

theorem transpose_ofMatrix (M : Nat → Nat → α) (R C : Nat) (colwise : Bool) :
    (ofMatrix M R C colwise).transpose = .ok (ofMatrix (restride M R C) C R (!colwise)) := by
  rw [transpose_ok (R := R) (C := C) rfl rfl
    (d := fun k => if colwise then M (k % R) (k / R) else M (k / C) (k % C)) fun k hk => if_pos hk]
  have hdata : (fun k => if k < R * C then some (if colwise then
      M ((k % R * C + k / R) % R) ((k % R * C + k / R) / R) else
      M ((k % R * C + k / R) / C) ((k % R * C + k / R) % C)) else none) =
      (ofMatrix (restride M R C) C R (!colwise)).data := by
    funext k
    unfold ofMatrix restride
    rw [Nat.mul_comm C R]
    refine ite_congr rfl (fun hk => congrArg some ?_) fun _ => rfl
    cases colwise with
    | true => rfl
    | false =>
      -- row order: the buffer has the columns one after the other
      have hC : k / R < C := Nat.div_lt_of_lt_mul hk
      have hk' : k / C * C + k % C = k := by rw [Nat.mul_comm, Nat.div_add_mod]
      simp [place_div hC, place_mod hC, hk']
  rw [hdata]
  cases colwise <;> rfl

/-- The row that a caller of `get_row` reads. -/
def row (io : MemoryIO α) (i : Nat) : Except Fault (List α) := do
  (← io.getRow i).copy io.nfeatures

/-- The column that a caller of `get_col` reads. -/
def col (io : MemoryIO α) (j : Nat) : Except Fault (List α) := do
  (← io.getCol j).copy io.nsamples

theorem row_ofMatrix (colwise : Bool) {i : Nat} (hi : i < R) :
    (ofMatrix M R C colwise).row i = .ok ((List.range C).map (M i)) := by
  obtain ⟨p, hp, hget⟩ := getRow_ofMatrix (M := M) (f := C) colwise hi
  unfold row
  rw [hp, ok_bind]
  exact Buf.copy_ok hget

theorem col_ofMatrix (colwise : Bool) {j : Nat} (hj : j < C) :
    (ofMatrix M R C colwise).col j = .ok ((List.range R).map fun i => M i j) := by
  obtain ⟨p, hp, hget⟩ := getCol_ofMatrix (M := M) (n := R) colwise hj
  unfold col
  rw [hp, ok_bind]
  exact Buf.copy_ok hget

/-- `io'` has the rows of `io` as its columns and the columns of `io` as its rows. -/
structure Transposes (io io' : MemoryIO α) : Prop where
  shape : io'.nsamples = io.nfeatures ∧ io'.nfeatures = io.nsamples
  rows : ∀ i, i < io.nfeatures → io'.row i = io.col i
  cols : ∀ j, j < io.nsamples → io'.col j = io.row j

theorem transposes_restride_iff (M : Nat → Nat → α) (R C : Nat) (colwise : Bool) :
    Transposes (ofMatrix M R C colwise) (ofMatrix (restride M R C) C R (!colwise)) ↔
      ∀ i j, i < C → j < R → M ((j * C + i) % R) ((j * C + i) / R) = M j i := by
  constructor
  · intro ht i j hi hj
    have hrow := ht.rows i hi
    rw [row_ofMatrix _ hi, col_ofMatrix _ hi] at hrow
    exact List.map_inj_left.mp (Except.ok.inj hrow) j (List.mem_range.mpr hj)
  · intro h
    refine ⟨⟨rfl, rfl⟩, fun i (hi : i < C) => ?_, fun j (hj : j < R) => ?_⟩
    · rw [row_ofMatrix _ hi, col_ofMatrix _ hi]
      exact congrArg _ (List.map_congr_left fun j hj => h i j hi (List.mem_range.mp hj))
    · rw [row_ofMatrix _ hj, col_ofMatrix _ hj]
      exact congrArg _ (List.map_congr_left fun i hi => h i j (List.mem_range.mp hi) hj)

/-- After `transpose` the unit holds the transposed matrix exactly if the two ways to cut the
    columns of the matrix into pieces, of length `R` and of length `C`, give the same entries. -/
theorem transposes_iff (M : Nat → Nat → α) (R C : Nat) (colwise : Bool) :
    (∃ io', (ofMatrix M R C colwise).transpose = .ok io' ∧
      Transposes (ofMatrix M R C colwise) io') ↔
    ∀ i j, i < C → j < R → M ((j * C + i) % R) ((j * C + i) / R) = M j i := by
  rw [transpose_ofMatrix, ← transposes_restride_iff M R C colwise]
  constructor
  · rintro ⟨io', hio, ht⟩
    obtain rfl := Except.ok.inj hio
    exact ht
  · intro ht
    exact ⟨_, rfl, ht⟩

/-- `transpose` is right for every matrix of a shape exactly if that is one row or one column. -/
theorem transposes_all_iff [Nontrivial α] (R C : Nat) (colwise : Bool) :
    (∀ M : Nat → Nat → α, ∃ io', (ofMatrix M R C colwise).transpose = .ok io' ∧
      Transposes (ofMatrix M R C colwise) io') ↔ R ≤ 1 ∨ C ≤ 1 := by
  rw [← recut_all_iff (α := α)]
  refine forall_congr' fun M => ?_
  simp only [transpose_ofMatrix, Except.ok.injEq, exists_eq_left', transposes_restride_iff]

/-- The matrix with the rows `0 1` and `2 3`. Row 1 of what `transpose` leaves is `2 3`, where
    column 1 was `1 3`. -/
theorem transpose_square_rows :
    ¬ ∃ io', (ofMatrix (fun i j => 2 * i + j) 2 2 false).transpose = .ok io' ∧
      Transposes (ofMatrix (fun i j => 2 * i + j) 2 2 false) io' := by
  rintro ⟨io', hio, ht⟩
  rw [transpose_ofMatrix] at hio
  obtain rfl := Except.ok.inj hio
  have hrow := ht.rows 1 (by decide)
  rw [row_ofMatrix _ (by decide), col_ofMatrix _ (by decide)] at hrow
  exact absurd (Except.ok.inj hrow) (by decide)

end OfMatrix

end Monya.MemoryIO
