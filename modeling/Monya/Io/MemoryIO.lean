/-
  `MemoryIO` (`io/IO.hpp`): a matrix as one buffer, in row or column order.

  `get_row` and `get_col` hand out either a pointer into the buffer or a fresh array filled
  element by element; both are a `Buf`. `ofMatrix` lays a matrix out, and `getRow_ofMatrix` and
  `getCol_ofMatrix` say that the two layouts read the same. `write` puts the buffer into a file, as
  lines one after the other: the rows or the columns (`write_ofMatrix`).
-/
import Monya.Common.Types
import Monya.Lib.Stream

namespace Monya

open Monya.Lib

/-- A byte, padded to the size of a value. -/
def byteCodec : Codec UInt8 dtypeSize where
  encode x := [x, 0, 0, 0]
  decode bs := bs.headD 0
  length_encode _ := rfl
  decode_encode _ := rfl

structure MemoryIO (α : Type) where
  data : Buf α
  orientation : MatOrient
  /-- `dim.first`. -/
  nsamples : Nat
  /-- `dim.second`. -/
  nfeatures : Nat

namespace MemoryIO

variable {α : Type}

def getCol (io : MemoryIO α) (offset : Nat) : Except Fault (Buf α) :=
  match io.orientation with
  | .col => .ok fun i => io.data (offset * io.nsamples + i)
  | .row => do
      let tmp ← (List.range io.nsamples).mapM fun row => io.data.get (row * io.nfeatures + offset)
      return Buf.ofList tmp 0
  | _ => .error (.thrown "not_implemented_exception")

def getRow (io : MemoryIO α) (offset : Nat) : Except Fault (Buf α) :=
  match io.orientation with
  | .row => .ok fun i => io.data (offset * io.nfeatures + i)
  | .col => do
      let tmp ← (List.range io.nfeatures).mapM fun col => io.data.get (col * io.nsamples + offset)
      return Buf.ofList tmp 0
  | _ => .error (.thrown "not_implemented_exception")

/-- `write`, of the unit with the name `fn`. -/
def write (c : Codec α dtypeSize) (fn : String) (files : Files) (io : MemoryIO α) :
    Except Fault Files :=
  if fn = "" then .error .assertion
  else do
    let xs ← io.data.copy (io.nsamples * io.nfeatures)
    return Function.update files fn (some (c.encodeAll xs))

/-- The buffer that holds the `n × f` matrix `M` in row or column order. -/
def ofMatrix (M : Nat → Nat → α) (n f : Nat) (colwise : Bool) : MemoryIO α where
  data k :=
    if k < n * f then some (if colwise then M (k % n) (k / n) else M (k / f) (k % f)) else none
  orientation := if colwise then .col else .row
  nsamples := n
  nfeatures := f

section OfMatrix

variable {M : Nat → Nat → α} {n f : Nat}

theorem data_row {i j : Nat} (hi : i < n) (hj : j < f) :
    (ofMatrix M n f false).data (i * f + j) = some (M i j) := by
  have hlt : i * f + j < n * f := by
    have := Nat.mul_le_mul_right f (Nat.succ_le_of_lt hi)
    rw [Nat.succ_mul] at this
    omega
  have hf : 0 < f := by omega
  simp [ofMatrix, hlt, Nat.add_div_of_dvd_right, Nat.div_eq_of_lt hj, hf, Nat.mod_eq_of_lt hj]

theorem data_col {i j : Nat} (hi : i < n) (hj : j < f) :
    (ofMatrix M n f true).data (j * n + i) = some (M i j) := by
  have hlt : j * n + i < n * f := by
    have := Nat.mul_le_mul_right n (Nat.succ_le_of_lt hj)
    rw [Nat.succ_mul, Nat.mul_comm f n] at this
    omega
  have hn : 0 < n := by omega
  simp [ofMatrix, hlt, Nat.add_div_of_dvd_right, Nat.div_eq_of_lt hi, hn, Nat.mod_eq_of_lt hi]

theorem getCol_ofMatrix (colwise : Bool) {j : Nat} (hj : j < f) :
    ∃ p, (ofMatrix M n f colwise).getCol j = .ok p ∧ ∀ i, i < n → p i = some (M i j) := by
  cases colwise with
  | true => exact ⟨_, rfl, fun i hi => data_col hi hj⟩
  | false =>
    have hcopy : (List.range n).mapM (fun row => (ofMatrix M n f false).data.get (row * f + j)) =
        .ok ((List.range n).map fun i => M i j) :=
      mapM_ok fun i hi => Buf.get_ok (data_row (List.mem_range.mp hi) hj)
    refine ⟨Buf.ofList ((List.range n).map fun i => M i j) 0, ?_, fun i hi => ?_⟩
    · change (do
        let tmp ← (List.range n).mapM fun row => (ofMatrix M n f false).data.get (row * f + j)
        return Buf.ofList tmp 0) = _
      rw [hcopy]
      rfl
    · simp [Buf.ofList, hi]

theorem getRow_ofMatrix (colwise : Bool) {i : Nat} (hi : i < n) :
    ∃ p, (ofMatrix M n f colwise).getRow i = .ok p ∧ ∀ j, j < f → p j = some (M i j) := by
  cases colwise with
  | false => exact ⟨_, rfl, fun j hj => data_row hi hj⟩
  | true =>
    have hcopy : (List.range f).mapM (fun col => (ofMatrix M n f true).data.get (col * n + i)) =
        .ok ((List.range f).map fun j => M i j) :=
      mapM_ok fun j hj => Buf.get_ok (data_col hi (List.mem_range.mp hj))
    refine ⟨Buf.ofList ((List.range f).map fun j => M i j) 0, ?_, fun j hj => ?_⟩
    · change (do
        let tmp ← (List.range f).mapM fun col => (ofMatrix M n f true).data.get (col * n + i)
        return Buf.ofList tmp 0) = _
      rw [hcopy]
      rfl
    · simp [Buf.ofList, hj]

theorem write_ofMatrix (c : Codec α dtypeSize) (M : Nat → Nat → α) (n f : Nat) (colwise : Bool)
    {fn : String} (hfn : fn ≠ "") (files : Files) :
    (ofMatrix M n f colwise).write c fn files = .ok (Function.update files fn (some (c.encodeAll
      (if colwise then lines (fun j i => M i j) f n else lines M n f)))) := by
  have hcopy : (ofMatrix M n f colwise).data.copy (n * f) =
      .ok ((List.range (n * f)).map fun k =>
        if colwise then M (k % n) (k / n) else M (k / f) (k % f)) :=
    Buf.copy_ok fun k hk => if_pos hk
  unfold write
  rw [if_neg hfn]
  change ((ofMatrix M n f colwise).data.copy (n * f) >>= _) = _
  rw [hcopy, ok_bind, pure_ok]
  cases colwise with
  | false => rfl
  | true => rw [Nat.mul_comm]; rfl

/-- The entries of an `R × C` matrix, read down its columns and cut into rows of length `C`, are its
    rows. Only with one row or one column is that so for every matrix. -/
theorem recut_all_iff [Nontrivial α] (R C : Nat) :
    (∀ (M : Nat → Nat → α) (i j : Nat), i < C → j < R →
      M ((j * C + i) % R) ((j * C + i) / R) = M j i) ↔ R ≤ 1 ∨ C ≤ 1 := by
  constructor
  · intro h
    by_contra hne
    obtain ⟨hR, hC⟩ := not_or.mp hne
    obtain ⟨x, y, hxy⟩ := exists_pair_ne α
    -- the first entry of the second row is entry `C` of the buffer
    have h₁ : (if C % R = 1 ∧ C / R = 0 then x else y) = x := by
      simpa using h (fun i j => if i = 1 ∧ j = 0 then x else y) 0 1 (by omega) (by omega)
    have hplace : ¬ (C % R = 1 ∧ C / R = 0) := fun ⟨hmod, hdiv⟩ => by
      rw [Nat.mod_eq_of_lt ((Nat.div_eq_zero_iff.mp hdiv).resolve_left (by omega))] at hmod
      omega
    rw [if_neg hplace] at h₁
    exact hxy h₁.symm
  · rintro (hR | hC) M i j hi hj
    · obtain rfl : j = 0 := by omega
      obtain rfl : R = 1 := by omega
      rw [Nat.zero_mul, Nat.zero_add, Nat.mod_one, Nat.div_one]
    · obtain rfl : i = 0 := by omega
      obtain rfl : C = 1 := by omega
      rw [Nat.mul_one, Nat.add_zero, Nat.mod_eq_of_lt hj, Nat.div_eq_of_lt hj]

end OfMatrix

end MemoryIO

end Monya
