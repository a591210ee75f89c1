/-
  The `MemoryIO` object (`io/IO.hpp`): its name, shape, orientation and data, the setters that only
  take the first value they are given, and `from_file`.

  `view` is what `get_row` and `get_col` see of it. `from_file` on an `fvecs` file puts the vectors
  into the buffer one after the other, and takes no notice of the orientation. Read column by
  column, the buffer is another matrix (`colwiseView`), so with `COL` the samples come out right
  only where the two matrices are the same (`fvecs_samples_iff`). That is so for every file with one
  vector, or with vectors of one component, and for no other shape (`fvecs_samples_all_iff`).
-/
import Monya.Io.MemoryIO
import Monya.Io.VecsReader

namespace Monya

open Monya.Lib

/-- `utils::get_file_ext`: what follows the last dot. -/
def getFileExt (s : String) : String :=
  if '.' ∈ s.toList then String.ofList (s.toList.reverse.takeWhile (· ≠ '.')).reverse else ""

structure MemoryUnit (α : Type) where
  fn : String
  /-- `NULL` until there is a buffer. -/
  data : Option (Buf α)
  orientation : MatOrient
  dim : Nat × Nat
  isDataLocal : Bool

namespace MemoryUnit

variable {α : Type}

/-- `MemoryIO()`. -/
def new : MemoryUnit α := ⟨"", none, .invalid, (0, 0), false⟩

/-- A field that is set only while it has the value `unset`. -/
def setOnce {β : Type} [DecidableEq β] (unset old new : β) : β := if old = unset then new else old

def setFn (fn : String) (u : MemoryUnit α) : MemoryUnit α := { u with fn := setOnce "" u.fn fn }

def setOrientation (orient : MatOrient) (u : MemoryUnit α) : MemoryUnit α :=
  { u with orientation := setOnce .invalid u.orientation orient }

/-- `shape(dim)`. -/
def setShape (dim : Nat × Nat) (u : MemoryUnit α) : MemoryUnit α :=
  { u with dim := setOnce (0, 0) u.dim dim }

/-- The memory that `from_file` fills. -/
def load (junk : IntBytes) (fn : String) (dim : Nat × Nat) (bytes : List UInt8) :
    Except Fault Raw :=
  let buf := Raw.blank (dim.1 * dim.2 * dtypeSize)
  if getFileExt fn = "fvecs" then fvecsRead junk dim.1 dim.2 buf (.opened bytes)
  else .ok (buf.fill 0 ((FStream.opened bytes).read (dim.1 * dim.2 * dtypeSize)).1)

def fromFile (c : Codec α dtypeSize) (junk : IntBytes) (files : Files) (u : MemoryUnit α) :
    Except Fault (MemoryUnit α) :=
  if u.data.isSome then .ok u
  else if u.fn = "" then .error .assertion
  else
    match files u.fn with
    | none => .error (.thrown ("Failure to open file: '" ++ u.fn ++ "'\n"))
    | some bytes => do
        let raw ← load junk u.fn u.dim bytes
        return { u with data := some (c.elem raw), isDataLocal := true }

def destroy (u : MemoryUnit α) : MemoryUnit α :=
  if u.data.isSome && u.isDataLocal then { u with data := none } else u

/-- What `get_row` and `get_col` read. -/
def view (u : MemoryUnit α) : MemoryIO α :=
  ⟨u.data.getD fun _ => none, u.orientation, u.dim.1, u.dim.2⟩

/-! ## Samples from an `fvecs` file -/

section Samples

open MemoryIO (ofMatrix)

variable (c : Codec α dtypeSize) (junk : IntBytes) (V : Nat → Nat → α) {n d : Nat}

/-- The buffer of the vectors in order, read column by column. -/
def colwiseView (V : Nat → Nat → α) (n d i j : Nat) : α := V ((j * n + i) / d) ((j * n + i) % d)

/-- The buffer of the vectors in order. -/
theorem lines_eq_ofMatrix (V : Nat → Nat → α) (n d : Nat) (colwise : Bool) :
    (fun k => (lines V n d)[k]?) =
      (ofMatrix (if colwise then colwiseView V n d else V) n d colwise).data := by
  funext k
  unfold ofMatrix lines
  rw [List.getElem?_map]
  rcases Nat.lt_or_ge k (n * d) with hk | hk
  · rw [List.getElem?_range hk, Option.map_some]
    simp only [if_pos hk]
    cases colwise with
    | false => rfl
    | true =>
      simp only [if_true, colwiseView]
      rw [Nat.mul_comm (k / n) n, Nat.div_add_mod]
  · rw [List.getElem?_eq_none (by simpa using hk), Option.map_none]
    simp only [if_neg (Nat.not_lt.mpr hk)]

/-- The rows and the columns of `u` are those of `V`. -/
def Holds (u : MemoryUnit α) (V : Nat → Nat → α) (n d : Nat) : Prop :=
  (∀ i, i < n → ∃ p, u.view.getRow i = .ok p ∧ ∀ j, j < d → p j = some (V i j)) ∧
    ∀ j, j < d → ∃ p, u.view.getCol j = .ok p ∧ ∀ i, i < n → p i = some (V i j)

theorem holds_ofMatrix_iff {u : MemoryUnit α} {M : Nat → Nat → α} {colwise : Bool}
    (hu : u.view = .ofMatrix M n d colwise) :
    u.Holds V n d ↔ ∀ i j, i < n → j < d → M i j = V i j := by
  unfold Holds
  rw [hu]
  constructor
  · rintro ⟨hrows, -⟩ i j hi hj
    obtain ⟨p, hp, hval⟩ := hrows i hi
    obtain ⟨q, hq, hval'⟩ := MemoryIO.getRow_ofMatrix (M := M) (f := d) colwise hi
    cases hp.symm.trans hq
    exact Option.some.inj ((hval' j hj).symm.trans (hval j hj))
  · intro h
    refine ⟨fun i hi => ?_, fun j hj => ?_⟩
    · obtain ⟨p, hp, hval⟩ := MemoryIO.getRow_ofMatrix (M := M) (f := d) colwise hi
      exact ⟨p, hp, fun j hj => by rw [hval j hj, h i j hi hj]⟩
    · obtain ⟨p, hp, hval⟩ := MemoryIO.getCol_ofMatrix (M := M) (n := n) colwise hj
      exact ⟨p, hp, fun i hi => by rw [hval i hi, h i j hi hj]⟩

/-- `from_file` on the file of the vectors `V`, with either orientation. -/
theorem fromFile_fvecs (n d : Nat) (colwise : Bool) {fn : String}
    (hext : getFileExt fn = "fvecs") {files : Files}
    (hfile : files fn = some (fvecsBytes c V n d)) :
    ∃ u, fromFile c junk files (((new.setFn fn).setOrientation
        (if colwise then .col else .row)).setShape (n, d)) = .ok u ∧
      u.view = .ofMatrix (if colwise then colwiseView V n d else V) n d colwise := by
  have hne : fn ≠ "" := by
    rintro rfl
    exact absurd hext (by decide)
  have hload : load junk fn (n, d) (fvecsBytes c V n d) =
      .ok ((c.encodeAll (lines V n d)).map some) := by
    have hahead : (FStream.opened (fvecsBytes c V n d)).bytes.drop 0 =
        fvecsBytes c V n d ++ [] := by
      rw [List.append_nil]
      rfl
    unfold load
    rw [if_pos hext]
    exact fvecsRead_ok junk n d rfl hahead
  refine ⟨⟨fn, some (c.elem ((c.encodeAll (lines V n d)).map some)),
    if colwise then .col else .row, (n, d), true⟩, ?_, ?_⟩
  · simp only [fromFile, new, setFn, setOrientation, setShape, setOnce, if_true, Option.isSome_none,
      Bool.false_eq_true, if_false, hne, hfile, hload, ok_bind]
    rfl
  · simp only [view, Option.getD_some]
    rw [c.elem_encodeAll_eq (by decide), lines_eq_ofMatrix V n d colwise]
    rfl

/-- After `from_file` on the file of the vectors `V`, with either orientation, the rows are the
    vectors and the columns their components exactly if the orientation is `ROW`, or the vectors
    read the same when they are taken for columns. -/
theorem fvecs_samples_iff (n d : Nat) (colwise : Bool) {fn : String}
    (hext : getFileExt fn = "fvecs") {files : Files}
    (hfile : files fn = some (fvecsBytes c V n d)) :
    ∃ u, fromFile c junk files (((new.setFn fn).setOrientation
        (if colwise then .col else .row)).setShape (n, d)) = .ok u ∧
      (u.Holds V n d ↔ colwise = false ∨
        ∀ i j, i < n → j < d → V ((j * n + i) / d) ((j * n + i) % d) = V i j) := by
  obtain ⟨u, hu, hview⟩ := fromFile_fvecs c junk V n d colwise hext hfile
  refine ⟨u, hu, ?_⟩
  rw [holds_ofMatrix_iff V hview]
  cases colwise with
  | false => simp
  | true => simp [colwiseView]

/-- With `COL` the samples of every file of a shape come out right exactly if it has one vector, or
    vectors of one component. -/
theorem fvecs_samples_all_iff [Nontrivial α] (n d : Nat) {fn : String}
    (hext : getFileExt fn = "fvecs") :
    (∀ V files, files fn = some (fvecsBytes c V n d) →
      ∃ u, fromFile c junk files (((new.setFn fn).setOrientation .col).setShape (n, d)) = .ok u ∧
        u.Holds V n d) ↔ n ≤ 1 ∨ d ≤ 1 := by
  rw [Or.comm, ← MemoryIO.recut_all_iff (α := α) d n]
  constructor
  · intro h M i j hi hj
    let files : Files := fun _ => some (fvecsBytes c (fun i j => M j i) n d)
    have hfile : files fn = some (fvecsBytes c (fun i j => M j i) n d) := rfl
    obtain ⟨u, hu, hview⟩ := fromFile_fvecs c junk _ n d true hext hfile
    obtain ⟨u', hu', hholds⟩ := h _ files hfile
    cases hu.symm.trans hu'
    exact (holds_ofMatrix_iff _ hview).mp hholds i j hi hj
  · intro h V files hfile
    obtain ⟨u, hu, hview⟩ := fromFile_fvecs c junk V n d true hext hfile
    exact ⟨u, hu, (holds_ofMatrix_iff V hview).mpr (h fun i j => V j i)⟩

/-- Two vectors of two bytes: 1, 2 and 3, 4. -/
def fourBytes (i j : Nat) : UInt8 := UInt8.ofNat (2 * i + j + 1)

/-- The file of the two vectors. -/
def fourFile : Files := fun _ => some (fvecsBytes byteCodec fourBytes 2 2)

theorem fvecs_samples_row :
    ∃ u, fromFile byteCodec ⟨[0, 0, 0, 0], rfl⟩ fourFile
        (((new.setFn "v.fvecs").setOrientation .row).setShape (2, 2)) = .ok u ∧
      u.Holds fourBytes 2 2 := by
  have hext : getFileExt "v.fvecs" = "fvecs" := by decide
  obtain ⟨u, hu, hiff⟩ := fvecs_samples_iff byteCodec ⟨[0, 0, 0, 0], rfl⟩ fourBytes 2 2 false hext
    (show fourFile "v.fvecs" = _ from rfl)
  exact ⟨u, hu, hiff.mpr (Or.inl rfl)⟩

/-- With `COL` the first row has the first components of both vectors. -/
theorem scrambled_four :
    ∃ u p, fromFile byteCodec ⟨[0, 0, 0, 0], rfl⟩ fourFile
        (((new.setFn "v.fvecs").setOrientation .col).setShape (2, 2)) = .ok u ∧
      u.view.getRow 0 = .ok p ∧ p 0 = some 1 ∧ p 1 = some 3 ∧ fourBytes 0 1 = 2 :=
  ⟨_, _, rfl, rfl, rfl, rfl, rfl⟩

end Samples

end MemoryUnit

end Monya
