/-
  `SyncIO` (`io/IO.hpp`): a matrix that stays in its file and is read through one stream.

  `get_row` and `get_col` seek before each read, so they do not care where the stream stands:
  `Serves` (a good stream on the matrix' bytes) is enough for them and is kept by them
  (`Serves.access_ok`). Hence a `SyncIO` on a file that a `MemoryIO` has written answers as the
  `MemoryIO` does (`sync_agrees_memory`).

  `read` neither seeks nor clears the stream. It delivers the file only from position 0; anywhere
  else it is short, and the fail flag it leaves makes every later call deliver nothing
  (`reads_fresh_iff`).

  `get_col` on a column-wise file reads into the one buffer `data` and returns it, so what an
  earlier call returned is overwritten. What a call delivers is what it returns at its end.
-/
import Monya.Io.MemoryIO

namespace Monya

open Monya.Lib

/-- `utils::get_file_size`; the result of a failed `stat` is -1 as a `size_t`. -/
def getFileSize (files : Files) (fn : String) : Nat :=
  match files fn with
  | some bytes => bytes.length
  | none => 2 ^ 64 - 1

structure SyncIO where
  fn : String
  /-- The stream, if it is open. -/
  fs : Option FStream
  data : Option Raw
  orientation : MatOrient
  /-- `dim.first`. -/
  nsamples : Nat
  /-- `dim.second`. -/
  nfeatures : Nat

namespace SyncIO

/-- `open`. -/
def openFile (files : Files) (io : SyncIO) : Except Fault SyncIO :=
  match files io.fn with
  | some bytes => .ok { io with fs := some (.opened bytes) }
  | none => .error (.thrown ("Failure to open file: '" ++ io.fn ++ "'\n"))

/-- The constructor with a shape and an orientation. -/
def new (files : Files) (fn : String) (dim : Nat × Nat) (orient : MatOrient) :
    Except Fault SyncIO :=
  openFile files ⟨fn, none, none, orient, dim.1, dim.2⟩

/-- `read(buf)`: what `buf` holds afterwards. -/
def read (files : Files) (buf : Raw) (io : SyncIO) : Except Fault (Raw × SyncIO) := do
  let io ← if io.fs.isSome then pure io else io.openFile files
  match io.fs with
  | none => .error .assertion
  | some fs =>
      let r := fs.read (getFileSize files io.fn)
      if buf.length < r.1.length then .error .outOfBounds
      else return (buf.fill 0 r.1, { io with fs := some r.2 })

/-- `write(buf, nbytes)`; `buf` is the memory behind the pointer. A stream that is not open takes
    nothing. -/
def write (buf : List UInt8) (nbytes : Nat) (io : SyncIO) : Except Fault SyncIO :=
  if buf.length < nbytes then .error .outOfBounds
  else .ok { io with fs := io.fs.map fun fs => fs.write (buf.take nbytes) }

/-- `write(buf, offset, nbytes)`. -/
def writeAt (buf : List UInt8) (offset nbytes : Nat) (io : SyncIO) : Except Fault SyncIO :=
  write buf nbytes { io with fs := io.fs.map fun fs => fs.seek offset }

/-- `append(buf, nelem)`. There is no seek. -/
def append {α : Type} (c : Codec α dtypeSize) (buf : List α) (nelem : Nat) (io : SyncIO) :
    Except Fault SyncIO :=
  write (c.encodeAll buf) (dtypeSize * nelem) io

def getCol (offset : Nat) (io : SyncIO) : Except Fault (Raw × SyncIO) :=
  match io.fs with
  | none => .error .assertion
  | some fs =>
      match io.orientation with
      | .col =>
          let data := io.data.getD (.blank (io.nsamples * dtypeSize))
          let r := (fs.seek (offset * io.nsamples * dtypeSize)).read (dtypeSize * io.nsamples)
          let data := data.fill 0 r.1
          .ok (data, { io with fs := some r.2, data := some data })
      | .row =>
          let r := fs.readEach dtypeSize (fun row => (row * io.nfeatures + offset) * dtypeSize)
            io.nsamples
          .ok (r.1, { io with fs := some r.2 })
      | _ => .error (.thrown "not_implemented_exception")

def getRow (offset : Nat) (io : SyncIO) : Except Fault (Raw × SyncIO) :=
  match io.fs with
  | none => .error .assertion
  | some fs =>
      match io.orientation with
      | .row =>
          let r := (fs.seek (offset * io.nfeatures * dtypeSize)).read (dtypeSize * io.nfeatures)
          .ok ((Raw.blank (io.nfeatures * dtypeSize)).fill 0 r.1, { io with fs := some r.2 })
      | .col =>
          let r := fs.readEach dtypeSize (fun col => (col * io.nsamples + offset) * dtypeSize)
            io.nfeatures
          .ok (r.1, { io with fs := some r.2 })
      | _ => .error (.thrown "not_implemented_exception")

end SyncIO

/-! ## Calls -/

/-- A call of `get_row` or `get_col`. -/
inductive Access where
  | row (i : Nat)
  | col (j : Nat)
  deriving DecidableEq, Repr

namespace Access

/-- The index is inside an `R × C` matrix. -/
def Valid (R C : Nat) : Access → Prop
  | row i => i < R
  | col j => j < C

instance (R C : Nat) (a : Access) : Decidable (a.Valid R C) :=
  match a with
  | row i => inferInstanceAs (Decidable (i < R))
  | col j => inferInstanceAs (Decidable (j < C))

/-- How many values the call returns. -/
def len (R C : Nat) : Access → Nat
  | row _ => C
  | col _ => R

/-- The value it is to return at each place. -/
def value {α : Type} (M : Nat → Nat → α) : Access → Nat → α
  | row i, j => M i j
  | col j, i => M i j

end Access

inductive Call where
  | read
  | access (a : Access)
  deriving DecidableEq, Repr

/-- A call on the in-memory unit. -/
def MemoryIO.access {α : Type} (io : MemoryIO α) : Access → Except Fault (Buf α)
  | .row i => io.getRow i
  | .col j => io.getCol j

namespace SyncIO

def access (io : SyncIO) : Access → Except Fault (Raw × SyncIO)
  | .row i => io.getRow i
  | .col j => io.getCol j

/-- A call; `read` is given memory of the size of the file. -/
def perform (files : Files) (io : SyncIO) : Call → Except Fault (Raw × SyncIO)
  | .read => io.read files (.blank (getFileSize files io.fn))
  | .access a => io.access a

/-- Calls one after the other, with what each delivers. -/
def performAll (files : Files) : List Call → SyncIO → Except Fault (List Raw × SyncIO)
  | [], io => .ok ([], io)
  | call :: calls, io => do
      let (raw, io) ← io.perform files call
      let (raws, io) ← performAll files calls io
      return (raw :: raws, io)

/-! ## A good stream -/

section Serves

variable {α : Type} (c : Codec α dtypeSize) (M : Nat → Nat → α) (R C : Nat) (colwise : Bool)

/-- The bytes of the matrix, row by row or column by column. -/
def fileBytes : List UInt8 :=
  c.encodeAll (if colwise then lines (fun j i => M i j) C R else lines M R C)

/-- Where the stream stands. -/
def pos (io : SyncIO) : Nat := (io.fs.map FStream.pos).getD 0

/-- The stream is good and the object is set up for the matrix in it. -/
structure Serves (io : SyncIO) : Prop where
  stream : ∃ f, io.fs = some f ∧ f.fail = false ∧ f.bytes = fileBytes c M R C colwise
  orientation : io.orientation = if colwise then .col else .row
  nsamples : io.nsamples = R
  nfeatures : io.nfeatures = C
  data : ∀ d, io.data = some d → d.length = R * dtypeSize

variable {c M R C colwise}

theorem length_fileBytes : (fileBytes c M R C colwise).length = R * C * dtypeSize := by
  unfold fileBytes
  rw [c.length_encodeAll]
  cases colwise with
  | false => rw [if_neg Bool.false_ne_true, length_lines]
  | true => rw [if_pos rfl, length_lines, Nat.mul_comm C R]

/-- The stream has moved, and a buffer of the right size may have been filled. -/
theorem Serves.moved {io : SyncIO} (h : Serves c M R C colwise io) (p : Nat) {d : Option Raw}
    (hd : ∀ d', d = some d' → d'.length = R * dtypeSize) :
    Serves c M R C colwise
      { io with fs := some ⟨fileBytes c M R C colwise, p, false⟩, data := d } :=
  ⟨⟨_, rfl, rfl, rfl⟩, h.orientation, h.nsamples, h.nfeatures, hd⟩

/-- What an access is to deliver. -/
def delivered (c : Codec α dtypeSize) (M : Nat → Nat → α) (R C : Nat) (a : Access) : Raw :=
  (c.encodeAll ((List.range (a.len R C)).map (a.value M))).map some

theorem length_delivered (a : Access) :
    (delivered c M R C a).length = a.len R C * dtypeSize := by
  rw [delivered, List.length_map, c.length_encodeAll, List.length_map, List.length_range]

/-- `get_row` and `get_col` deliver what they are asked for, wherever the stream stands. -/
theorem Serves.access_ok {io : SyncIO} (h : Serves c M R C colwise io) {a : Access}
    (ha : a.Valid R C) :
    ∃ io', io.access a = .ok (delivered c M R C a, io') ∧ Serves c M R C colwise io' ∧
      io'.fn = io.fn ∧ (0 < R * C → 0 < io'.pos) := by
  obtain ⟨f, hfs, hfail, hbytes⟩ := h.stream
  have horient := h.orientation
  -- an access that reads one value at a time ends behind the last of them
  have hlast : ∀ x y : Nat, 0 < x → 0 < if x = 0 then f.pos else y * dtypeSize + dtypeSize := by
    intro x y hx
    rw [if_neg (by omega)]
    exact Nat.add_pos_right _ (by decide)
  cases a with
  | row i =>
    have hi : i < R := ha
    cases colwise with
    | false =>
      have hread := f.read_line c (N := M) (a := R) (b := C) hfail hbytes hi
      refine ⟨_, ?_, h.moved ((i * C + C) * dtypeSize) h.data, rfl, fun hpos => ?_⟩
      · rw [← hbytes]
        simp only [access, getRow, hfs, horient, Bool.false_eq_true, if_false, h.nfeatures, hread]
        rw [Raw.fill_all]
        · rfl
        · simp [c.length_encodeAll]
      · have hC : 0 < C := Nat.pos_of_mul_pos_left hpos
        exact Nat.mul_pos (by omega) (by decide)
    | true =>
      have hread := f.read_across c (N := fun j i => M i j) (a := C) (b := R) hfail hbytes hi
      refine ⟨_, ?_, h.moved (if C = 0 then f.pos else ((C - 1) * R + i) * dtypeSize + dtypeSize)
        h.data, rfl, fun hpos => hlast C _ (Nat.pos_of_mul_pos_left hpos)⟩
      rw [← hbytes]
      simp only [access, getRow, hfs, horient, if_true, h.nfeatures, h.nsamples, hread]
      rfl
  | col j =>
    have hj : j < C := ha
    cases colwise with
    | false =>
      have hread := f.read_across c (N := M) (a := R) (b := C) hfail hbytes hj
      refine ⟨_, ?_, h.moved (if R = 0 then f.pos else ((R - 1) * C + j) * dtypeSize + dtypeSize)
        h.data, rfl, fun hpos => hlast R _ (Nat.pos_of_mul_pos_right hpos)⟩
      rw [← hbytes]
      simp only [access, getCol, hfs, horient, Bool.false_eq_true, if_false, h.nsamples,
        h.nfeatures, hread]
      rfl
    | true =>
      have hread := f.read_line c (N := fun j i => M i j) (a := C) (b := R) hfail hbytes hj
      have hlen : (io.data.getD (.blank (R * dtypeSize))).length = R * dtypeSize := by
        cases hd : io.data with
        | none => exact Raw.length_blank _
        | some d => exact h.data d hd
      refine ⟨_, ?_, h.moved ((j * R + R) * dtypeSize) (d := some (delivered c M R C (.col j))) ?_,
        rfl, fun hpos => ?_⟩
      · rw [← hbytes]
        simp only [access, getCol, hfs, horient, if_true, h.nsamples, hread]
        rw [Raw.fill_all]
        · rfl
        · rw [hlen]
          simp [c.length_encodeAll]
      · intro d' hd'
        cases hd'
        exact length_delivered (.col j)
      · have hR : 0 < R := Nat.pos_of_mul_pos_right hpos
        exact Nat.mul_pos (by omega) (by decide)

/-- `read` delivers the file from where the stream stands. -/
theorem Serves.perform_read {io : SyncIO} (h : Serves c M R C colwise io) {files : Files}
    (hfile : files io.fn = some (fileBytes c M R C colwise)) :
    let rest := (fileBytes c M R C colwise).drop io.pos
    io.perform files .read = .ok ((Raw.blank (R * C * dtypeSize)).fill 0 rest,
      { io with fs := some ⟨fileBytes c M R C colwise, io.pos + rest.length,
          decide (rest.length < R * C * dtypeSize)⟩ }) := by
  obtain ⟨f, hfs, hfail, hbytes⟩ := h.stream
  have hlen : (fileBytes c M R C colwise).length = R * C * dtypeSize := length_fileBytes
  have hsize : getFileSize files io.fn = R * C * dtypeSize := by
    simp only [getFileSize, hfile, hlen]
  have hpos : io.pos = f.pos := by simp [pos, hfs]
  have htake : ((fileBytes c M R C colwise).drop f.pos).take (R * C * dtypeSize) =
      (fileBytes c M R C colwise).drop f.pos := by
    rw [List.take_of_length_le]
    rw [List.length_drop]
    omega
  have hroom : ¬ R * C * dtypeSize < ((fileBytes c M R C colwise).drop f.pos).length := by
    rw [List.length_drop]
    omega
  simp only [perform, SyncIO.read, hfs, Option.isSome_some, if_true, hsize]
  rw [pure_ok, ok_bind]
  simp only [hfs, hsize, FStream.read, hfail, Bool.false_eq_true, if_false, hbytes, htake,
    Raw.length_blank, hroom, hpos]
  rfl

/-- `read` from the front of the file, or of an empty one. -/
theorem Serves.read_ok {io : SyncIO} (h : Serves c M R C colwise io) {files : Files}
    (hfile : files io.fn = some (fileBytes c M R C colwise)) (hpos : io.pos = 0 ∨ R * C = 0) :
    ∃ io', io.perform files .read = .ok ((fileBytes c M R C colwise).map some, io') ∧
      Serves c M R C colwise io' ∧ io'.fn = io.fn ∧ (0 < R * C → 0 < io'.pos) := by
  have hlen : (fileBytes c M R C colwise).length = R * C * dtypeSize := length_fileBytes
  have hdrop : (fileBytes c M R C colwise).drop io.pos = fileBytes c M R C colwise := by
    rcases hpos with hpos | hpos
    · rw [hpos, List.drop_zero]
    · rw [hpos, Nat.zero_mul] at hlen
      rw [List.length_eq_zero_iff.mp hlen, List.drop_nil]
  have hread := h.perform_read hfile
  simp only [hdrop, hlen, lt_irrefl, decide_false] at hread
  rw [Raw.fill_all (by rw [hlen, Raw.length_blank])] at hread
  refine ⟨_, hread, h.moved _ h.data, rfl, fun hne => ?_⟩
  exact Nat.add_pos_right _ (Nat.mul_pos hne (by decide))

/-- `read` from anywhere else in a file that is not empty leaves some of the memory unset. -/
theorem Serves.read_short {io : SyncIO} (h : Serves c M R C colwise io) {files : Files}
    (hfile : files io.fn = some (fileBytes c M R C colwise)) (hpos : 0 < io.pos)
    (hne : 0 < R * C) {raw : Raw} {io' : SyncIO}
    (hr : io.perform files .read = .ok (raw, io')) :
    raw ≠ (fileBytes c M R C colwise).map some := by
  have hlen : (fileBytes c M R C colwise).length = R * C * dtypeSize := length_fileBytes
  have hread := h.perform_read hfile
  rw [hread] at hr
  cases hr
  apply Raw.fill_blank_ne
  have hsize : 0 < R * C * dtypeSize := Nat.mul_pos hne (by decide)
  rw [List.length_drop, hlen]
  omega

/-! ## Sequences of calls -/

/-- What a call is to deliver. -/
def due (c : Codec α dtypeSize) (M : Nat → Nat → α) (R C : Nat) (colwise : Bool) : Call → Raw
  | .read => (fileBytes c M R C colwise).map some
  | .access a => delivered c M R C a

/-- A call that delivers what is due keeps the stream good, and takes it off the front of a file
    that is not empty. -/
theorem Serves.perform_ok {io : SyncIO} (h : Serves c M R C colwise io) {files : Files}
    (hfile : files io.fn = some (fileBytes c M R C colwise)) {call : Call}
    (hvalid : ∀ a, call = .access a → a.Valid R C)
    (hread : call = .read → io.pos = 0 ∨ R * C = 0) :
    ∃ io', io.perform files call = .ok (due c M R C colwise call, io') ∧
      Serves c M R C colwise io' ∧ io'.fn = io.fn ∧ (0 < R * C → 0 < io'.pos) := by
  cases call with
  | read => exact h.read_ok hfile (hread rfl)
  | access a => exact h.access_ok (hvalid a rfl)

theorem Serves.performAll_ok {io : SyncIO} (h : Serves c M R C colwise io) {files : Files}
    (hfile : files io.fn = some (fileBytes c M R C colwise)) {calls : List Call}
    (hvalid : ∀ a, .access a ∈ calls → a.Valid R C) (hread : R * C = 0 ∨ .read ∉ calls) :
    ∃ io', performAll files calls io = .ok (calls.map (due c M R C colwise), io') := by
  induction calls generalizing io with
  | nil => exact ⟨io, rfl⟩
  | cons call calls ih =>
    have hnext : call = .read → io.pos = 0 ∨ R * C = 0 := by
      rintro rfl
      exact Or.inr (hread.resolve_right fun hn => hn List.mem_cons_self)
    obtain ⟨io₁, h₁, hs₁, hfn, -⟩ := h.perform_ok hfile
      (fun a ha => hvalid a (ha ▸ List.mem_cons_self)) hnext
    obtain ⟨io₂, h₂⟩ := ih hs₁ (by rw [hfn, hfile])
      (fun a ha => hvalid a (List.mem_cons_of_mem _ ha))
      (hread.imp_right fun hn hm => hn (List.mem_cons_of_mem _ hm))
    refine ⟨io₂, ?_⟩
    rw [performAll, h₁, ok_bind]
    simp only [h₂, ok_bind]
    rfl

/-- Away from the front of the file no `read` delivers what is due. -/
theorem Serves.no_read_of_performAll {io io' : SyncIO} (h : Serves c M R C colwise io)
    {files : Files} (hfile : files io.fn = some (fileBytes c M R C colwise)) (hpos : 0 < io.pos)
    (hne : 0 < R * C) {calls : List Call} (hvalid : ∀ a, .access a ∈ calls → a.Valid R C)
    (hr : performAll files calls io = .ok (calls.map (due c M R C colwise), io')) :
    .read ∉ calls := by
  induction calls generalizing io with
  | nil => exact List.not_mem_nil
  | cons call calls ih =>
    rw [performAll] at hr
    obtain ⟨⟨raw, io₁⟩, h₁, hr⟩ := bind_ok hr
    obtain ⟨⟨raws, io₂⟩, h₂, hr⟩ := bind_ok hr
    simp only [pure_ok, Except.ok.injEq, Prod.mk.injEq, List.map_cons, List.cons.injEq] at hr
    obtain ⟨⟨rfl, rfl⟩, rfl⟩ := hr
    cases call with
    | read => exact absurd rfl (h.read_short hfile hpos hne h₁)
    | access a =>
      obtain ⟨io₃, h₃, hs₃, hfn, hpos₃⟩ := h.access_ok (hvalid a List.mem_cons_self)
      have heq : (Except.ok (delivered c M R C a, io₃) : Except Fault _) = .ok (_, io₁) :=
        h₃.symm.trans h₁
      cases heq
      have htail := ih hs₃ (by rw [hfn, hfile]) (hpos₃ hne)
        (fun b hb => hvalid b (List.mem_cons_of_mem _ hb)) h₂
      exact fun hm => htail ((List.mem_cons.mp hm).resolve_left (by simp))

theorem new_ok {files : Files} {fn : String}
    (hfile : files fn = some (fileBytes c M R C colwise)) :
    ∃ io, new files fn (R, C) (if colwise then .col else .row) = .ok io ∧
      Serves c M R C colwise io ∧ io.fn = fn ∧ io.pos = 0 := by
  refine ⟨⟨fn, some (.opened (fileBytes c M R C colwise)), none, if colwise then .col else .row,
    R, C⟩, ?_, ⟨⟨_, rfl, rfl, rfl⟩, rfl, rfl, rfl, fun d hd => by cases hd⟩, rfl, rfl⟩
  simp only [new, openFile, hfile]

/-! ## Agreement of the two units -/

/-- What an access delivers, read value by value. -/
theorem elem_delivered {a : Access} {t : Nat} (ht : t < a.len R C) :
    c.elem (delivered c M R C a) t = some (a.value M t) := by
  refine c.elem_encodeAll ?_
  rw [List.getElem?_map, List.getElem?_range ht]
  rfl

end Serves

end SyncIO

theorem MemoryIO.access_ofMatrix {α : Type} (M : Nat → Nat → α) {R C : Nat} (colwise : Bool)
    {a : Access} (ha : a.Valid R C) :
    ∃ p, (ofMatrix M R C colwise).access a = .ok p ∧
      ∀ t, t < a.len R C → p t = some (a.value M t) := by
  cases a with
  | row i => exact MemoryIO.getRow_ofMatrix colwise ha
  | col j => exact MemoryIO.getCol_ofMatrix colwise ha

namespace SyncIO

open MemoryIO (ofMatrix)

section Main

variable {α : Type} (c : Codec α dtypeSize) (M : Nat → Nat → α) {R C : Nat} (colwise : Bool)

/-- A `SyncIO` on the file of a `MemoryIO` returns what the `MemoryIO` returns, over any sequence of
    accesses, and with both a row's `j`-th value is the `j`-th column's value for that row. -/
theorem sync_agrees_memory {fn : String} (hfn : fn ≠ "") (files : Files) {calls : List Access}
    (hvalid : ∀ a ∈ calls, a.Valid R C) :
    ∃ files' io raws io', (ofMatrix M R C colwise).write c fn files = .ok files' ∧
      new files' fn (R, C) (ofMatrix M R C colwise).orientation = .ok io ∧
      performAll files' (calls.map .access) io = .ok (raws, io') ∧
      List.Forall₂ (fun a raw => ∃ p, (ofMatrix M R C colwise).access a = .ok p ∧
        ∀ t, t < a.len R C → (p t).isSome ∧ c.elem raw t = p t) calls raws ∧
      (∀ i j, i < R → j < C → ∃ p q, (ofMatrix M R C colwise).getRow i = .ok p ∧
        (ofMatrix M R C colwise).getCol j = .ok q ∧ p j = q i) ∧
      ∀ (s t i j : Nat) (p q : Raw), calls[s]? = some (Access.row i) → raws[s]? = some p →
        calls[t]? = some (Access.col j) → raws[t]? = some q → c.elem p j = c.elem q i := by
  have hwrite := MemoryIO.write_ofMatrix c M R C colwise hfn files
  have hfile : Function.update files fn (some (fileBytes c M R C colwise)) fn =
      some (fileBytes c M R C colwise) := Function.update_self ..
  obtain ⟨io, hnew, hserves, rfl, -⟩ := new_ok hfile
  have hvalid' : ∀ a, .access a ∈ calls.map Call.access → a.Valid R C := fun a ha =>
    hvalid a (by simpa using ha)
  obtain ⟨io', hrun⟩ := hserves.performAll_ok hfile hvalid' (Or.inr (by simp))
  have hraws : (calls.map Call.access).map (due c M R C colwise) =
      calls.map (delivered c M R C) := by
    rw [List.map_map]
    rfl
  rw [hraws] at hrun
  refine ⟨_, io, calls.map (delivered c M R C), io', hwrite, hnew, hrun, ?_, ?_, ?_⟩
  · rw [List.forall₂_map_right_iff, List.forall₂_same]
    intro a ha
    obtain ⟨p, hp, hval⟩ := MemoryIO.access_ofMatrix M colwise (hvalid a ha)
    refine ⟨p, hp, fun t ht => ?_⟩
    rw [hval t ht, elem_delivered ht]
    exact ⟨rfl, rfl⟩
  · intro i j hi hj
    obtain ⟨p, hp, hvalp⟩ := MemoryIO.getRow_ofMatrix (M := M) (f := C) colwise hi
    obtain ⟨q, hq, hvalq⟩ := MemoryIO.getCol_ofMatrix (M := M) (n := R) colwise hj
    exact ⟨p, q, hp, hq, (hvalp j hj).trans (hvalq i hi).symm⟩
  · intro s t i j p q hs hp ht hq
    have hi : i < R := hvalid _ (List.mem_of_getElem? hs)
    have hj : j < C := hvalid _ (List.mem_of_getElem? ht)
    rw [List.getElem?_map, hs, Option.map_some, Option.some.injEq] at hp
    rw [List.getElem?_map, ht, Option.map_some, Option.some.injEq] at hq
    rw [← hp, ← hq, elem_delivered hj, elem_delivered hi]
    rfl

/-- Every call of a sequence delivers what it delivers on a freshly opened `SyncIO` exactly if the
    file is empty or `read` is called first or not at all. -/
theorem reads_fresh_iff {files : Files} {fn : String}
    (hfile : files fn = some (fileBytes c M R C colwise)) {calls : List Call}
    (hvalid : ∀ a, .access a ∈ calls → a.Valid R C) :
    ∃ io, new files fn (R, C) (if colwise then .col else .row) = .ok io ∧
      (∀ call, (∀ a, call = .access a → a.Valid R C) →
        ∃ io', io.perform files call = .ok (due c M R C colwise call, io')) ∧
      ((∃ io', performAll files calls io = .ok (calls.map (due c M R C colwise), io')) ↔
        R * C = 0 ∨ .read ∉ calls.tail) := by
  obtain ⟨io, hnew, hserves, rfl, hpos⟩ := new_ok hfile
  refine ⟨io, hnew, fun call hcall => ?_, ?_⟩
  · obtain ⟨io', hr, -⟩ := hserves.perform_ok hfile hcall fun _ => Or.inl hpos
    exact ⟨io', hr⟩
  cases calls with
  | nil => exact iff_of_true ⟨io, rfl⟩ (Or.inr List.not_mem_nil)
  | cons call calls =>
    rw [List.tail_cons]
    -- the first call may be a `read`: the stream stands at the front
    obtain ⟨io₁, h₁, hs₁, hfn, hpos₁⟩ := hserves.perform_ok hfile
      (fun a ha => hvalid a (ha ▸ List.mem_cons_self)) fun _ => Or.inl hpos
    have hfile₁ : files io₁.fn = some (fileBytes c M R C colwise) := by rw [hfn, hfile]
    have hvalid' : ∀ a, .access a ∈ calls → a.Valid R C := fun a ha =>
      hvalid a (List.mem_cons_of_mem _ ha)
    constructor
    · rintro ⟨io', hr⟩
      rw [performAll, h₁, ok_bind] at hr
      obtain ⟨⟨raws, io₂⟩, h₂, hr⟩ := bind_ok hr
      simp only [pure_ok, Except.ok.injEq, Prod.mk.injEq, List.map_cons, List.cons.injEq,
        true_and] at hr
      obtain ⟨rfl, rfl⟩ := hr
      rcases Nat.eq_zero_or_pos (R * C) with h0 | hne
      · exact Or.inl h0
      · exact Or.inr (hs₁.no_read_of_performAll hfile₁ (hpos₁ hne) hne hvalid' h₂)
    · intro hread
      obtain ⟨io', hr⟩ := hs₁.performAll_ok hfile₁ hvalid' hread
      refine ⟨io', ?_⟩
      rw [performAll, h₁, ok_bind]
      simp only [hr, ok_bind]
      rfl

end Main

/-- The two-by-three matrix of the numbers from 0 on. -/
def sixBytes (i j : Nat) : UInt8 := UInt8.ofNat (3 * i + j)

theorem sync_agrees_memory_six :
    ∃ files' io raws io',
      (ofMatrix sixBytes 2 3 true).write byteCodec "m.bin" (fun _ => none) = .ok files' ∧
      new files' "m.bin" (2, 3) .col = .ok io ∧
      performAll files' [.access (.row 1), .access (.col 2)] io = .ok (raws, io') ∧
      List.Forall₂ (fun a raw => ∃ p, (ofMatrix sixBytes 2 3 true).access a = .ok p ∧
        ∀ t, t < a.len 2 3 → (p t).isSome ∧ byteCodec.elem raw t = p t)
        [Access.row 1, Access.col 2] raws := by
  have hvalid : ∀ a ∈ [Access.row 1, Access.col 2], a.Valid 2 3 := by decide
  obtain ⟨files', io, raws, io', hwrite, hnew, hrun, hsame, -⟩ :=
    sync_agrees_memory byteCodec sixBytes true (show "m.bin" ≠ "" by decide) (fun _ => none) hvalid
  exact ⟨files', io, raws, io', hwrite, hnew, hrun, hsame⟩

/-- A file with one value. -/
def oneValue : Files := fun _ => some [7, 0, 0, 0]

theorem reads_fresh_three :
    ∃ io, new oneValue "m.bin" (1, 1) .row = .ok io ∧
      ∃ io', performAll oneValue [.read, .access (.row 0), .access (.col 0)] io =
        .ok (List.replicate 3 [some 7, some 0, some 0, some 0], io') := by
  have hfile : oneValue "m.bin" = some (fileBytes byteCodec (fun _ _ => 7) 1 1 false) := rfl
  have hvalid : ∀ a, Call.access a ∈ [.read, .access (.row 0), .access (.col 0)] →
      a.Valid 1 1 := by
    intro a ha
    simp only [List.mem_cons, Call.access.injEq, List.not_mem_nil, or_false, reduceCtorEq,
      false_or] at ha
    rcases ha with rfl | rfl <;> decide
  obtain ⟨io, hnew, -, hiff⟩ := reads_fresh_iff byteCodec (fun _ _ => 7) false hfile hvalid
  exact ⟨io, hnew, hiff.mpr (Or.inr (by decide))⟩

/-- A second `read` finds nothing, and after it a row cannot be read either. -/
theorem second_read_short :
    ∃ io, new oneValue "m.bin" (1, 1) .row = .ok io ∧
      ∃ io', performAll oneValue [.read, .read, .access (.row 0)] io =
        .ok ([[some 7, some 0, some 0, some 0], [none, none, none, none],
          [none, none, none, none]], io') :=
  ⟨_, rfl, _, rfl⟩

end SyncIO

end Monya
