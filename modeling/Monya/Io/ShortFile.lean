/-
  `MemoryIO::from_file` (`io/IO.hpp`) on files that are too short or not well formed.

  Nothing looks at the stream after a read. A raw file is read in one piece, and a short one leaves
  the rest of the buffer unset. In an `fvecs` file only the dimensions are checked, in an `int` that
  keeps what a read did not reach: once the file is at its end the `int` still has the dimension of
  the record before, and every further record passes. The reader returns exactly if the header bytes
  that are there are right and, where the first header is cut short, the uninitialised `int` has the
  rest of it by chance (`HeadersFit`; `fvecsRead_cases`, `headersFit_iff`).

  `fromFile_rejects_iff`: a file that does not supply all values is rejected exactly if it is an
  `fvecs` file with a wrong byte in a header.
-/
import Monya.Io.MemoryUnit

namespace Monya

open Monya.Lib

/-! ## What a file has to supply -/

/-- The bytes of a record with `ncol` values. -/
def recordSize (ncol : Nat) : Nat := dtypeSize + ncol * dtypeSize

/-- What the file has of the dimension of a record. -/
def header (bytes : List UInt8) (ncol row : Nat) : List UInt8 :=
  (bytes.drop (row * recordSize ncol)).take dtypeSize

/-- Four bytes as an `int`. -/
def intOf (bs : List UInt8) : Int := Int.bmod (leNat bs) (2 ^ 32)

/-- `nrow` complete records of dimension `ncol`, one after the other. -/
def FvecsSupplies (bytes : List UInt8) (nrow ncol : Nat) : Prop :=
  ∀ row, row < nrow → (row + 1) * recordSize ncol ≤ bytes.length ∧
    intOf (header bytes ncol row) = ncol

/-- All values of a matrix of the shape `dim` are in the file. -/
def Supplies (fn : String) (dim : Nat × Nat) (bytes : List UInt8) : Prop :=
  if getFileExt fn = "fvecs" then FvecsSupplies bytes dim.1 dim.2
  else dim.1 * dim.2 * dtypeSize ≤ bytes.length

/-! ## The records of an `fvecs` file -/

section Records

variable (junk : IntBytes) (bytes : List UInt8) (ncol : Nat)

/-- `read_dim` before a record, if no assert has failed. -/
def readDimAt (row : Nat) : IntBytes :=
  if row = 0 then junk else ⟨leBytes 4 ncol, length_leBytes 4 ncol⟩

/-- The assert on a record holds. -/
def Passes (row : Nat) : Prop :=
  ((readDimAt junk ncol row).load (header bytes ncol row)).1 = leBytes 4 ncol

/-- The stream before a record: in front of it, or failed because the file is shorter. -/
structure Before (row : Nat) (fs : FStream) : Prop where
  same : fs.bytes = bytes
  place : fs.cursor = ⟨bytes.length, row * recordSize ncol, false⟩ ∧
      row * recordSize ncol ≤ bytes.length ∨
    fs.cursor.fail = true ∧ bytes.length < row * recordSize ncol

variable {junk bytes ncol} {row : Nat} {fs : FStream}

theorem Before.read_header (h : Before bytes ncol row fs) :
    (fs.read dtypeSize).1 = header bytes ncol row := by
  unfold FStream.read header
  rcases h.place with ⟨hplace, -⟩ | ⟨hfail, hend⟩
  · have hfail : fs.fail = false := congrArg Cursor.fail hplace
    have hpos : fs.pos = row * recordSize ncol := congrArg Cursor.pos hplace
    rw [hfail, if_neg Bool.false_ne_true, h.same, hpos]
  · have hfail : fs.fail = true := hfail
    rw [hfail, if_pos rfl, List.drop_eq_nil_of_le (Nat.le_of_lt hend), List.take_nil]

/-- The two reads of a record. -/
theorem Before.next (h : Before bytes ncol row fs) :
    Before bytes ncol (row + 1) ((fs.read dtypeSize).2.read (ncol * dtypeSize)).2 := by
  refine ⟨by rw [FStream.read_bytes, FStream.read_bytes, h.same], ?_⟩
  have hnext : (row + 1) * recordSize ncol = row * recordSize ncol + recordSize ncol :=
    Nat.succ_mul ..
  rw [FStream.cursor_read, FStream.cursor_read, Cursor.read_read, ← recordSize, hnext]
  rcases h.place with ⟨hplace, hle⟩ | ⟨hfail, hend⟩
  · rw [hplace]
    rcases Nat.lt_or_ge bytes.length (row * recordSize ncol + recordSize ncol) with hlt | hge
    · refine Or.inr ⟨?_, hlt⟩
      exact decide_eq_true (by simp only; omega)
    · refine Or.inl ⟨?_, hge⟩
      have hfull : min (recordSize ncol) (bytes.length - row * recordSize ncol) =
          recordSize ncol := by omega
      simp only [Cursor.read, Bool.false_eq_true, if_false, hfull, lt_irrefl, decide_false]
  · refine Or.inr ⟨?_, by omega⟩
    rw [Cursor.read, hfail, if_pos rfl, hfail]

/-- The bytes of an `int` that has been read into, in part. -/
theorem load_get? (x : IntBytes) (got : List UInt8) {t : Nat} (ht : t < 4) :
    (x.load got).1[t]? = got[t]?.or x.1[t]? := by
  unfold IntBytes.load
  rw [List.getElem?_take_of_lt ht]
  rcases Nat.lt_or_ge t got.length with hlt | hge
  · rw [List.getElem?_append_left hlt, List.getElem?_eq_getElem hlt]
    rfl
  · rw [List.getElem?_append_right hge, List.getElem?_drop, Nat.add_sub_cancel' hge,
      List.getElem?_eq_none hge]
    rfl

theorem header_get? {t : Nat} (ht : t < 4) :
    (header bytes ncol row)[t]? = bytes[row * recordSize ncol + t]? := by
  unfold header
  rw [List.getElem?_take_of_lt (show t < dtypeSize from ht), List.getElem?_drop]

/-- The assert looks at each byte that is there, and else at what was in `read_dim`. -/
theorem passes_iff : Passes junk bytes ncol row ↔ ∀ t, t < 4 →
    bytes[row * recordSize ncol + t]?.or (readDimAt junk ncol row).1[t]? =
      (leBytes 4 ncol)[t]? := by
  unfold Passes
  constructor
  · intro h t ht
    rw [← h, load_get? _ _ ht, header_get? ht]
  · intro h
    refine List.ext_getElem? fun t => ?_
    rcases Nat.lt_or_ge t 4 with ht | ht
    · rw [load_get? _ _ ht, header_get? ht, h t ht]
    · rw [List.getElem?_eq_none, List.getElem?_eq_none]
      · rw [length_leBytes]
        exact ht
      · rw [((readDimAt junk ncol row).load _).2]
        exact ht

/-- The assert compares bits. -/
theorem leNat_eq_iff (x : IntBytes) (ncol : Nat) :
    leNat x.1 = ncol % 2 ^ 32 ↔ x.1 = leBytes 4 ncol := by
  have hpow : 256 ^ 4 = 2 ^ 32 := by norm_num
  rw [← hpow, ← leNat_leBytes]
  exact leNat_inj (by rw [x.2, length_leBytes])

/-- A record whose dimension passes, whether or not its values are there. -/
theorem fvecsStep_of_passes (h : Before bytes ncol row fs) (hp : Passes junk bytes ncol row)
    (buf : Raw) :
    ∃ buf' fs', fvecsStep ncol (buf, readDimAt junk ncol row, fs) row =
      .ok (buf', readDimAt junk ncol (row + 1), fs') ∧ Before bytes ncol (row + 1) fs' := by
  let r := (fs.read dtypeSize).2.read (ncol * dtypeSize)
  refine ⟨buf.fill (row * ncol * dtypeSize) r.1, r.2, ?_, h.next⟩
  unfold fvecsStep
  have hdim : (readDimAt junk ncol row).load (header bytes ncol row) =
      readDimAt junk ncol (row + 1) := Subtype.ext hp
  simp only [h.read_header]
  rw [if_neg (not_not.mpr ((leNat_eq_iff _ _).mpr hp)), hdim]

theorem fvecsStep_of_not_passes (h : Before bytes ncol row fs)
    (hp : ¬ Passes junk bytes ncol row) (buf : Raw) :
    fvecsStep ncol (buf, readDimAt junk ncol row, fs) row = .error .assertion := by
  unfold fvecsStep
  simp only [h.read_header]
  exact if_pos (mt (leNat_eq_iff _ _).mp hp)

/-- The loop passes `m` records. -/
theorem records_ok (buf : Raw) {m : Nat} (hp : ∀ row, row < m → Passes junk bytes ncol row) :
    ∃ s, (List.range m).foldlM (fvecsStep ncol) (buf, junk, .opened bytes) = .ok s ∧
      s.2.1 = readDimAt junk ncol m ∧ Before bytes ncol m s.2.2 := by
  refine foldlM_range (fvecsStep ncol) m
    (fun row s => s.2.1 = readDimAt junk ncol row ∧ Before bytes ncol row s.2.2) ?_ ?_
  · rintro row ⟨buf, readDim, fs⟩ hrow ⟨hdim, hbefore⟩
    obtain rfl : readDim = readDimAt junk ncol row := hdim
    obtain ⟨buf', fs', hstep, hnext⟩ := fvecsStep_of_passes hbefore (hp row hrow) buf
    exact ⟨_, hstep, rfl, hnext⟩
  · refine ⟨rfl, rfl, Or.inl ⟨?_, ?_⟩⟩
    · rw [Nat.zero_mul]
      rfl
    · rw [Nat.zero_mul]
      exact Nat.zero_le _

/-- The reader returns if every assert holds, and else fails the first that does not. -/
theorem fvecsRead_cases (junk : IntBytes) (bytes : List UInt8) (nrow ncol : Nat) (buf : Raw) :
    ((∀ row, row < nrow → Passes junk bytes ncol row) ∧
      ∃ raw, fvecsRead junk nrow ncol buf (.opened bytes) = .ok raw) ∨
    (¬ (∀ row, row < nrow → Passes junk bytes ncol row) ∧
      fvecsRead junk nrow ncol buf (.opened bytes) = .error .assertion) := by
  by_cases hp : ∀ row, row < nrow → Passes junk bytes ncol row
  · obtain ⟨s, hrun, -⟩ := records_ok buf hp
    refine Or.inl ⟨hp, s.1, ?_⟩
    rw [fvecsRead, hrun, ok_bind]
    rfl
  · refine Or.inr ⟨hp, ?_⟩
    -- the first record that does not pass
    have hex : ∃ row, row < nrow ∧ ¬ Passes junk bytes ncol row := by
      push Not at hp
      exact hp
    classical
    obtain ⟨hlt, hnot⟩ := Nat.find_spec hex
    have hbefore : ∀ row, row < Nat.find hex → Passes junk bytes ncol row := by
      intro row hrow
      by_contra hcon
      exact Nat.find_min hex hrow ⟨by omega, hcon⟩
    obtain ⟨⟨buf', readDim, fs⟩, hrun, hdim, hplace⟩ := records_ok buf hbefore
    obtain rfl : readDim = readDimAt junk ncol (Nat.find hex) := hdim
    rw [fvecsRead, foldlM_range_error hlt hrun (fvecsStep_of_not_passes hplace hnot buf')]
    rfl

/-! ### Which headers pass -/

/-- The header bytes that are in the file are those of `ncol`; what is missing of the first header
    is in the uninitialised `read_dim`. -/
structure HeadersFit (junk : IntBytes) (bytes : List UInt8) (nrow ncol : Nat) : Prop where
  present : ∀ row t b, row < nrow → t < 4 → bytes[row * recordSize ncol + t]? = some b →
    (leBytes 4 ncol)[t]? = some b
  missing : ∀ t, t < 4 → bytes.length ≤ t → junk.1[t]? = (leBytes 4 ncol)[t]?

theorem headersFit_iff {nrow : Nat} (hrow : 0 < nrow) :
    HeadersFit junk bytes nrow ncol ↔ ∀ row, row < nrow → Passes junk bytes ncol row := by
  constructor
  · intro h row hlt
    refine passes_iff.mpr fun t ht => ?_
    cases hb : bytes[row * recordSize ncol + t]? with
    | some b => exact (h.present row t b hlt ht hb).symm
    | none =>
      rw [Option.none_or]
      unfold readDimAt
      split
      case isTrue h0 =>
        rw [h0, Nat.zero_mul, Nat.zero_add] at hb
        exact h.missing t ht (List.getElem?_eq_none_iff.mp hb)
      case isFalse => rfl
  · intro h
    constructor
    · intro row t b hlt ht hb
      have hpass := passes_iff.mp (h row hlt) t ht
      rw [hb] at hpass
      exact hpass.symm
    · intro t ht hend
      have hpass := passes_iff.mp (h 0 hrow) t ht
      rw [Nat.zero_mul, Nat.zero_add, List.getElem?_eq_none hend] at hpass
      exact hpass

theorem intOf_leBytes {n : Nat} (hn : n < 2 ^ 31) : intOf (leBytes 4 n) = n := by
  have hlt : n < 256 ^ 4 := lt_trans hn (by norm_num)
  have hval : leNat (leBytes 4 n) = n := by rw [leNat_leBytes, Nat.mod_eq_of_lt hlt]
  unfold intOf
  rw [hval]
  exact Int.bmod_eq_of_le (by omega) (by omega)

/-- A complete file whose headers fit has the dimension in every record, as long as an `int` can
    hold it; and only then. -/
theorem HeadersFit.supplies_iff {nrow : Nat} (h : HeadersFit junk bytes nrow ncol)
    (hrow : 0 < nrow) :
    FvecsSupplies bytes nrow ncol ↔
      nrow * recordSize ncol ≤ bytes.length ∧ ncol < 2 ^ 31 := by
  constructor
  · intro hs
    obtain ⟨hlast, hdim⟩ := hs (nrow - 1) (by omega)
    rw [Nat.sub_add_cancel hrow] at hlast
    refine ⟨hlast, ?_⟩
    have hbound : intOf (header bytes ncol (nrow - 1)) < ((2 ^ 32 : Nat) + 1) / 2 :=
      Int.bmod_lt (by norm_num)
    rw [hdim] at hbound
    omega
  · rintro ⟨hlen, hcol⟩ row hlt
    have hend : (row + 1) * recordSize ncol ≤ bytes.length :=
      le_trans (Nat.mul_le_mul_right _ hlt) hlen
    refine ⟨hend, ?_⟩
    -- the whole header is there, so it is the one of `ncol`
    have hheader : header bytes ncol row = leBytes 4 ncol := by
      refine List.ext_getElem? fun t => ?_
      rcases Nat.lt_or_ge t 4 with ht | ht
      · have hin : row * recordSize ncol + t < bytes.length := by
          rw [Nat.succ_mul, recordSize] at hend
          have hsize : dtypeSize = 4 := rfl
          rw [recordSize]
          omega
        rw [header_get? ht, List.getElem?_eq_getElem hin]
        exact (h.present row t _ hlt ht (List.getElem?_eq_getElem hin)).symm
      · rw [List.getElem?_eq_none, List.getElem?_eq_none]
        · rw [length_leBytes]
          exact ht
        · exact le_trans (List.length_take_le _ _) ht
    rw [hheader, intOf_leBytes hcol]

end Records

/-! ## `from_file` -/

/-- A result is returned only if all values are there, and else something is thrown or an assert
    fails. -/
def Rejects {β : Type} (result : Except Fault β) (supplied : Prop) : Prop :=
  (∀ b, result = .ok b → supplied) ∧
    (¬ supplied → result = .error .assertion ∨ ∃ what, result = .error (.thrown what))

theorem rejects_ok_iff {β : Type} {b : β} {supplied : Prop} :
    Rejects (.ok b : Except Fault β) supplied ↔ supplied := by
  constructor
  · intro h
    exact h.1 b rfl
  · intro h
    exact ⟨fun _ _ => h, fun hn => absurd h hn⟩

theorem rejects_assertion {β : Type} {supplied : Prop} :
    Rejects (.error .assertion : Except Fault β) supplied := by
  refine ⟨fun b hb => ?_, fun _ => Or.inl rfl⟩
  cases hb

theorem rejects_thrown {β : Type} {what : String} {supplied : Prop} :
    Rejects (.error (.thrown what) : Except Fault β) supplied := by
  refine ⟨fun b hb => ?_, fun _ => Or.inr ⟨what, rfl⟩⟩
  cases hb

/-- What is done with a result does not matter. -/
theorem rejects_bind_iff {β γ : Type} (result : Except Fault β) (f : β → γ) {supplied : Prop} :
    Rejects (result >>= fun b => pure (f b)) supplied ↔ Rejects result supplied := by
  cases result with
  | ok b => exact rejects_ok_iff.trans rejects_ok_iff.symm
  | error e => simp [Rejects]

namespace MemoryUnit

variable {α : Type} (c : Codec α dtypeSize) (junk : IntBytes)

/-- The file of `u` supplies all values. -/
def Supplied (files : Files) (u : MemoryUnit α) : Prop :=
  ∃ bytes, files u.fn = some bytes ∧ Supplies u.fn u.dim bytes

/-- The file is long enough, or is an `fvecs` file with a wrong byte in a header. -/
def Caught (fn : String) (dim : Nat × Nat) (bytes : List UInt8) : Prop :=
  if getFileExt fn = "fvecs" then
    (dim.1 * recordSize dim.2 ≤ bytes.length ∧ dim.2 < 2 ^ 31) ∨
      ¬ HeadersFit junk bytes dim.1 dim.2
  else dim.1 * dim.2 * dtypeSize ≤ bytes.length

theorem load_rejects_iff (fn : String) {dim : Nat × Nat} (hrow : 0 < dim.1) (bytes : List UInt8) :
    Rejects (load junk fn dim bytes) (Supplies fn dim bytes) ↔ Caught junk fn dim bytes := by
  unfold load Supplies Caught
  by_cases hext : getFileExt fn = "fvecs"
  · simp only [hext, if_true]
    rcases fvecsRead_cases junk bytes dim.1 dim.2 (Raw.blank (dim.1 * dim.2 * dtypeSize)) with
      ⟨hpass, raw, hraw⟩ | ⟨hnot, herr⟩
    · have hfit := (headersFit_iff hrow).mpr hpass
      rw [hraw, rejects_ok_iff, hfit.supplies_iff hrow]
      exact (or_iff_left (not_not.mpr hfit)).symm
    · rw [herr]
      exact iff_of_true rejects_assertion (Or.inr (mt (headersFit_iff hrow).mp hnot))
  · simp only [hext, if_false]
    exact rejects_ok_iff

/-- `from_file`, on an object without a buffer, returns only if the file supplies all values and
    throws or fails an assert otherwise: this holds exactly if there is no file to read, or the file
    is long enough, or it is an `fvecs` file with a wrong byte in a header. -/
theorem fromFile_rejects_iff {files : Files} {u : MemoryUnit α} (hdata : u.data = none)
    (hrow : 0 < u.dim.1) :
    Rejects (fromFile c junk files u) (u.Supplied files) ↔
      u.fn = "" ∨ ∀ bytes, files u.fn = some bytes → Caught junk u.fn u.dim bytes := by
  unfold fromFile
  rw [hdata, Option.isSome_none, if_neg Bool.false_ne_true]
  by_cases hfn : u.fn = ""
  · rw [if_pos hfn]
    exact iff_of_true rejects_assertion (Or.inl hfn)
  · rw [if_neg hfn, or_iff_right hfn]
    cases hfile : files u.fn with
    | none => exact iff_of_true rejects_thrown fun bytes hbytes => by cases hbytes
    | some bytes =>
      have hsupplied : u.Supplied files ↔ Supplies u.fn u.dim bytes := by
        unfold Supplied
        rw [hfile]
        simp
      rw [hsupplied]
      refine (rejects_bind_iff ..).trans ((load_rejects_iff junk u.fn hrow bytes).trans ?_)
      simp

/-- An object that has been told its file and its shape. -/
def named (fn : String) (dim : Nat × Nat) : MemoryUnit UInt8 := (new.setFn fn).setShape dim

def zeroInt : IntBytes := ⟨List.replicate 4 0, List.length_replicate⟩

/-- A record of dimension 2 where one of dimension 1 is to be. -/
def wrongDimension : Files := fun _ => some [2, 0, 0, 0, 9, 0, 0, 0]

theorem fromFile_rejects_dimension :
    Rejects (fromFile byteCodec zeroInt wrongDimension (named "v.fvecs" (1, 1)))
      ((named "v.fvecs" (1, 1)).Supplied wrongDimension) := by
  have hrow : 0 < (named "v.fvecs" (1, 1)).dim.1 := by decide
  refine (fromFile_rejects_iff byteCodec zeroInt rfl hrow).mpr (Or.inr fun bytes hbytes => ?_)
  cases hbytes
  unfold Caught
  rw [if_pos (by decide)]
  refine Or.inr fun hfit => ?_
  have hbyte := hfit.present 0 0 2 (by decide) (by decide) rfl
  exact absurd hbyte (by decide)

/-- One complete record. -/
def oneRecord : Files := fun _ => some [1, 0, 0, 0, 9, 0, 0, 0]

/-- An empty raw file is taken for a matrix, and one record for two. -/
theorem short_files_accepted :
    (∃ u p, fromFile byteCodec zeroInt (fun _ => some []) (named "m.bin" (1, 1)) = .ok u ∧
      u.data = some p ∧ p 0 = none) ∧
    ¬ (named "m.bin" (1, 1)).Supplied (fun _ => some []) ∧
    (∃ u p, fromFile byteCodec zeroInt oneRecord (named "v.fvecs" (2, 1)) = .ok u ∧
      u.data = some p ∧ p 0 = some 9 ∧ p 1 = none) ∧
    ¬ (named "v.fvecs" (2, 1)).Supplied oneRecord := by
  refine ⟨⟨_, _, rfl, rfl, rfl⟩, ?_, ⟨_, _, rfl, rfl, rfl, rfl⟩, ?_⟩
  · rintro ⟨bytes, hbytes, hs⟩
    cases hbytes
    unfold Supplies at hs
    rw [if_neg (by decide)] at hs
    exact absurd hs (by decide)
  · rintro ⟨bytes, hbytes, hs⟩
    cases hbytes
    unfold Supplies at hs
    rw [if_pos (by decide)] at hs
    exact absurd (hs 1 (by decide)).1 (by decide)

end MemoryUnit

end Monya
