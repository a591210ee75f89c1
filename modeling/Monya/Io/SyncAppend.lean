/-
  `SyncIO::append` (`io/IO.hpp`) over histories of calls on one open object.

  `append` writes where the stream stands, and reads, writes and appends all move that one place.
  A history moves it by the sizes it is given and not by the bytes in the file (`history_follows`):
  `move` is what one call does to the stream's `Cursor`. `append_extends_iff`: an `append` adds its
  values behind what is in the file, and nothing else, exactly if there are none to add, or no read
  of the history was short and the history ends at the end of the file (`AtEnd`).

  On a file that has just been opened this fails at once: the stream stands at the front, and the
  values go over the first ones of the file (`append_overwrites_front`).
-/
import Monya.Io.SyncIO

namespace Monya.SyncIO

open Monya.Lib

/-! ## Histories -/

/-- A call on an open `SyncIO`. `read` asks `stat` for the size of the file, which sees what the
    stream has flushed: `seen` is what there is to see at that time. -/
inductive Op (α : Type) where
  | call (seen : Files) (call : Call)
  | write (buf : List UInt8) (offset nbytes : Nat)
  | append (buf : List α) (nelem : Nat)

/-- The memory behind a pointer that is passed holds as much as is asked of it. -/
def Op.Backed {α : Type} : Op α → Prop
  | .call _ _ => True
  | .write buf _ nbytes => nbytes ≤ buf.length
  | .append buf nelem => nelem ≤ buf.length

variable {α : Type} (c : Codec α dtypeSize)

def operate (io : SyncIO) : Op α → Except Fault SyncIO
  | .call seen call => (io.perform seen call).map Prod.snd
  | .write buf offset nbytes => io.writeAt buf offset nbytes
  | .append buf nelem => io.append c buf nelem

/-- The object after a call. An exception (a `get_row` in an orientation that has none) leaves it
    as it was, and the caller may go on with it. -/
def attempt (io : SyncIO) (op : Op α) : Except Fault SyncIO :=
  match io.operate c op with
  | .error (.thrown _) => .ok io
  | r => r

def history (ops : List (Op α)) (io : SyncIO) : Except Fault SyncIO := ops.foldlM (attempt c) io

/-- The file, with what the stream has yet to flush. -/
def file (io : SyncIO) : List UInt8 := (io.fs.map FStream.bytes).getD []

/-! ## Where a history leaves the stream -/

/-- What `get_row` and `get_col` do to the place. -/
def moveAccess (io : SyncIO) (k : Cursor) : Access → Cursor
  | .row i =>
      match io.orientation with
      | .row => (k.seek (i * io.nfeatures * dtypeSize)).read (dtypeSize * io.nfeatures)
      | .col => k.readEach dtypeSize (fun col => (col * io.nsamples + i) * dtypeSize) io.nfeatures
      | _ => k
  | .col j =>
      match io.orientation with
      | .col => (k.seek (j * io.nsamples * dtypeSize)).read (dtypeSize * io.nsamples)
      | .row => k.readEach dtypeSize (fun row => (row * io.nfeatures + j) * dtypeSize) io.nsamples
      | _ => k

/-- What a call does to the place. Of `io` only the name and the shape matter, which no call
    changes. -/
def move (io : SyncIO) (k : Cursor) : Op α → Cursor
  | .call seen .read => k.read (getFileSize seen io.fn)
  | .call _ (.access a) => io.moveAccess k a
  | .write _ offset nbytes => (k.seek offset).write nbytes
  | .append _ nelem => k.write (dtypeSize * nelem)

/-- No read of the calls is short, and the last of them leaves the stream at the end of the file,
    which has `size` bytes and has just been opened. -/
def AtEnd (io : SyncIO) (size : Nat) (ops : List (Op α)) : Prop :=
  (ops.foldl io.move ⟨size, 0, false⟩).fail = false ∧
    (ops.foldl io.move ⟨size, 0, false⟩).pos = (ops.foldl io.move ⟨size, 0, false⟩).size

instance (io : SyncIO) (size : Nat) (ops : List (Op α)) : Decidable (io.AtEnd size ops) :=
  inferInstanceAs (Decidable (_ ∧ _))

/-- `io'` is `io` with its stream at `k`, and perhaps another buffer. -/
structure Follows (io : SyncIO) (k : Cursor) (io' : SyncIO) : Prop where
  stream : ∃ f, io'.fs = some f ∧ f.cursor = k
  fn : io'.fn = io.fn
  orientation : io'.orientation = io.orientation
  nsamples : io'.nsamples = io.nsamples
  nfeatures : io'.nfeatures = io.nfeatures

/-- An access either moves the stream or throws and leaves it. -/
theorem access_moves {io : SyncIO} {f : FStream} (hfs : io.fs = some f) (a : Access) :
    (∃ raw f' d, io.access a = .ok (raw, { io with fs := some f', data := d }) ∧
      f'.cursor = io.moveAccess f.cursor a) ∨
    (∃ what, io.access a = .error (.thrown what)) ∧ io.moveAccess f.cursor a = f.cursor := by
  -- in each orientation one of the two calls is a single read and the other a loop of reads
  cases a with
  | row i =>
    unfold access getRow moveAccess
    simp only [hfs]
    cases io.orientation with
    | row => exact Or.inl ⟨_, _, _, rfl, by rw [FStream.cursor_read, FStream.cursor_seek]⟩
    | col => exact Or.inl ⟨_, _, _, rfl, FStream.cursor_readEach ..⟩
    | band => exact Or.inr ⟨⟨_, rfl⟩, rfl⟩
    | invalid => exact Or.inr ⟨⟨_, rfl⟩, rfl⟩
  | col j =>
    unfold access getCol moveAccess
    simp only [hfs]
    cases io.orientation with
    | row => exact Or.inl ⟨_, _, _, rfl, FStream.cursor_readEach ..⟩
    | col => exact Or.inl ⟨_, _, _, rfl, by rw [FStream.cursor_read, FStream.cursor_seek]⟩
    | band => exact Or.inr ⟨⟨_, rfl⟩, rfl⟩
    | invalid => exact Or.inr ⟨⟨_, rfl⟩, rfl⟩

section Follows

variable {io io' : SyncIO} {k : Cursor} (h : Follows io k io')

include h

theorem Follows.moveAccess_eq (k' : Cursor) (a : Access) :
    io'.moveAccess k' a = io.moveAccess k' a := by
  unfold moveAccess
  rw [h.orientation, h.nsamples, h.nfeatures]

/-- The stream has moved. -/
theorem Follows.moved (f : FStream) (d : Option Raw) :
    Follows io f.cursor { io' with fs := some f, data := d } :=
  ⟨⟨f, rfl, rfl⟩, h.fn, h.orientation, h.nsamples, h.nfeatures⟩

theorem Follows.attempt_read (seen : Files) :
    ∃ io'', attempt c io' (.call seen .read) = .ok io'' ∧
      Follows io (k.read (getFileSize seen io.fn)) io'' := by
  obtain ⟨f, hfs, rfl⟩ := h.stream
  have hroom : ¬ getFileSize seen io.fn < (f.read (getFileSize seen io.fn)).1.length := by
    rw [not_lt]
    unfold FStream.read
    split
    · exact Nat.zero_le _
    · exact List.length_take_le _ _
  refine ⟨{ io' with fs := some (f.read (getFileSize seen io.fn)).2 }, ?_, ?_⟩
  · simp only [attempt, operate, perform, SyncIO.read, hfs, Option.isSome_some, if_true, pure_ok,
      ok_bind, h.fn, Raw.length_blank, if_neg hroom]
    rfl
  · rw [← FStream.cursor_read]
    exact h.moved _ _

theorem Follows.attempt_access (seen : Files) (a : Access) :
    ∃ io'', attempt c io' (.call seen (.access a)) = .ok io'' ∧
      Follows io (io.moveAccess k a) io'' := by
  obtain ⟨f, hfs, rfl⟩ := h.stream
  rw [← h.moveAccess_eq]
  rcases access_moves hfs a with ⟨raw, f', d, ha, hf'⟩ | ⟨⟨what, ha⟩, hstay⟩
  · refine ⟨{ io' with fs := some f', data := d }, ?_, ?_⟩
    · simp only [attempt, operate, perform, ha]
      rfl
    · rw [← hf']
      exact h.moved f' d
  · refine ⟨io', ?_, ?_⟩
    · simp only [attempt, operate, perform, ha]
      rfl
    · rw [hstay]
      exact h

/-- A write, wherever the stream is put before it. -/
theorem Follows.write_ok {buf : List UInt8} {nbytes : Nat} (hbuf : nbytes ≤ buf.length) :
    ∃ io'', io'.write buf nbytes = .ok io'' ∧ Follows io (k.write nbytes) io'' ∧
      (io''.file = io'.file ++ buf.take nbytes ↔ nbytes = 0 ∨ k.fail = false ∧ k.pos = k.size) := by
  obtain ⟨f, hfs, rfl⟩ := h.stream
  have hlen : (buf.take nbytes).length = nbytes := by rw [List.length_take, Nat.min_eq_left hbuf]
  refine ⟨{ io' with fs := some (f.write (buf.take nbytes)) }, ?_, ?_, ?_⟩
  · simp only [hfs, Option.map_some, SyncIO.write, if_neg (not_lt.mpr hbuf)]
  · have hmoved := h.moved (f.write (buf.take nbytes)) io'.data
    rw [FStream.cursor_write, hlen] at hmoved
    exact hmoved
  · simp only [file, hfs, Option.map_some, Option.getD_some]
    rw [FStream.write_extends_iff, ← List.length_eq_zero_iff, hlen]

theorem Follows.attempt_writeAt {buf : List UInt8} (offset : Nat) {nbytes : Nat}
    (hbuf : nbytes ≤ buf.length) :
    ∃ io'', attempt c io' (.write buf offset nbytes) = .ok io'' ∧
      Follows io ((k.seek offset).write nbytes) io'' := by
  obtain ⟨f, hfs, rfl⟩ := h.stream
  have hseek := h.moved (f.seek offset) io'.data
  rw [FStream.cursor_seek] at hseek
  obtain ⟨io'', hw, hfollows, -⟩ := hseek.write_ok hbuf
  refine ⟨io'', ?_, hfollows⟩
  simp only [attempt, operate, writeAt, hfs, Option.map_some, hw]

theorem Follows.append_ok {buf : List α} {nelem : Nat} (hbuf : nelem ≤ buf.length) :
    ∃ io'', io'.append c buf nelem = .ok io'' ∧ Follows io (k.write (dtypeSize * nelem)) io'' ∧
      (io''.file = io'.file ++ c.encodeAll (buf.take nelem) ↔
        nelem = 0 ∨ k.fail = false ∧ k.pos = k.size) := by
  have hbytes : dtypeSize * nelem ≤ (c.encodeAll buf).length := by
    rw [c.length_encodeAll, Nat.mul_comm]
    exact Nat.mul_le_mul_right dtypeSize hbuf
  have htake : (c.encodeAll buf).take (dtypeSize * nelem) = c.encodeAll (buf.take nelem) := by
    have hslice := c.encodeAll_slice buf 0 nelem
    rw [Nat.zero_mul, List.drop_zero, List.drop_zero] at hslice
    rw [Nat.mul_comm, hslice]
  have hzero : dtypeSize * nelem = 0 ↔ nelem = 0 := Nat.mul_eq_zero.trans (or_iff_right (by decide))
  obtain ⟨io'', hw, hfollows, hiff⟩ := h.write_ok hbytes
  rw [htake, hzero] at hiff
  exact ⟨io'', hw, hfollows, hiff⟩

/-- One call of a history. -/
theorem Follows.attempt_ok {op : Op α} (hback : op.Backed) :
    ∃ io'', attempt c io' op = .ok io'' ∧ Follows io (io.move k op) io'' := by
  cases op with
  | call seen call =>
    cases call with
    | read => exact h.attempt_read c seen
    | access a => exact h.attempt_access c seen a
  | write buf offset nbytes => exact h.attempt_writeAt c offset hback
  | append buf nelem =>
    obtain ⟨io'', hok, hfollows, -⟩ := h.append_ok c hback
    refine ⟨io'', ?_, hfollows⟩
    simp only [attempt, operate, hok]

end Follows

/-- A history moves the stream as its calls say, whatever the file holds. -/
theorem history_follows {io io' : SyncIO} {k : Cursor} (h : Follows io k io') {ops : List (Op α)}
    (hback : ∀ op ∈ ops, op.Backed) :
    ∃ io'', history c ops io' = .ok io'' ∧ Follows io (ops.foldl io.move k) io'' := by
  induction ops generalizing io' k with
  | nil => exact ⟨io', rfl, h⟩
  | cons op ops ih =>
    obtain ⟨io₁, h₁, hfollows⟩ := h.attempt_ok c (hback op List.mem_cons_self)
    obtain ⟨io₂, h₂, hend⟩ := ih hfollows fun op hop => hback op (List.mem_cons_of_mem _ hop)
    refine ⟨io₂, ?_, hend⟩
    rw [history, List.foldlM_cons, h₁, ok_bind]
    exact h₂

/-! ## What `append` does -/

/-- After a history on a file that has just been opened, an `append` leaves what is in the file and
    adds the values behind it exactly if there are none or the history ends at the end of the
    file. -/
theorem append_extends_iff {io₀ : SyncIO} {bytes : List UInt8}
    (hopen : io₀.fs = some (.opened bytes)) {ops : List (Op α)} (hback : ∀ op ∈ ops, op.Backed)
    {buf : List α} {nelem : Nat} (hbuf : nelem ≤ buf.length) :
    ∃ io io', history c ops io₀ = .ok io ∧ io.append c buf nelem = .ok io' ∧
      (io'.file = io.file ++ c.encodeAll (buf.take nelem) ↔
        nelem = 0 ∨ io₀.AtEnd bytes.length ops) := by
  have hstart : Follows io₀ ⟨bytes.length, 0, false⟩ io₀ :=
    ⟨⟨_, hopen, rfl⟩, rfl, rfl, rfl, rfl⟩
  obtain ⟨io, hrun, hfollows⟩ := history_follows c hstart hback
  obtain ⟨io', hok, -, hiff⟩ := hfollows.append_ok c hbuf
  exact ⟨io, io', hrun, hok, hiff⟩

/-- Reading the file through puts the stream at its end, and a first `append` keeps it there. -/
theorem append_extends_read :
    ∃ io₀ io io', new oneValue "m.bin" (1, 1) .row = .ok io₀ ∧
      history byteCodec [.call oneValue .read, .append [8] 1] io₀ = .ok io ∧
      io.append byteCodec [9] 1 = .ok io' ∧
      io'.file = io.file ++ byteCodec.encodeAll [9] := by
  have hopen : (⟨"m.bin", some (.opened [7, 0, 0, 0]), none, .row, 1, 1⟩ : SyncIO).fs =
      some (.opened [7, 0, 0, 0]) := rfl
  have hback : ∀ op ∈ ([.call oneValue .read, .append [8] 1] : List (Op UInt8)), op.Backed := by
    simp [Op.Backed]
  have hbuf : 1 ≤ ([9] : List UInt8).length := le_refl 1
  obtain ⟨io, io', hrun, hok, hiff⟩ := append_extends_iff byteCodec hopen hback hbuf
  exact ⟨_, io, io', rfl, hrun, hok, hiff.mpr (Or.inr (by decide))⟩

/-- On a file that has just been opened the value goes over the first one. -/
theorem append_overwrites_front :
    ∃ io io', new oneValue "m.bin" (1, 1) .row = .ok io ∧
      history byteCodec [] io = .ok io ∧ io.append byteCodec [9] 1 = .ok io' ∧
      io.file = [7, 0, 0, 0] ∧ io'.file = [9, 0, 0, 0] ∧
      io'.file ≠ io.file ++ byteCodec.encodeAll [9] :=
  ⟨_, _, rfl, rfl, rfl, rfl, rfl, by decide⟩

end Monya.SyncIO
