/-
  `fvecs_reader` (`io/vecs_reader.hpp`): files of vectors, each a 4-byte dimension and its values.

  `read_dim` is one `int` for all records. A read that gets fewer than four bytes leaves the rest of
  it as it was, and before the first record it holds anything (`junk`). `fvecs_decodes`: on a
  well-formed file the reader fills the buffer with the vectors one after the other, whatever comes
  behind them in the file, and leaves alone what is behind them in memory.
-/
import Monya.Io.MemoryIO

namespace Monya

open Monya.Lib

/-- The four bytes of an `int`. -/
abbrev IntBytes := { bs : List UInt8 // bs.length = 4 }

/-- The bytes `got` are read into an `int`. -/
def IntBytes.load (x : IntBytes) (got : List UInt8) : IntBytes :=
  ⟨(got ++ x.1.drop got.length).take 4, by
    rw [List.length_take, List.length_append, List.length_drop, x.2]
    omega⟩

/-- One pass of the loop in `fvecs_reader::read`. -/
def fvecsStep (ncol : Nat) (s : Raw × IntBytes × FStream) (row : Nat) :
    Except Fault (Raw × IntBytes × FStream) :=
  let (buf, readDim, fs) := s
  let r := fs.read dtypeSize
  let readDim := readDim.load r.1
  -- two `int`s are compared, so their bits are
  if leNat readDim.1 ≠ ncol % 2 ^ 32 then .error .assertion
  else
    let r := r.2.read (ncol * dtypeSize)
    .ok (buf.fill (row * ncol * dtypeSize) r.1, readDim, r.2)

/-- `fvecs_reader(nrow, ncol)::read(buf)`. -/
def fvecsRead (junk : IntBytes) (nrow ncol : Nat) (buf : Raw) (fs : FStream) :
    Except Fault Raw := do
  let s ← (List.range nrow).foldlM (fvecsStep ncol) (buf, junk, fs)
  return s.1

section WellFormed

variable {α : Type} (c : Codec α dtypeSize) (V : Nat → Nat → α)

/-- One record. -/
def fvecsRecord (d i : Nat) : List UInt8 :=
  leBytes 4 d ++ c.encodeAll ((List.range d).map (V i))

/-- The file of the vectors `V 0`, ..., `V (n - 1)` of dimension `d`. -/
def fvecsBytes (n d : Nat) : List UInt8 := (List.range n).flatMap (fvecsRecord c V d)

variable {c V} {n d : Nat}

theorem load_leBytes (x : IntBytes) (d : Nat) : leNat (x.load (leBytes 4 d)).1 = d % 2 ^ 32 := by
  have hload : (x.load (leBytes 4 d)).1 = leBytes 4 d := by
    unfold IntBytes.load
    rw [length_leBytes]
    exact List.take_left' (length_leBytes 4 d)
  have hpow : 256 ^ 4 = 2 ^ 32 := by norm_num
  rw [hload, leNat_leBytes, hpow]

/-- One record, with `m` of them in the buffer. -/
theorem fvecsStep_ok {m : Nat} {old : Raw} {readDim : IntBytes} {fs : FStream}
    {rest : List UInt8} (hfail : fs.fail = false)
    (hahead : fs.bytes.drop fs.pos = fvecsRecord c V d m ++ rest) :
    ∃ readDim' fs', fvecsStep d ((c.encodeAll (lines V m d)).map some ++ old, readDim, fs) m =
      .ok ((c.encodeAll (lines V (m + 1) d)).map some ++ old.drop (d * dtypeSize),
        readDim', fs') ∧
      fs'.fail = false ∧ fs'.bytes.drop fs'.pos = rest := by
  have hdim : (leBytes 4 d).length = dtypeSize := length_leBytes 4 d
  have hrow : (c.encodeAll ((List.range d).map (V m))).length = d * dtypeSize := by
    rw [c.length_encodeAll, List.length_map, List.length_range]
  rw [fvecsRecord, List.append_assoc] at hahead
  obtain ⟨hread, hahead⟩ := FStream.read_ahead hfail hahead
  rw [hdim] at hread hahead
  obtain ⟨hread', hahead'⟩ := FStream.read_ahead
    (f := ⟨fs.bytes, fs.pos + dtypeSize, false⟩) rfl hahead
  rw [hrow] at hread' hahead'
  refine ⟨readDim.load (leBytes 4 d), ⟨fs.bytes, fs.pos + dtypeSize + d * dtypeSize, false⟩, ?_,
    rfl, hahead'⟩
  have hfilled : ((c.encodeAll (lines V m d)).map some).length = m * d * dtypeSize := by
    rw [List.length_map, c.length_encodeAll, length_lines]
  unfold fvecsStep
  simp only [hread, hread', load_leBytes, ne_eq, not_true_eq_false, if_false]
  rw [Raw.fill_append _ hfilled, hrow, ← List.map_append, ← c.encodeAll_append, ← lines_succ]

/-- Into any memory: the vectors at its front, and behind them what was there. -/
theorem fvecsRead_over (junk : IntBytes) (n d : Nat) (buf : Raw) {fs : FStream}
    {rest : List UInt8} (hfail : fs.fail = false)
    (hahead : fs.bytes.drop fs.pos = fvecsBytes c V n d ++ rest) :
    fvecsRead junk n d buf fs =
      .ok ((c.encodeAll (lines V n d)).map some ++ buf.drop (n * (d * dtypeSize))) := by
  -- `m` records have been read and the others are ahead
  obtain ⟨⟨raw, readDim, fs'⟩, hrun, hraw, -⟩ := foldlM_range (fvecsStep d) n
    (fun m s => s.1 = (c.encodeAll (lines V m d)).map some ++ buf.drop (m * (d * dtypeSize)) ∧
      s.2.2.fail = false ∧ s.2.2.bytes.drop s.2.2.pos =
        ((List.range n).drop m).flatMap (fvecsRecord c V d) ++ rest)
    (fun m s hm hs => by
      obtain ⟨raw, readDim, fs'⟩ := s
      obtain ⟨rfl, hfail', hahead'⟩ := hs
      have hnext : (List.range n).drop m = m :: (List.range n).drop (m + 1) := by
        rw [List.drop_eq_getElem_cons (by simpa using hm), List.getElem_range]
      rw [hnext, List.flatMap_cons, List.append_assoc] at hahead'
      obtain ⟨readDim₁, fs₁, hstep, hfail₁, hahead₁⟩ := fvecsStep_ok hfail' hahead'
      refine ⟨_, hstep, ?_, hfail₁, hahead₁⟩
      rw [List.drop_drop, Nat.succ_mul])
    (s := (buf, junk, fs)) ⟨by simp [lines, Codec.encodeAll], hfail, hahead⟩
  rw [fvecsRead, hrun, ok_bind]
  exact congrArg Except.ok hraw

theorem fvecsRead_ok (junk : IntBytes) (n d : Nat) {fs : FStream} {rest : List UInt8}
    (hfail : fs.fail = false) (hahead : fs.bytes.drop fs.pos = fvecsBytes c V n d ++ rest) :
    fvecsRead junk n d (Raw.blank (n * d * dtypeSize)) fs =
      .ok ((c.encodeAll (lines V n d)).map some) := by
  rw [fvecsRead_over junk n d _ hfail hahead, Raw.drop_blank, Nat.mul_assoc, Nat.sub_self,
    Raw.blank, List.replicate_zero, List.append_nil]

end WellFormed

/-- The reader inverts the encoding: of `buf` the first `n * d` values are the vectors row by row,
    and the rest is as it was. -/
theorem fvecs_decodes {α : Type} (c : Codec α dtypeSize) (junk : IntBytes) (V : Nat → Nat → α)
    (n d : Nat) (trailing : List UInt8) {buf : Raw} (hroom : n * d * dtypeSize ≤ buf.length) :
    ∃ raw, fvecsRead junk n d buf (.opened (fvecsBytes c V n d ++ trailing)) = .ok raw ∧
      raw.length = buf.length ∧
      (∀ i j, i < n → j < d → c.elem raw (i * d + j) = some (V i j)) ∧
      raw.drop (n * d * dtypeSize) = buf.drop (n * d * dtypeSize) := by
  have hlen : ((c.encodeAll (lines V n d)).map some).length = n * d * dtypeSize := by
    rw [List.length_map, c.length_encodeAll, length_lines]
  have hahead : (FStream.opened (fvecsBytes c V n d ++ trailing)).bytes.drop 0 =
      fvecsBytes c V n d ++ trailing := rfl
  refine ⟨_, fvecsRead_over junk n d buf rfl hahead, ?_, fun i j hi hj => ?_, ?_⟩
  · rw [List.length_append, hlen, List.length_drop, ← Nat.mul_assoc]
    omega
  · exact c.elem_append (c.elem_encodeAll (lines_get hi hj)) _
  · rw [List.drop_left' hlen, Nat.mul_assoc]

/-- The vectors 1 and 2, of one value each, into memory for three values. -/
theorem fvecs_decodes_two :
    ∃ raw, fvecsRead ⟨[0, 0, 0, 0], rfl⟩ 2 1 (Raw.blank 12)
        (.opened [1, 0, 0, 0, 1, 0, 0, 0, 1, 0, 0, 0, 2, 0, 0, 0, 9]) = .ok raw ∧
      byteCodec.elem raw 0 = some 1 ∧ byteCodec.elem raw 1 = some 2 ∧
      raw.drop 8 = [none, none, none, none] := by
  have hroom : 2 * 1 * dtypeSize ≤ (Raw.blank 12).length := by decide
  obtain ⟨raw, hread, -, helem, hrest⟩ := fvecs_decodes byteCodec ⟨[0, 0, 0, 0], rfl⟩
    (fun i _ => UInt8.ofNat (i + 1)) 2 1 [9] hroom
  exact ⟨raw, hread, helem 0 0 (by decide) (by decide), helem 1 0 (by decide) (by decide), hrest⟩

end Monya
