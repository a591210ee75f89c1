/-
  Files that are open as streams, and the memory they are read into.

  A stream is the bytes of a file, one position that all operations share, and a fail flag: a read
  that gets fewer bytes than it asked for sets it, and while it is set seeks, reads and writes do
  nothing. Where a stream stands depends on the size of the file only, not on its bytes: its
  `Cursor` makes the same moves (`cursor_seek`, `cursor_read`, `cursor_write`, `cursor_readEach`).

  A program reads into raw memory (`Raw`), whose bytes are unset until something writes them. A
  `Codec` says how values of a type lie in memory, `w` bytes each; `elem` is what a pointer of that
  type reads. `FStream.readEach` is the loop that seeks and reads one value at a time.
-/
import Mathlib.Data.List.Basic
import Monya.Lib.Heap

namespace Monya.Lib

structure FStream where
  bytes : List UInt8
  pos : Nat
  fail : Bool
  deriving DecidableEq, Repr

/-- The files there are, with their contents. -/
abbrev Files := String → Option (List UInt8)

/-- Memory, with `none` for a byte that has not been written. -/
abbrev Raw := List (Option UInt8)

namespace Raw

/-- Fresh memory. -/
def blank (n : Nat) : Raw := List.replicate n none

/-- `bs` written at `off`. -/
def fill (dst : Raw) (off : Nat) (bs : List UInt8) : Raw :=
  dst.take off ++ bs.map some ++ dst.drop (off + bs.length)

@[simp] theorem length_blank (n : Nat) : (blank n).length = n := List.length_replicate

theorem fill_all {dst : Raw} {bs : List UInt8} (h : bs.length = dst.length) :
    dst.fill 0 bs = bs.map some := by
  simp [fill, h]

/-- Memory that is filled from the front. -/
theorem fill_append {done old : Raw} (bs : List UInt8) {off : Nat} (hoff : done.length = off) :
    (done ++ old).fill off bs = (done ++ bs.map some) ++ old.drop bs.length := by
  subst hoff
  unfold fill
  rw [List.take_left' rfl, List.drop_append, List.drop_eq_nil_of_le (by omega),
    Nat.add_sub_cancel_left, List.nil_append]

theorem drop_blank (m n : Nat) : (blank n).drop m = blank (n - m) := List.drop_replicate ..

/-- Bytes that were not written stay unset. -/
theorem fill_blank_ne {bs cs : List UInt8} {n : Nat} (h : bs.length < n) :
    (blank n).fill 0 bs ≠ cs.map some := by
  intro he
  have hmem : none ∈ (blank n).fill 0 bs := by
    simp only [fill, blank, List.take_zero, List.nil_append, Nat.zero_add, List.drop_replicate,
      List.mem_append, List.mem_replicate]
    exact Or.inr ⟨by omega, trivial⟩
  rw [he] at hmem
  simp at hmem

end Raw

/-! ## Values in memory -/

section Pieces

variable {β γ : Type} {g : β → List γ} {w : Nat}

theorem length_flatMap_const (hg : ∀ x, (g x).length = w) (xs : List β) :
    (xs.flatMap g).length = xs.length * w := by
  induction xs with
  | nil => simp
  | cons x xs ih =>
    rw [List.flatMap_cons, List.length_append, hg, ih, List.length_cons, Nat.succ_mul, Nat.add_comm]

/-- A stretch of whole pieces, if all pieces have one length. -/
theorem flatMap_slice (hg : ∀ x, (g x).length = w) (xs : List β) (i m : Nat) :
    ((xs.flatMap g).drop (i * w)).take (m * w) = ((xs.drop i).take m).flatMap g := by
  rcases Nat.le_total xs.length i with hi | hi
  · rw [List.drop_eq_nil_of_le hi, List.drop_eq_nil_of_le, List.take_nil, List.take_nil]
    · rfl
    · rw [length_flatMap_const hg]
      exact Nat.mul_le_mul_right w hi
  · have hsplit : xs.flatMap g = (xs.take i).flatMap g ++ (xs.drop i).flatMap g := by
      rw [← List.flatMap_append, List.take_append_drop]
    have hlen : ((xs.take i).flatMap g).length = i * w := by
      rw [length_flatMap_const hg, List.length_take, Nat.min_eq_left hi]
    rw [hsplit, List.drop_left' hlen]
    rcases Nat.le_total (xs.drop i).length m with hm | hm
    · rw [List.take_of_length_le hm, List.take_of_length_le]
      rw [length_flatMap_const hg]
      exact Nat.mul_le_mul_right w hm
    · have hsplit' : (xs.drop i).flatMap g =
          ((xs.drop i).take m).flatMap g ++ ((xs.drop i).drop m).flatMap g := by
        rw [← List.flatMap_append, List.take_append_drop]
      have hlen' : (((xs.drop i).take m).flatMap g).length = m * w := by
        rw [length_flatMap_const hg, List.length_take, Nat.min_eq_left hm]
      rw [hsplit', List.take_left' hlen']

theorem flatMap_get (hg : ∀ x, (g x).length = w) {xs : List β} {i : Nat} {x : β}
    (h : xs[i]? = some x) : ((xs.flatMap g).drop (i * w)).take w = g x := by
  have hslice := flatMap_slice hg xs i 1
  have hone : (xs.drop i).take 1 = [x] := by
    rw [List.take_one, List.head?_drop, h]
    rfl
  rw [Nat.one_mul, hone, List.flatMap_singleton] at hslice
  exact hslice

end Pieces

/-- How values lie in memory, `w` bytes each. -/
structure Codec (α : Type) (w : Nat) where
  encode : α → List UInt8
  decode : List UInt8 → α
  length_encode : ∀ x, (encode x).length = w
  decode_encode : ∀ x, decode (encode x) = x

namespace Codec

variable {α : Type} {w : Nat} (c : Codec α w)

def encodeAll (xs : List α) : List UInt8 := xs.flatMap c.encode

/-- The bytes of a value, if all of them are set. -/
def decodeRaw (bs : Raw) : Option α := (bs.mapM id).map c.decode

/-- The `j`-th value at `raw`. -/
def elem (raw : Raw) : Buf α := fun j =>
  let bs := (raw.drop (j * w)).take w
  if bs.length = w then c.decodeRaw bs else none

theorem decodeRaw_map_some (bs : List UInt8) : c.decodeRaw (bs.map some) = some (c.decode bs) := by
  have h : (bs.map some).mapM id = some bs := by
    induction bs with
    | nil => rfl
    | cons b bs ih => simp [ih]
  rw [decodeRaw, h]
  rfl

theorem length_encodeAll (xs : List α) : (c.encodeAll xs).length = xs.length * w :=
  length_flatMap_const c.length_encode xs

theorem encodeAll_append (xs ys : List α) :
    c.encodeAll (xs ++ ys) = c.encodeAll xs ++ c.encodeAll ys := List.flatMap_append

/-- A stretch of whole values. -/
theorem encodeAll_slice (xs : List α) (i m : Nat) :
    ((c.encodeAll xs).drop (i * w)).take (m * w) = c.encodeAll ((xs.drop i).take m) :=
  flatMap_slice c.length_encode xs i m

theorem encodeAll_get {xs : List α} {i : Nat} {x : α} (h : xs[i]? = some x) :
    ((c.encodeAll xs).drop (i * w)).take w = c.encode x := flatMap_get c.length_encode h

/-- What is read back is what was laid out. -/
theorem elem_encodeAll {xs : List α} {j : Nat} {x : α} (h : xs[j]? = some x) :
    c.elem ((c.encodeAll xs).map some) j = some x := by
  have hbytes : (((c.encodeAll xs).map some).drop (j * w)).take w = (c.encode x).map some := by
    rw [← List.map_drop, ← List.map_take, c.encodeAll_get h]
  unfold elem
  rw [hbytes, if_pos (by rw [List.length_map, c.length_encode]), decodeRaw_map_some,
    c.decode_encode]

/-- What lies behind a value does not matter. -/
theorem elem_append {raw : Raw} {j : Nat} {x : α} (h : c.elem raw j = some x) (beyond : Raw) :
    c.elem (raw ++ beyond) j = some x := by
  unfold elem at h ⊢
  dsimp only at h ⊢
  split at h
  · next hlen =>
    have hle : w ≤ (raw.drop (j * w)).length := by
      rw [List.length_take] at hlen
      omega
    rw [List.drop_append, List.take_append_of_le_length hle, if_pos hlen]
    exact h
  · cases h

/-- The values laid out, as a buffer. -/
theorem elem_encodeAll_eq (hw : 0 < w) (xs : List α) :
    c.elem ((c.encodeAll xs).map some) = fun j => xs[j]? := by
  funext j
  cases hx : xs[j]? with
  | some x => exact c.elem_encodeAll hx
  | none =>
    have hlen : xs.length * w ≤ j * w := Nat.mul_le_mul_right w (List.getElem?_eq_none_iff.mp hx)
    have hnil : ((c.encodeAll xs).map some).drop (j * w) = [] := by
      refine List.drop_eq_nil_of_le ?_
      rw [List.length_map, length_encodeAll]
      exact hlen
    unfold elem
    rw [hnil, List.take_nil]
    exact if_neg (by simp; omega)

end Codec

/-! ## Numbers in little-endian order -/

def leBytes : Nat → Nat → List UInt8
  | 0, _ => []
  | w + 1, n => UInt8.ofNat n :: leBytes w (n / 256)

def leNat : List UInt8 → Nat
  | [] => 0
  | b :: bs => b.toNat + 256 * leNat bs

@[simp] theorem length_leBytes (w n : Nat) : (leBytes w n).length = w := by
  induction w generalizing n with
  | zero => rfl
  | succ w ih => rw [leBytes, List.length_cons, ih]

theorem leNat_leBytes (w n : Nat) : leNat (leBytes w n) = n % 256 ^ w := by
  induction w generalizing n with
  | zero => simp [leBytes, leNat, Nat.mod_one]
  | succ w ih =>
    have hmod : n % 256 ^ (w + 1) = n % 256 + 256 * (n / 256 % 256 ^ w) := by
      rw [Nat.pow_succ', Nat.mod_mul]
    rw [leBytes, leNat, ih, UInt8.toNat_ofNat', hmod]

/-- Numbers of one width have the same bytes if they are the same. -/
theorem leNat_inj {xs ys : List UInt8} (hlen : xs.length = ys.length) :
    leNat xs = leNat ys ↔ xs = ys := by
  constructor
  · intro h
    induction xs generalizing ys with
    | nil => exact (List.length_eq_zero_iff.mp hlen.symm).symm
    | cons x xs ih =>
      cases ys with
      | nil => simp at hlen
      | cons y ys =>
        rw [leNat, leNat] at h
        have hx := x.toNat_lt
        have hy := y.toNat_lt
        have hhead : x = y := UInt8.toNat_inj.mp (by omega)
        have htail : leNat xs = leNat ys := by omega
        rw [hhead, ih (Nat.succ.inj hlen) htail]
  · exact congrArg leNat

/-! ## Streams -/

namespace FStream

def opened (bytes : List UInt8) : FStream := ⟨bytes, 0, false⟩

def seek (f : FStream) (pos : Nat) : FStream := if f.fail then f else { f with pos }

/-- The bytes a read of `n` gets. -/
def read (f : FStream) (n : Nat) : List UInt8 × FStream :=
  if f.fail then ([], f)
  else
    let got := (f.bytes.drop f.pos).take n
    (got, { f with pos := f.pos + got.length, fail := decide (got.length < n) })

/-- `bs` written where the stream stands: over what is there, and beyond the end with zeros up to
    that place. -/
def write (f : FStream) (bs : List UInt8) : FStream :=
  if f.fail || bs.isEmpty then f
  else
    { f with
      bytes := f.bytes.take f.pos ++ List.replicate (f.pos - f.bytes.length) 0 ++ bs ++
        f.bytes.drop (f.pos + bs.length)
      pos := f.pos + bs.length }

variable {f : FStream}

theorem read_full {n : Nat} (hf : f.fail = false) (h : f.pos + n ≤ f.bytes.length) :
    f.read n = ((f.bytes.drop f.pos).take n, ⟨f.bytes, f.pos + n, false⟩) := by
  have hlen : ((f.bytes.drop f.pos).take n).length = n := by
    rw [List.length_take, List.length_drop]
    omega
  simp only [read, hf, hlen, lt_irrefl, decide_false, Bool.false_eq_true, if_false]

/-- What is ahead of the stream is read, piece by piece. -/
theorem read_ahead {bs rest : List UInt8} (hf : f.fail = false)
    (h : f.bytes.drop f.pos = bs ++ rest) :
    f.read bs.length = (bs, ⟨f.bytes, f.pos + bs.length, false⟩) ∧
      f.bytes.drop (f.pos + bs.length) = rest := by
  have hlen := congrArg List.length h
  rw [List.length_drop, List.length_append] at hlen
  constructor
  · rcases Nat.eq_zero_or_pos bs.length with h0 | h0
    · obtain rfl := List.length_eq_zero_iff.mp h0
      cases f
      simp_all [read]
    · rw [read_full hf (by omega), h, List.take_left' rfl]
  · rw [← List.drop_drop, h, List.drop_left' rfl]

theorem seek_read {pos n : Nat} (hf : f.fail = false) (h : pos + n ≤ f.bytes.length) :
    (f.seek pos).read n = ((f.bytes.drop pos).take n, ⟨f.bytes, pos + n, false⟩) := by
  have hseek : f.seek pos = { f with pos } := by simp [seek, hf]
  rw [hseek]
  exact read_full hf h

/-- `n` values of `w` bytes, the `k`-th from the place `place k`. -/
def readEach (f : FStream) (w : Nat) (place : Nat → Nat) (n : Nat) : Raw × FStream :=
  (List.range n).foldl (fun s k =>
    let r := (s.2.seek (place k)).read w
    (s.1.fill (k * w) r.1, r.2)) (Raw.blank (n * w), f)

/-- If every place is inside the file, the loop collects their bytes and the stream stays good; it
    then stands behind the last of them. -/
theorem readEach_ok {w : Nat} {place : Nat → Nat} {n : Nat} (hf : f.fail = false)
    (h : ∀ k, k < n → place k + w ≤ f.bytes.length) :
    f.readEach w place n = (((List.range n).flatMap fun k =>
      (f.bytes.drop (place k)).take w).map some,
      ⟨f.bytes, if n = 0 then f.pos else place (n - 1) + w, false⟩) := by
  suffices hloop : ∀ m, m ≤ n → (List.range m).foldl (fun (s : Raw × FStream) k =>
      let r := (s.2.seek (place k)).read w
      (s.1.fill (k * w) r.1, r.2)) (Raw.blank (n * w), f) =
      (((List.range m).flatMap fun k => (f.bytes.drop (place k)).take w).map some ++
        Raw.blank ((n - m) * w),
        ⟨f.bytes, if m = 0 then f.pos else place (m - 1) + w, false⟩) by
    rw [readEach, hloop n (le_refl n), Nat.sub_self, Nat.zero_mul, Raw.blank, List.replicate_zero,
      List.append_nil]
  intro m
  induction m with
  | zero =>
    intro _
    cases f
    simp_all
  | succ m ih =>
    intro hm
    -- every value so far has its `w` bytes
    have hlen : (((List.range m).flatMap fun k =>
        (f.bytes.drop (place k)).take w).map some).length = m * w := by
      rw [List.length_map, List.length_flatMap, List.map_congr_left (g := fun _ => w)]
      · simp
      · intro k hk
        have := h k (by have := List.mem_range.mp hk; omega)
        rw [List.length_take, List.length_drop]
        omega
    have hread := h m (by omega)
    have hgot : ((f.bytes.drop (place m)).take w).length = w := by
      rw [List.length_take, List.length_drop]
      omega
    have hstep : ∀ pos, ((⟨f.bytes, pos, false⟩ : FStream).seek (place m)).read w =
        ((f.bytes.drop (place m)).take w, ⟨f.bytes, place m + w, false⟩) :=
      fun pos => seek_read rfl hread
    rw [List.range_succ, List.foldl_append, ih (by omega)]
    simp only [List.foldl_cons, List.foldl_nil, hstep]
    rw [Raw.fill_append _ hlen, hgot, Raw.drop_blank, List.flatMap_append, List.flatMap_singleton,
      List.map_append, if_neg (Nat.succ_ne_zero m), Nat.add_sub_cancel, ← Nat.sub_one_mul,
      Nat.sub_sub]

end FStream

/-! ## Where a stream stands -/

structure Cursor where
  size : Nat
  pos : Nat
  fail : Bool
  deriving DecidableEq, Repr

namespace Cursor

def seek (k : Cursor) (pos : Nat) : Cursor := if k.fail then k else { k with pos }

def read (k : Cursor) (n : Nat) : Cursor :=
  if k.fail then k
  else
    let got := min n (k.size - k.pos)
    { k with pos := k.pos + got, fail := decide (got < n) }

def write (k : Cursor) (n : Nat) : Cursor :=
  if k.fail || n == 0 then k else { k with size := max k.size (k.pos + n), pos := k.pos + n }

def readEach (k : Cursor) (w : Nat) (place : Nat → Nat) (n : Nat) : Cursor :=
  (List.range n).foldl (fun k i => (k.seek (place i)).read w) k

/-- Two reads in a row are one. -/
theorem read_read (k : Cursor) (m n : Nat) : (k.read m).read n = k.read (m + n) := by
  unfold read
  cases hfail : k.fail with
  | true => simp [hfail]
  | false =>
    simp only [Bool.false_eq_true, if_false]
    rcases Nat.lt_or_ge (k.size - k.pos) m with hm | hm
    · have hshort : min m (k.size - k.pos) < m := by omega
      have hshort' : min (m + n) (k.size - k.pos) < m + n := by omega
      simp only [hshort, hshort', decide_true, if_true]
      congr 1
      omega
    · simp only [Nat.min_eq_left hm, lt_irrefl, decide_false, Bool.false_eq_true, if_false]
      congr 1
      · omega
      · exact decide_eq_decide.mpr (by omega)

end Cursor

namespace FStream

def cursor (f : FStream) : Cursor := ⟨f.bytes.length, f.pos, f.fail⟩

@[simp] theorem cursor_seek (f : FStream) (pos : Nat) :
    (f.seek pos).cursor = f.cursor.seek pos := by
  unfold seek Cursor.seek
  cases h : f.fail <;> simp [cursor, h]

@[simp] theorem cursor_read (f : FStream) (n : Nat) : (f.read n).2.cursor = f.cursor.read n := by
  unfold read Cursor.read
  cases h : f.fail <;> simp [cursor, h]

theorem read_bytes (f : FStream) (n : Nat) : (f.read n).2.bytes = f.bytes := by
  unfold read
  split <;> rfl

@[simp] theorem cursor_write (f : FStream) (bs : List UInt8) :
    (f.write bs).cursor = f.cursor.write bs.length := by
  unfold write Cursor.write
  cases h : f.fail with
  | true => simp [cursor, h]
  | false =>
    cases bs with
    | nil => simp [cursor, h]
    | cons b bs =>
      simp only [cursor, h, List.isEmpty_cons, Bool.or_self, Bool.false_eq_true, if_false,
        List.length_append, List.length_take, List.length_replicate, List.length_drop,
        List.length_cons, Bool.false_or, Nat.succ_ne_zero, beq_iff_eq]
      congr 1
      omega

@[simp] theorem cursor_readEach (f : FStream) (w : Nat) (place : Nat → Nat) (n : Nat) :
    (f.readEach w place n).2.cursor = f.cursor.readEach w place n := by
  unfold readEach Cursor.readEach
  -- the memory filled so far plays no part, so it may be any
  generalize Raw.blank (n * w) = raw
  induction List.range n generalizing f raw with
  | nil => rfl
  | cons i is ih =>
    rw [List.foldl_cons, List.foldl_cons, ih, cursor_read, cursor_seek]

/-- A write extends the file by what is written, and only by that, exactly if there is nothing to
    write or the stream is good and stands at the end. -/
theorem write_extends_iff (f : FStream) (bs : List UInt8) :
    (f.write bs).bytes = f.bytes ++ bs ↔
      bs = [] ∨ f.cursor.fail = false ∧ f.cursor.pos = f.cursor.size := by
  constructor
  · intro h
    -- the lengths of the two sides decide
    have hsize : (f.cursor.write bs.length).size = f.bytes.length + bs.length := by
      rw [← cursor_write, ← List.length_append, ← h]
      rfl
    by_cases hbs : bs = []
    · exact Or.inl hbs
    have hpos : 0 < bs.length := List.length_pos_iff.mpr hbs
    refine Or.inr ?_
    unfold Cursor.write at hsize
    cases hfail : f.cursor.fail with
    | true =>
      rw [hfail, Bool.true_or, if_pos rfl] at hsize
      simp only [cursor] at hsize
      omega
    | false =>
      rw [hfail, Bool.false_or, if_neg (by simp; omega)] at hsize
      simp only [cursor] at hsize ⊢
      exact ⟨trivial, by omega⟩
  · rintro (rfl | ⟨hfail, hpos⟩)
    · simp [write]
    · simp only [cursor] at hfail hpos
      cases bs with
      | nil => simp [write]
      | cons b bs => simp [write, hfail, hpos]

end FStream

/-! ## A matrix in a file -/

/-- The `a` lines of length `b`, one after the other. -/
def lines {α : Type} (N : Nat → Nat → α) (a b : Nat) : List α :=
  (List.range (a * b)).map fun k => N (k / b) (k % b)

section Lines

variable {α : Type} {w a b p q : Nat} {N : Nat → Nat → α}

theorem line_end (hp : p < a) : p * b + b ≤ a * b := by
  rw [← Nat.succ_mul]
  exact Nat.mul_le_mul_right b hp

theorem lines_get (hp : p < a) (hq : q < b) : (lines N a b)[p * b + q]? = some (N p q) := by
  have hend : p * b + b ≤ a * b := line_end hp
  have hlt : p * b + q < a * b := by omega
  have hdiv : (p * b + q) / b = p := by
    rw [Nat.mul_comm, Nat.mul_add_div (by omega), Nat.div_eq_of_lt hq, Nat.add_zero]
  have hmod : (p * b + q) % b = q := by
    rw [Nat.mul_comm, Nat.mul_add_mod, Nat.mod_eq_of_lt hq]
  rw [lines, List.getElem?_map, List.getElem?_range hlt, Option.map_some, hdiv, hmod]

theorem length_lines : (lines N a b).length = a * b := by simp [lines]

theorem lines_slice (hp : p < a) :
    ((lines N a b).drop (p * b)).take b = (List.range b).map (N p) := by
  have hend : p * b + b ≤ a * b := line_end hp
  refine List.ext_getElem? fun q => ?_
  rcases Nat.lt_or_ge q b with hq | hq
  · rw [List.getElem?_take_of_lt hq, List.getElem?_drop, lines_get hp hq, List.getElem?_map,
      List.getElem?_range hq]
    rfl
  · rw [List.getElem?_eq_none, List.getElem?_eq_none]
    · simpa using hq
    · rw [List.length_take]
      omega

theorem lines_succ (N : Nat → Nat → α) (a b : Nat) :
    lines N (a + 1) b = lines N a b ++ (List.range b).map (N a) := by
  rw [lines, Nat.succ_mul, List.range_add, List.map_append, List.map_map]
  refine congrArg _ (List.map_congr_left fun q hq => ?_)
  have hq : q < b := List.mem_range.mp hq
  simp only [Function.comp_apply]
  rw [Nat.mul_comm a b, Nat.mul_add_div (by omega), Nat.div_eq_of_lt hq, Nat.add_zero,
    Nat.mul_add_mod, Nat.mod_eq_of_lt hq]

variable (c : Codec α w) {f : FStream}

/-- One line is read in one piece. -/
theorem FStream.read_line (hf : f.fail = false) (hb : f.bytes = c.encodeAll (lines N a b))
    (hp : p < a) :
    (f.seek (p * b * w)).read (w * b) =
      (c.encodeAll ((List.range b).map (N p)), ⟨f.bytes, (p * b + b) * w, false⟩) := by
  have hlen : f.bytes.length = a * b * w := by rw [hb, c.length_encodeAll, length_lines]
  have hend : p * b * w + w * b ≤ f.bytes.length := by
    rw [hlen, Nat.mul_comm w b, ← Nat.add_mul]
    exact Nat.mul_le_mul_right w (line_end hp)
  rw [seek_read hf hend, hb, Nat.mul_comm w b, c.encodeAll_slice, lines_slice hp, ← Nat.add_mul]

/-- The `q`-th values of all lines are read one by one. -/
theorem FStream.read_across (hf : f.fail = false) (hb : f.bytes = c.encodeAll (lines N a b))
    (hq : q < b) :
    f.readEach w (fun p => (p * b + q) * w) a =
      ((c.encodeAll ((List.range a).map fun p => N p q)).map some,
        ⟨f.bytes, if a = 0 then f.pos else ((a - 1) * b + q) * w + w, false⟩) := by
  have hplace : ∀ k, k < a → (k * b + q) * w + w ≤ f.bytes.length := by
    intro k hk
    have hend : k * b + b ≤ a * b := line_end hk
    rw [hb, c.length_encodeAll, length_lines, ← Nat.succ_mul]
    exact Nat.mul_le_mul_right w (by omega)
  have hget : ∀ k ∈ List.range a, (f.bytes.drop ((k * b + q) * w)).take w = c.encode (N k q) := by
    intro k hk
    rw [hb]
    exact c.encodeAll_get (lines_get (List.mem_range.mp hk) hq)
  rw [readEach_ok hf hplace, Codec.encodeAll, List.flatMap_map, List.flatMap_congr hget]

end Lines

end Monya.Lib
