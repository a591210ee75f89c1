/-
  What the two loops of `BandMatrix` (`prototype/python/BandMatrix.py`) build.

  Seen from the transposed matrix, `_build_col_store_` does what `_build_row_store_` does: it goes
  over the diagonals in the same order, pads them at the same end and puts them into lines one after
  the other. `Loop` has what differs, `Packed` is the invariant of both, and `Stored` what they
  leave (`new_row`, `new_col`).
-/
import Monya.Prototype.BandMatrix

namespace Monya.Prototype

open Monya.Lib

namespace BandMatrix

variable {α : Type} {np : Numpy α}

/-! ## One loop for both stores -/

/-- A store's lines, and the loop that fills them. `lo` and `hi` count the lines before and after
    that of the main diagonal. -/
structure Loop (np : Numpy α) where
  put : np.Mat → Nat → np.Vec → Except Fault np.Mat
  /-- the diagonal of the matrix that is diagonal `k` for the loop -/
  diag : Int → Int
  /-- one line more, with diagonal `k` -/
  bump : Int → BandMatrix np → np.Mat → BandMatrix np
  lines : np.Mat → Nat
  size : np.Mat → Nat
  cell : np.Mat → Nat → Nat → α
  lo : BandMatrix np → Nat
  hi : BandMatrix np → Nat

def rowLoop (np : Numpy α) : Loop np where
  put := np.setCol
  diag k := k
  bump k b data := { b with
    l := b.l + if k < 0 then 1 else 0, u := b.u + if 0 < k then 1 else 0, data := data }
  lines := np.ncol
  size := np.nrow
  cell a line p := np.cell a p line
  lo := l
  hi := u

def colLoop (np : Numpy α) : Loop np where
  put := np.setRow
  diag k := -k
  bump k b data := { b with
    u := b.u + if k < 0 then 1 else 0, l := b.l + if 0 < k then 1 else 0, data := data }
  lines := np.nrow
  size := np.ncol
  cell := np.cell
  lo := u
  hi := l

namespace Loop

/-- One pass. -/
def step (L : Loop np) (mat : np.Mat) (s : BandMatrix np × Nat) (k : Int) :
    Except Fault (BandMatrix np × Nat) :=
  let d := np.diagonal mat (L.diag k)
  if np.any d then
    (L.put s.1.data s.2 (if k = 0 then d else np.pad d (-k).toNat k.toNat)).map fun data =>
      (L.bump k s.1 data, s.2 + 1)
  else .ok (s.1, if k = 0 then s.2 + 1 else s.2)

structure Laws (L : Loop np) : Prop where
  put : ∀ a line v, line < L.lines a → np.len v = L.size a → ∃ a', L.put a line v = .ok a' ∧
    L.lines a' = L.lines a ∧ L.size a' = L.size a ∧ np.cast a' = np.cast a ∧
    ∀ c < L.lines a, ∀ p < L.size a,
      L.cell a' c p = if c = line then np.cast a (np.entry v p) else L.cell a c p
  bump : ∀ k b data, L.lo (L.bump k b data) = L.lo b + (if k < 0 then 1 else 0) ∧
    L.hi (L.bump k b data) = L.hi b + (if 0 < k then 1 else 0) ∧
    (L.bump k b data).m = b.m ∧ (L.bump k b data).n = b.n ∧
    (L.bump k b data).store = b.store ∧ (L.bump k b data).data = data

end Loop

section BuildStep

variable {put : np.Mat → Nat → np.Vec → Except Fault np.Mat} {padAbove padBelow : Nat → Nat × Nat}
  {mat : np.Mat} {s : BandMatrix np × Nat} {k : Int}

/-- The line that is written for diagonal `k`. -/
def line (padAbove padBelow : Nat → Nat × Nat) (mat : np.Mat) (n : Nat) (k : Int) : np.Vec :=
  let d := np.diagonal mat k
  let ends := if 0 < k then padAbove (n - np.len d) else padBelow (n - np.len d)
  if k = 0 then d else np.pad d ends.1 ends.2

theorem buildStep_any (h : np.any (np.diagonal mat k) = true) :
    buildStep put padAbove padBelow mat s k =
      (put s.1.data s.2 (line padAbove padBelow mat s.1.n k)).map fun data =>
        (⟨s.1.m, s.1.n, s.1.l + if k < 0 then 1 else 0, s.1.u + if 0 < k then 1 else 0, s.1.nrow,
          s.1.ncol, s.1.store, data⟩, s.2 + 1) := by
  unfold buildStep line
  dsimp only
  rw [if_pos h, if_pos h]
  rcases lt_trichotomy k 0 with hneg | rfl | hpos
  · simp only [if_neg hneg.ne, if_neg hneg.le.not_gt, if_pos hneg]
    cases put _ _ _ <;> rfl
  · simp only [if_true, lt_irrefl, if_false]
    cases put _ _ _ <;> rfl
  · simp only [if_neg hpos.ne', if_pos hpos, if_neg hpos.le.not_gt]
    cases put _ _ _ <;> rfl

theorem buildStep_none (h : ¬ np.any (np.diagonal mat k) = true) :
    buildStep put padAbove padBelow mat s k = .ok (s.1, if k = 0 then s.2 + 1 else s.2) := by
  unfold buildStep
  dsimp only
  rw [if_neg h, if_neg h]
  split <;> rfl

end BuildStep

variable [Zero α]

theorem rowLoop_laws (hnp : np.Laws) : (rowLoop np).Laws where
  put a line v hline hlen := by
    obtain ⟨a', hset, hrow, hcol, hcast, hcell⟩ := hnp.setCol a line v hline hlen
    exact ⟨a', hset, hcol, hrow, hcast, fun c hc p hp => hcell p hp c hc⟩
  bump _ _ _ := ⟨rfl, rfl, rfl, rfl, rfl, rfl⟩

theorem colLoop_laws (hnp : np.Laws) : (colLoop np).Laws where
  put a line v hline hlen := hnp.setRow a line v hline hlen
  bump _ _ _ := ⟨rfl, rfl, rfl, rfl, rfl, rfl⟩

section Square

variable {mat : np.Mat} (hnp : np.Laws) (hsq : np.nrow mat = np.ncol mat)

include hnp hsq

theorem len_diagonal (k : Int) : np.len (np.diagonal mat k) = np.ncol mat - k.natAbs := by
  rw [(hnp.diagonal mat k).1, hsq]
  omega

theorem line_row {k : Int} (hk : k.natAbs ≤ np.ncol mat) :
    line padEnd padFront mat (np.ncol mat) k =
      if k = 0 then np.diagonal mat k else np.pad (np.diagonal mat k) (-k).toNat k.toNat := by
  unfold line
  dsimp only
  rw [len_diagonal hnp hsq, Nat.sub_sub_self hk]
  refine if_congr Iff.rfl rfl ?_
  split
  · congr <;> simp only [padEnd] <;> omega
  · congr <;> simp only [padFront] <;> omega

theorem line_col {k : Int} (hk : k.natAbs ≤ np.ncol mat) :
    line padFront padEnd mat (np.ncol mat) (-k) =
      if k = 0 then np.diagonal mat (-k) else np.pad (np.diagonal mat (-k)) (-k).toNat k.toNat := by
  unfold line
  dsimp only
  rw [len_diagonal hnp hsq, Int.natAbs_neg, Nat.sub_sub_self hk]
  refine if_congr neg_eq_zero rfl ?_
  split
  · congr <;> simp only [padFront] <;> omega
  · congr <;> simp only [padEnd] <;> omega

/-- `_build_row_store_` is the loop. -/
theorem buildStep_row {s : BandMatrix np × Nat} (hn : s.1.n = np.ncol mat) {k : Int}
    (hk : k.natAbs ≤ np.ncol mat) :
    buildStep np.setCol padEnd padFront mat s k = (rowLoop np).step mat s k := by
  unfold Loop.step
  dsimp only [rowLoop]
  by_cases hany : np.any (np.diagonal mat k) = true
  · rw [if_pos hany, buildStep_any hany, hn, line_row hnp hsq hk]
  · rw [if_neg hany, buildStep_none hany]

/-- And so is `_build_col_store_`, with the diagonals counted from the other side. -/
theorem buildStep_col {s : BandMatrix np × Nat} (hn : s.1.n = np.ncol mat) {k : Int}
    (hk : k.natAbs ≤ np.ncol mat) :
    buildStep np.setRow padFront padEnd mat s (-k) = (colLoop np).step mat s k := by
  unfold Loop.step
  dsimp only [colLoop]
  by_cases hany : np.any (np.diagonal mat (-k)) = true
  · rw [if_pos hany, buildStep_any hany, hn, line_col hnp hsq hk]
    simp only [neg_lt_zero, neg_pos]
  · rw [if_neg hany, buildStep_none hany]
    simp only [neg_eq_zero]

end Square

/-! ## The invariant -/

/-- What the loop sees of the matrix: `G` are the numbers that it stores. -/
structure Reads (L : Loop np) (mat : np.Mat) (G : Nat → Nat → α) (n : Nat) : Prop where
  len : ∀ k, np.len (np.diagonal mat (L.diag k)) = n - k.natAbs
  entry : ∀ k i, i < n - k.natAbs →
    np.float64 (np.entry (np.diagonal mat (L.diag k)) i) = G (i + (-k).toNat) (i + k.toNat)

/-- The numbers of the matrix as `float64`. -/
def stored (mat : np.Mat) (i j : Nat) : α := np.float64 (np.cell mat i j)

section Reads

variable {mat : np.Mat} (hnp : np.Laws) (hsq : np.nrow mat = np.ncol mat)

include hnp hsq

theorem reads_row : Reads (rowLoop np) mat (stored mat) (np.ncol mat) where
  len := len_diagonal hnp hsq
  entry k i hi := by
    have hlen := len_diagonal hnp hsq k
    rw [show (rowLoop np).diag k = k from rfl, (hnp.diagonal mat k).2 i (by omega)]
    rfl

theorem reads_col : Reads (colLoop np) mat (fun i j => stored mat j i) (np.ncol mat) where
  len k := (len_diagonal hnp hsq (-k)).trans (by rw [Int.natAbs_neg])
  entry k i hi := by
    have hlen := len_diagonal hnp hsq (-k)
    rw [Int.natAbs_neg] at hlen
    rw [show (colLoop np).diag k = -k from rfl, (hnp.diagonal mat (-k)).2 i (by omega), neg_neg]
    rfl

end Reads

section Packed

variable [DecidableEq α] {L : Loop np} {mat : np.Mat} {G : Nat → Nat → α} {n : Nat}

/-- What place `p` of a line holds of diagonal `k`; the padding stands for the cells outside the
    matrix. -/
def lineEntry (G : Nat → Nat → α) (n : Nat) (k : Int) (p : Nat) : α :=
  if 0 ≤ p + k ∧ p + k < n then G p (p + k).toNat else 0

/-- The state of the loop after the diagonals `ks`: each diagonal that takes a line is in the next
    one, and the other lines are zero. -/
structure Packed (L : Loop np) (G : Nat → Nat → α) (b₀ : BandMatrix np) (n width : Nat)
    (ks : List Int) (s : BandMatrix np × Nat) : Prop where
  line : s.2 = (kept G n ks).length
  lo : L.lo s.1 = (kept G n ks).countP (· < 0)
  hi : L.hi s.1 = (kept G n ks).countP (0 < ·)
  same : s.1.m = b₀.m ∧ s.1.n = b₀.n ∧ s.1.store = b₀.store
  lines : L.lines s.1.data = width
  size : L.size s.1.data = n
  cast : np.cast s.1.data = np.float64
  cell : ∀ c < width, ∀ p < n,
    L.cell s.1.data c p = ((kept G n ks)[c]?.map fun k => lineEntry G n k p).getD 0

omit [Zero α] [DecidableEq α] in
theorem getElem?_snoc_of_ne {β : Type} {xs : List β} {x : β} {c : Nat} (hc : c ≠ xs.length) :
    (xs ++ [x])[c]? = xs[c]? := by
  rcases Nat.lt_or_gt_of_ne hc with hlt | hgt
  · exact List.getElem?_append_left hlt
  · rw [List.getElem?_eq_none (by simpa using hgt), List.getElem?_eq_none hgt.le]

omit [DecidableEq α] in
/-- The line that the loop writes for diagonal `k`. -/
theorem Reads.line (hnp : np.Laws) (hread : Reads L mat G n) {k : Int} (hk : k.natAbs ≤ n)
    {v : np.Vec} (hv : v = if k = 0 then np.diagonal mat (L.diag k)
      else np.pad (np.diagonal mat (L.diag k)) (-k).toNat k.toNat) :
    np.len v = n ∧ ∀ p < n, np.float64 (np.entry v p) = lineEntry G n k p := by
  have hlen := hread.len k
  subst hv
  unfold lineEntry
  by_cases h0 : k = 0
  · subst h0
    rw [if_pos rfl]
    refine ⟨hlen, fun p hp => ?_⟩
    rw [hread.entry 0 p hp, if_pos (by omega)]
    rfl
  · rw [if_neg h0]
    obtain ⟨hpad, hentry⟩ := hnp.pad (np.diagonal mat (L.diag k)) (-k).toNat k.toNat
    refine ⟨by omega, fun p hp => ?_⟩
    rw [hentry p (by omega)]
    by_cases hin : 0 ≤ (p : Int) + k ∧ (p : Int) + k < n
    · have hrow : p - (-k).toNat + (-k).toNat = p := by omega
      have hcol : p - (-k).toNat + k.toNat = ((p : Int) + k).toNat := by omega
      rw [if_pos hin, if_pos (by omega), hread.entry k _ (by omega), hrow, hcol]
    · rw [if_neg hin, if_neg (by omega), hnp.float64_eq_zero]

omit [DecidableEq α] in
theorem Reads.any_iff (hnp : np.Laws) (hread : Reads L mat G n) (k : Int) :
    np.any (np.diagonal mat (L.diag k)) = true ↔ nonzero G n k := by
  rw [hnp.any, hread.len]
  refine exists_congr fun i => and_congr_right fun hi => ?_
  rw [← hread.entry k i hi, not_iff_not, hnp.float64_eq_zero]

/-- One pass of the loop. -/
theorem Packed.step {b₀ : BandMatrix np} {width : Nat} {ks : List Int} {s : BandMatrix np × Nat}
    (h : Packed L G b₀ n width ks s) (hnp : np.Laws) (hL : L.Laws) (hread : Reads L mat G n)
    {k : Int} (hk : k.natAbs ≤ n) (hroom : (kept G n (ks ++ [k])).length ≤ width) :
    ∃ s', L.step mat s k = .ok s' ∧ Packed L G b₀ n width (ks ++ [k]) s' := by
  have hany := hread.any_iff hnp k
  unfold Loop.step
  dsimp only
  by_cases hnz : nonzero G n k
  · -- the next line is written
    rw [kept_snoc_of_pos (.inr hnz), List.length_append, List.length_singleton] at hroom
    obtain ⟨hlen, hentry⟩ := hread.line hnp hk rfl
    obtain ⟨data, hput, hlines, hsize, hcast, hcell⟩ := hL.put s.1.data s.2 _
      (by rw [h.line, h.lines]; exact hroom) (hlen.trans h.size.symm)
    obtain ⟨hlo, hhi, hm, hn, hstore, hdata⟩ := hL.bump k s.1 data
    refine ⟨(L.bump k s.1 data, s.2 + 1), by rw [if_pos (hany.mpr hnz), hput]; rfl, ?_⟩
    refine ⟨?_, ?_, ?_, ⟨hm.trans h.same.1, hn.trans h.same.2.1, hstore.trans h.same.2.2⟩,
      by rw [hdata, hlines, h.lines], by rw [hdata, hsize, h.size], by rw [hdata, hcast, h.cast],
      fun c hc p hp => ?_⟩
    · rw [kept_snoc_of_pos (.inr hnz), List.length_append, h.line]
      rfl
    · rw [kept_snoc_of_pos (.inr hnz), hlo, h.lo]
      simp [List.countP_singleton]
    · rw [kept_snoc_of_pos (.inr hnz), hhi, h.hi]
      simp [List.countP_singleton]
    · rw [kept_snoc_of_pos (.inr hnz), hdata, hcell c (by rwa [h.lines]) p (by rwa [h.size])]
      by_cases hline : c = s.2
      · rw [if_pos hline, h.cast, hentry p hp, hline, h.line, List.getElem?_concat_length]
        rfl
      · rw [if_neg hline, h.cell c hc p hp, getElem?_snoc_of_ne (by rwa [← h.line])]
  · refine ⟨_, if_neg fun ha => hnz (hany.mp ha), ?_⟩
    by_cases h0 : k = 0
    · -- the main diagonal takes a line even if there is nothing to write
      subst h0
      have hzero : ∀ p < n, lineEntry G n 0 p = 0 := by
        intro p hp
        by_contra hne
        refine hnz ⟨p, hp, fun hG => hne ?_⟩
        rw [lineEntry, if_pos (by omega)]
        exact hG
      have hsnoc : kept G n (ks ++ [0]) = kept G n ks ++ [0] := kept_snoc_of_pos (.inl rfl)
      refine ⟨?_, ?_, ?_, h.same, h.lines, h.size, h.cast, fun c hc p hp => ?_⟩
      all_goals rw [hsnoc]
      · simp [h.line]
      · simp [h.lo]
      · simp [h.hi]
      · rw [h.cell c hc p hp]
        by_cases hline : c = (kept G n ks).length
        · simp [hline, hzero p hp]
        · rw [getElem?_snoc_of_ne hline]
    · have hsnoc : kept G n (ks ++ [k]) = kept G n ks :=
        kept_snoc_of_neg (not_or.mpr ⟨h0, hnz⟩)
      rw [if_neg h0]
      exact ⟨hsnoc ▸ h.line, hsnoc ▸ h.lo, hsnoc ▸ h.hi, h.same, h.lines, h.size, h.cast,
        hsnoc ▸ h.cell⟩

/-- What a loop leaves. The `e`-th line on either side of that of the main diagonal has the diagonal
    on that side with `e` others before it. -/
structure Stored (L : Loop np) (G : Nat → Nat → α) (n : Nat) (b : BandMatrix np) : Prop where
  size : L.size b.data = n
  room : L.lo b + L.hi b < L.lines b.data
  lo : L.lo b = Nat.count (below G n) (n - 1)
  hi : L.hi b = Nat.count (above G n) (n - 1)
  main : ∀ p < n, L.cell b.data (L.lo b) p = G p p
  up : ∀ p < n, ∀ a, above G n a →
    L.cell b.data (L.lo b + (Nat.count (above G n) a + 1)) p =
      if p + (a + 1) < n then G p (p + (a + 1)) else 0
  down : ∀ p < n, ∀ a, below G n a →
    L.cell b.data (L.lo b - (Nat.count (below G n) a + 1)) p =
      if a + 1 ≤ p then G p (p - (a + 1)) else 0

theorem Packed.stored {b₀ : BandMatrix np} {lo hi : Nat} (hband : Banded G n lo hi)
    {s : BandMatrix np × Nat} (h : Packed L G b₀ n (lo + hi + 1) (diagIndexes n) s) :
    Stored L G n s.1 := by
  have hlen := length_kept_le hband
  obtain ⟨-, hlo, hhi, -, hlines, hsize, -, hcell⟩ := h
  cases n with
  | zero =>
    have hlo0 : L.lo s.1 = 0 := hlo
    have hhi0 : L.hi s.1 = 0 := hhi
    exact ⟨hsize, by omega, hlo0, hhi0, fun p hp => absurd hp (Nat.not_lt_zero p),
      fun p hp => absurd hp (Nat.not_lt_zero p), fun p hp => absurd hp (Nat.not_lt_zero p)⟩
  | succ k =>
    rw [length_kept] at hlen
    rw [countP_kept_neg] at hlo
    rw [countP_kept_pos] at hhi
    refine ⟨hsize, by omega, hlo, hhi, fun p hp => ?_, fun p hp a ha => ?_, fun p hp a ha => ?_⟩
    · rw [hcell _ (by omega) p hp, hlo, kept_main, Option.map_some, Option.getD_some, lineEntry,
        if_pos (by omega), add_zero, Int.toNat_natCast]
    · have hak := (lt_of_above hband ha).2
      have hlt := Nat.count_strict_mono ha (show a < k by omega)
      rw [hcell _ (by omega) p hp, hlo, kept_above (by omega) ha, Option.map_some,
        Option.getD_some, lineEntry]
      exact if_congr (by omega) (congrArg _ (by omega)) rfl
    · have hak := (lt_of_below hband ha).2
      rw [hcell _ (by omega) p hp, hlo, kept_below (by omega) ha, Option.map_some,
        Option.getD_some, lineEntry]
      exact if_congr (by omega) (congrArg _ (by omega)) rfl

theorem natAbs_lt_of_mem {k : Int} (hk : k ∈ diagIndexes n) : k.natAbs < n := by
  obtain ⟨i, hi, rfl⟩ := List.mem_map.mp hk
  rw [List.mem_range] at hi
  omega

/-- The whole loop, from an array of zeros. -/
theorem loop_stored (hnp : np.Laws) (hL : L.Laws) (hread : Reads L mat G n) {lo hi : Nat}
    (hband : Banded G n lo hi) (f : BandMatrix np × Nat → Int → Except Fault (BandMatrix np × Nat))
    (b₀ : BandMatrix np)
    (hf : ∀ s k, s.1.n = b₀.n → k.natAbs ≤ n → f s k = L.step mat s k)
    (h₀ : Packed L G b₀ n (lo + hi + 1) [] (b₀, 0)) :
    ∃ s, (diagIndexes n).foldlM f (b₀, 0) = .ok s ∧
      (s.1.m = b₀.m ∧ s.1.n = b₀.n ∧ s.1.store = b₀.store) ∧ Stored L G n s.1 := by
  obtain ⟨s, hrun, hs⟩ := foldlM_history f (diagIndexes n) (Packed L G b₀ n (lo + hi + 1))
    (fun pre k post s hks h => by
      have hmem : k ∈ diagIndexes n := by
        rw [hks]
        exact List.mem_append_right _ List.mem_cons_self
      have hsub : (pre ++ [k]).Sublist (diagIndexes n) := by
        rw [hks]
        exact (List.singleton_sublist.mpr List.mem_cons_self).append_left pre
      have hk := (natAbs_lt_of_mem hmem).le
      rw [hf s k h.same.2.1 hk]
      exact h.step hnp hL hread hk ((hsub.filter _).length_le.trans (length_kept_le hband)))
    h₀
  exact ⟨s, hrun, hs.same, hs.stored hband⟩

end Packed

section New

variable [DecidableEq α] {mat : np.Mat} {kl ku : Nat} (hnp : np.Laws)
  (hsq : np.nrow mat = np.ncol mat) (hband : Banded (np.cell mat) (np.ncol mat) kl ku)

include hnp

omit [DecidableEq α] in
/-- Conversion does not move the band. -/
theorem banded_stored (hband : Banded (np.cell mat) (np.ncol mat) kl ku) :
    Banded (stored mat) (np.ncol mat) kl ku := fun i j hi hj hne =>
  hband i j hi hj fun h0 => hne ((hnp.float64_eq_zero _).mpr h0)

theorem packed_nil {L : Loop np} {G : Nat → Nat → α} {b₀ : BandMatrix np} {n width r c : Nat}
    (hdata : b₀.data = np.zeros r c) (hlo : L.lo b₀ = 0) (hhi : L.hi b₀ = 0)
    (hlines : L.lines (np.zeros r c) = width) (hsize : L.size (np.zeros r c) = n)
    (hcell : ∀ i < width, ∀ p < n, L.cell (np.zeros r c) i p = 0) :
    Packed L G b₀ n width [] (b₀, 0) :=
  ⟨rfl, hlo, hhi, ⟨rfl, rfl, rfl⟩, by rw [hdata, hlines], by rw [hdata, hsize],
    by rw [hdata]; exact (hnp.zeros r c).2.2.1, by rw [hdata]; exact hcell⟩

include hsq hband

/-- A square matrix that is zero outside the band has a row store. -/
theorem new_row : ∃ b, new np mat kl ku .R = .ok b ∧
    (b.m = np.nrow mat ∧ b.n = np.ncol mat ∧ b.store = .R) ∧
    Stored (rowLoop np) (stored mat) (np.ncol mat) b := by
  have hlen : np.len (np.diagonal mat 0) = np.ncol mat := len_diagonal hnp hsq 0
  obtain ⟨hrow, hcol, -, hcell⟩ := hnp.zeros (np.ncol mat) (kl + ku + 1)
  obtain ⟨s, hrun, hsame, hs⟩ := loop_stored hnp (rowLoop_laws hnp) (reads_row hnp hsq)
    (banded_stored hnp hband) (buildStep np.setCol padEnd padFront mat)
    ⟨np.nrow mat, np.ncol mat, 0, 0, np.ncol mat, ku + kl + 1, .R,
      np.zeros (np.ncol mat) (kl + ku + 1)⟩
    (fun s k hn hk => buildStep_row hnp hsq hn hk)
    (packed_nil hnp rfl rfl rfl hcol hrow fun c hc p hp => hcell p hp c hc)
  refine ⟨s.1, ?_, hsame, hs⟩
  unfold new buildRowStore
  dsimp only
  rw [hlen, hrun]
  rfl

/-- And a column store, which is the row store of the transpose. -/
theorem new_col : ∃ c, new np mat kl ku .C = .ok c ∧
    (c.m = np.nrow mat ∧ c.n = np.ncol mat ∧ c.store = .C) ∧
    Stored (colLoop np) (fun i j => stored mat j i) (np.ncol mat) c := by
  obtain ⟨hrow, hcol, -, hcell⟩ := hnp.zeros (kl + ku + 1) (np.ncol mat)
  have hband' : Banded (fun i j => stored mat j i) (np.ncol mat) ku kl := fun i j hi hj hne =>
    (banded_stored hnp hband j i hj hi hne).symm
  obtain ⟨s, hrun, hsame, hs⟩ := loop_stored hnp (colLoop_laws hnp) (reads_col hnp hsq) hband'
    (fun s k => buildStep np.setRow padFront padEnd mat s (-k))
    ⟨np.nrow mat, np.ncol mat, 0, 0, ku + kl + 1, np.ncol mat, .C,
      np.zeros (kl + ku + 1) (np.ncol mat)⟩
    (fun s k hn hk => buildStep_col hnp hsq hn hk)
    (packed_nil hnp rfl rfl rfl (hrow.trans (by omega)) hcol
      fun i hi p hp => hcell i (by omega) p hp)
  refine ⟨s.1, ?_, hsame, hs⟩
  unfold new buildColStore
  dsimp only
  rw [diagIndexes_reverse, List.foldlM_map, hrun]
  rfl

end New

end BandMatrix

end Monya.Prototype
