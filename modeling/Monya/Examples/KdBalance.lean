/-
  The shape of the tree that `build` leaves.

  A node with `k` samples gives `k / 2` of them to its left child and the rest to the right one, so
  all nodes of one depth have the same number of samples up to one (`Share`). With the leaves as
  `Built` has them this fixes the height: as long as `2 ^ d < n` some node of depth `d` has two
  samples. `build_balanced` is the result.

  `operator[]` of the index vector takes an `int`, and `run` asks for the entry in the middle, so a
  root with `2 ^ 32` samples cannot be trained (`build_too_large`).
-/
import Monya.Examples.KdShape
import Monya.Examples.KdBounds

namespace Monya.KdTree

open Monya.Lib Monya.Structures KdNode

/-! ## Shares -/

section Share

/-- `k` differs from `n / 2 ^ d` by less than one. -/
def Share (n d k : Nat) : Prop := n < (k + 1) * 2 ^ d ∧ k * 2 ^ d < n + 2 ^ d

variable {n d k : Nat}

theorem share_zero (n : Nat) : Share n 0 n := by
  unfold Share
  omega

theorem Share.child {k' : Nat} (h : Share n d k) (hk : k' = k / 2 ∨ k' = k - k / 2) :
    Share n (d + 1) k' := by
  obtain ⟨h₁, h₂⟩ := h
  have hlo : (k + 1) * 2 ^ d ≤ (2 * k' + 2) * 2 ^ d := Nat.mul_le_mul_right _ (by omega)
  have hhi : 2 * k' * 2 ^ d ≤ (k + 1) * 2 ^ d := Nat.mul_le_mul_right _ (by omega)
  have hexp : (k + 1) * 2 ^ d = k * 2 ^ d + 2 ^ d := Nat.succ_mul k (2 ^ d)
  constructor
  · calc n < (k + 1) * 2 ^ d := h₁
      _ ≤ (2 * k' + 2) * 2 ^ d := hlo
      _ = (k' + 1) * 2 ^ (d + 1) := by ring
  · calc k' * 2 ^ (d + 1) = 2 * k' * 2 ^ d := by ring
      _ ≤ (k + 1) * 2 ^ d := hhi
      _ < n + 2 ^ d + 2 ^ d := by omega
      _ = n + 2 ^ (d + 1) := by ring

/-- A share is the quotient, rounded down or up. -/
theorem Share.rounded (h : Share n d k) : k = n / 2 ^ d ∨ k = (n + 2 ^ d - 1) / 2 ^ d := by
  obtain ⟨h₁, h₂⟩ := h
  have hexp : (k + 1) * 2 ^ d = k * 2 ^ d + 2 ^ d := Nat.succ_mul k (2 ^ d)
  rcases Nat.lt_or_ge n (k * 2 ^ d) with hlt | hge
  · right
    exact (Nat.div_eq_of_lt_le (by omega) (by omega)).symm
  · left
    exact (Nat.div_eq_of_lt_le hge h₁).symm

theorem Share.pow_lt (h : Share n d k) (hk : 1 < k) : 2 ^ d < n := by
  have := Nat.mul_le_mul_right (2 ^ d) hk
  have := h.2
  omega

end Share

/-! ## The tree -/

section Balanced

variable {α : Type} [LinearOrder α] {M : Nat → Nat → α} {n f D splitDim : Nat}
  {h : Heap (KdNode α)}

/-- Every node has its share of the samples, nodes are split as long as depth and samples allow,
    and the tree is as high as that makes it. -/
structure Balanced (n D : Nat) (h : Heap (KdNode α)) : Prop where
  size : ∀ d x, AtDepth h d x → ∃ k, h.cell x = some k ∧
    (k.size = n / 2 ^ d ∨ k.size = (n + 2 ^ d - 1) / 2 ^ d)
  leaf : ∀ d x k, AtDepth h d x → h.cell x = some k →
    (k.hasChild = false ↔ d = D ∨ k.size = 1)
  le_height : ∀ d x, AtDepth h d x → d ≤ min D (Nat.clog 2 n)
  height : ∃ x, AtDepth h (min D (Nat.clog 2 n)) x

theorem Built.share (b : Built M n f D splitDim h) {d x : Nat} (hx : AtDepth h d x) :
    ∃ k, h.cell x = some k ∧ Share n d k.size := by
  induction hx with
  | root =>
    obtain ⟨k, hk, -, -, -, hids⟩ := b.root.node
    refine ⟨k, hk, ?_⟩
    rw [← length_ids, hids.length_eq, List.length_range]
    exact share_zero n
  | @child d x a _ ha ih =>
    obtain ⟨k, hk, hshare⟩ := ih
    obtain ⟨-, c, -, hc, -⟩ := b.heapOk.child ha
    have hsize := b.heapOk.child_size ha
    rw [sizeAt_eq hk, sizeAt_eq hc] at hsize
    exact ⟨c, hc, hshare.child hsize⟩

/-- A node has no children, because of the depth limit or for lack of samples, or it is split. -/
theorem Built.split (b : Built M n f D splitDim h) (hn : 1 ≤ n) {d x : Nat} {k : KdNode α}
    (hx : AtDepth h d x) (hk : h.cell x = some k) :
    (Childless k ∧ (d = D ∨ k.size = 1)) ∨
      (d < D ∧ 1 < k.size ∧ ∃ l r, Parent M f D x h k l r) := by
  obtain ⟨k', hk', hd, -⟩ := b.atDepth hx
  cases hk.symm.trans hk'
  rcases b.heapOk.links x k hk with hc | ⟨l, r, hp⟩
  · refine Or.inl ⟨hc, ?_⟩
    have hleaf := b.leaf x k hk hc
    have hpos : 0 < k.size := by
      rcases Nat.eq_zero_or_pos k.depth with h0 | h0
      · -- the root has all the samples
        have hx0 : d = 0 := hd.symm.trans h0
        subst hx0
        cases hx
        obtain ⟨k₀, hk₀, -, -, -, hids⟩ := b.root.node
        cases hk.symm.trans hk₀
        rw [← length_ids, hids.length_eq, List.length_range]
        exact hn
      · exact ((b.heapOk.node x k hk).size h0.ne').1
    have hle : k.depth ≤ D := by
      cases hx with
      | root => omega
      | child _ ha =>
        obtain ⟨kp, c, -, hc', -, hlt, -, ids, hco, -⟩ := b.heapOk.child ha
        cases hk.symm.trans hc'
        rw [hco.depth]
        exact hlt
    omega
  · exact Or.inr ⟨hd ▸ hp.depth, hp.size, l, r, hp⟩

/-- As long as there are samples for it, some node of the next depth has the larger half of the
    largest share. -/
theorem Built.exists_atDepth (b : Built M n f D splitDim h) (hn : 1 ≤ n) {d : Nat}
    (hD : d ≤ D) (hlog : d ≤ Nat.clog 2 n) :
    ∃ x k, AtDepth h d x ∧ h.cell x = some k ∧ n ≤ k.size * 2 ^ d := by
  induction d with
  | zero =>
    obtain ⟨k, hk, -, -, -, hids⟩ := b.root.node
    refine ⟨0, k, .root, hk, ?_⟩
    rw [← length_ids, hids.length_eq, List.length_range, pow_zero, Nat.mul_one]
  | succ d ih =>
    obtain ⟨x, k, hx, hk, hle⟩ := ih (by omega) (by omega)
    have hpow : 2 ^ d < n := Nat.pow_lt_of_lt_clog hlog
    have htwo : 1 < k.size := by
      by_contra hlt
      have := Nat.mul_le_mul_right (2 ^ d) (Nat.le_of_not_lt hlt)
      omega
    rcases b.split hn hx hk with ⟨-, hstop⟩ | ⟨-, -, l, r, hp⟩
    · omega
    · obtain ⟨c, hc, hco⟩ := hp.rightOk
      have hr : r ∈ kids h x := by
        rw [hp.kids hk]
        simp
      have hsize : c.size = k.size - k.size / 2 := by
        rw [← length_ids, hco.ids.length_eq, List.length_drop, length_ids]
      refine ⟨r, c, .child hx hr, hc, ?_⟩
      calc n ≤ k.size * 2 ^ d := hle
        _ ≤ 2 * c.size * 2 ^ d := Nat.mul_le_mul_right _ (by omega)
        _ = c.size * 2 ^ (d + 1) := by ring

theorem Built.balanced (b : Built M n f D splitDim h) (hn : 1 ≤ n) : Balanced n D h where
  size d x hx := by
    obtain ⟨k, hk, hshare⟩ := b.share hx
    exact ⟨k, hk, hshare.rounded⟩
  leaf d x k hx hk := by
    rcases b.split hn hx hk with ⟨hc, hstop⟩ | ⟨hlt, hsize, l, r, hp⟩
    · exact iff_of_true hc.hasChild hstop
    · refine iff_of_false ?_ (by omega)
      rw [KdNode.hasChild, hp.left]
      simp
  le_height d x hx := by
    cases hx with
    | root => exact Nat.zero_le _
    | @child d x a hx ha =>
      obtain ⟨k, hk, hshare⟩ := b.share hx
      obtain ⟨k', hk', hd, -⟩ := b.atDepth hx
      cases hk.symm.trans hk'
      obtain ⟨k', c, hk', -, hsize, hlt, -⟩ := b.heapOk.child ha
      cases hk.symm.trans hk'
      have := (Nat.lt_clog_iff_pow_lt (by decide)).mpr (hshare.pow_lt hsize)
      omega
  height := by
    obtain ⟨x, k, hx, -⟩ := b.exists_atDepth hn (Nat.min_le_left _ _) (Nat.min_le_right D _)
    exact ⟨x, hx⟩

end Balanced

/-! ## The build -/

section Main

variable {α : Type} [LinearOrder α] [Zero α] (env : KdEnv α) {M : Nat → Nat → α}
  {n f splitDim : Nat} {colwise : Bool}

/-- `build` returns, so none of its assertions fails, and it leaves a balanced tree. -/
theorem build_balanced (henv : env.io = .ofMatrix M n f colwise) (hn : 1 ≤ n) (hn' : n < 2 ^ 32)
    (hsplit : splitDim < f) :
    ∃ s st, Returns (fun fuel => build env fuel 0 (init env splitDim)) (s, st) ∧
      Balanced n env.maxDepth st.heap := by
  obtain ⟨s, st, hret, hb⟩ := build_built env henv hn hn' hsplit
  exact ⟨s, st, hret, hb.balanced hn⟩

/-- Six samples make two levels of inner nodes, though the limit would allow for more. -/
theorem build_balanced_six :
    ∃ s st, Returns (fun fuel => build (rampEnv 6 9) fuel 0 (init (rampEnv 6 9) 0)) (s, st) ∧
      Balanced 6 9 st.heap :=
  have henv : (rampEnv 6 9).io = .ofMatrix (fun i _ => i) 6 1 false := rfl
  build_balanced (rampEnv 6 9) henv (by decide) (by decide) (show 0 < 1 by decide)

/-- A root with `2 ^ 32` samples: `run` asks for the entry `2 ^ 31`, which is negative as an
    `int`. -/
theorem build_too_large : ¬ ∃ s, Returns
    (fun fuel => build (rampEnv (2 ^ 32) 0) fuel 0 (init (rampEnv (2 ^ 32) 0) 0)) s := by
  rintro ⟨s, N, hN⟩
  have h := hN N (le_refl N)
  unfold build at h
  obtain ⟨s₁, hsch, -⟩ := bind_ok h
  obtain ⟨k₁, k₂, hrun, hsize, -⟩ := schedule_root hsch
  have hn : k₁.size = 2 ^ 32 := hsize
  rw [run_raises 0 (by rw [hn]; decide)] at hrun
  cases hrun

end Main

end Monya.KdTree
