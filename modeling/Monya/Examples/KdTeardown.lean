/-
  The end of a trained tree: what `get_nnodes` counts, what `~BinaryTree` deletes, and what is left.

  `build` spawns the nodes of level `log n` that have two samples again and again, until enough
  children have been scheduled to fill the next level. Only the last two children of such a node can
  be reached from the root, so the destructor never sees the others. `leaked_nodes`: in every
  interleaving it deletes the `treeSize` nodes of the tree, each once, and `leaked` nodes stay
  behind. There are none exactly if `n` is a power of two or `max_depth` is at most `log n`.
-/
import Monya.Examples.KdThreads
import Monya.Examples.KdSearch
import Monya.Structures.Teardown

namespace Monya.KdTree

open Monya.Lib Monya.Structures KdNode

/-! ## The tree that can be reached -/

section Shape

variable {α : Type}

def Tree.shape : Tree α → BTree (KdNode α)
  | leaf x k => .node x k .nil .nil
  | node x k l r => .node x k l.shape r.shape

theorem Tree.addrs_shape (t : Tree α) : t.shape.addrs.Perm t.addrs := by
  induction t with
  | leaf x k => exact List.Perm.refl _
  | node x k l r ihl ihr =>
    rw [shape, BTree.addrs_node]
    exact List.perm_middle.trans ((ihl.append ihr).cons x)

variable {h : Heap (KdNode α)} {x : Nat} {t : Tree α}

theorem IsTree.root_shape (ht : IsTree h x t) : t.shape.root = some x := by
  cases ht with
  | leaf _ _ => rfl
  | node _ _ _ _ _ => rfl

theorem IsTree.spans (ht : IsTree h x t) : Spans KdNode.left KdNode.right h t.shape := by
  induction ht with
  | leaf hk hc => exact ⟨⟨_, hk, hc.1, hc.2⟩, trivial, trivial⟩
  | node hk hl hr htl htr ihl ihr =>
    exact ⟨⟨_, hk, hl.trans htl.root_shape.symm, hr.trans htr.root_shape.symm⟩, ihl, ihr⟩

variable [LinearOrder α] {M : Nat → Nat → α} {n f D splitDim : Nat} {k : KdNode α}

/-- A child has one half of the samples. -/
theorem Parent.halves {l r : Nat} (hp : Parent M f D x h k l r) :
    ∃ cl cr, h.cell l = some cl ∧ h.cell r = some cr ∧
      cl.depth = k.depth + 1 ∧ cr.depth = k.depth + 1 ∧
      cl.size = k.size / 2 ∧ cr.size = k.size - k.size / 2 := by
  obtain ⟨cl, hcl, hl⟩ := hp.leftOk
  obtain ⟨cr, hcr, hr⟩ := hp.rightOk
  refine ⟨cl, cr, hcl, hcr, hl.depth, hr.depth, ?_, ?_⟩
  · rw [← length_ids, hl.ids.length_eq, List.length_take, length_ids]
    omega
  · rw [← length_ids, hr.ids.length_eq, List.length_drop, length_ids]

/-- A tree that the depth limit ends before the samples do is full. -/
theorem IsTree.length_addrs_full (b : Built M n f D splitDim h) (hn : 1 ≤ n) (hD : D ≤ Nat.log 2 n)
    (ht : IsTree h x t) (hk : h.cell x = some k) (hd : k.depth ≤ D)
    (hh : Halved n k.depth k.size) : t.addrs.length + 1 = 2 ^ (D - k.depth + 1) := by
  induction ht generalizing k with
  | @leaf x k' hk' hc =>
    obtain rfl : k' = k := Option.some.inj (hk'.symm.trans hk)
    have hleaf := b.leaf _ _ hk hc
    have hend : k'.depth = D := by
      by_contra hne
      exact hleaf ⟨by omega, hh.two_le hn (by omega)⟩
    rw [hend, Nat.sub_self]
    rfl
  | @node x l r k' tl tr hk' hl hr htl htr ihl ihr =>
    obtain rfl : k' = k := Option.some.inj (hk'.symm.trans hk)
    have hp := b.heapOk.parent_of_links hk hl hr
    obtain ⟨cl, cr, hcl, hcr, hdl, hdr, hsl, hsr⟩ := hp.halves
    have hlt := hp.depth
    have hleft := ihl hcl (by omega) (by rw [hdl, hsl]; exact hh.half)
    have hright := ihr hcr (by omega) (by rw [hdr, hsr]; exact hh.rest)
    rw [hdl] at hleft
    rw [hdr] at hright
    obtain ⟨e, he⟩ : ∃ e, D - k'.depth = e + 1 := ⟨D - k'.depth - 1, by omega⟩
    rw [show D - (k'.depth + 1) + 1 = e + 1 by omega] at hleft hright
    rw [Tree.addrs, List.length_cons, List.length_append, he, pow_succ 2 (e + 1)]
    omega

/-- Otherwise every leaf has one sample. -/
theorem IsTree.length_addrs_samples (b : Built M n f D splitDim h) (hD : Nat.log 2 n < D)
    (ht : IsTree h x t) (hk : h.cell x = some k) (hd : k.depth ≤ D) (hone : 1 ≤ k.size)
    (hh : Halved n k.depth k.size) : t.addrs.length + 1 = 2 * k.size := by
  induction ht generalizing k with
  | @leaf x k' hk' hc =>
    obtain rfl : k' = k := Option.some.inj (hk'.symm.trans hk)
    have hleaf := b.leaf _ _ hk hc
    have hsize : k'.size = 1 := by
      by_contra hne
      have hend : k'.depth = D := by
        by_contra hne'
        exact hleaf ⟨by omega, by omega⟩
      have := hh.le_one (by omega)
      omega
    rw [hsize]
    rfl
  | @node x l r k' tl tr hk' hl hr htl htr ihl ihr =>
    obtain rfl : k' = k := Option.some.inj (hk'.symm.trans hk)
    have hp := b.heapOk.parent_of_links hk hl hr
    obtain ⟨cl, cr, hcl, hcr, hdl, hdr, hsl, hsr⟩ := hp.halves
    have hlt := hp.depth
    have htwo := hp.size
    have hleft := ihl hcl (by omega) (by omega) (by rw [hdl, hsl]; exact hh.half)
    have hright := ihr hcr (by omega) (by omega) (by rw [hdr, hsr]; exact hh.rest)
    rw [Tree.addrs, List.length_cons, List.length_append]
    omega

theorem Built.size_shape (b : Built M n f D splitDim h) (hn : 1 ≤ n) (ht : IsTree h 0 t) :
    t.shape.size = treeSize n D := by
  obtain ⟨k, hk, -, hd, -, hids⟩ := b.root.node
  have hsize : k.size = n := by rw [← length_ids, hids.length_eq, List.length_range]
  have hh : Halved n k.depth k.size := by
    rw [hd, hsize]
    unfold Halved
    simp
  rw [← BTree.length_addrs, t.addrs_shape.length_eq, treeSize]
  split
  · next hD =>
    have := ht.length_addrs_full b hn hD hk (by omega) hh
    rw [hd, Nat.sub_zero] at this
    omega
  · next hD =>
    have := ht.length_addrs_samples b (by omega) hk (by omega) (by omega) hh
    omega

end Shape

/-! ## What is left -/

theorem leaked_eq_zero {n D : Nat} (hn : 1 ≤ n) :
    leaked n D = 0 ↔ n = 2 ^ Nat.log 2 n ∨ D ≤ Nat.log 2 n := by
  have hpow : 2 ^ Nat.log 2 n ≤ n := Nat.pow_log_le_self 2 (by omega)
  have hlt : n < 2 ^ Nat.log 2 n * 2 := by
    rw [← pow_succ]
    exact Nat.lt_pow_succ_log_self (by omega) n
  unfold leaked
  split
  · next hD => exact iff_of_true rfl (.inr hD)
  · next hD =>
    rcases Nat.eq_or_lt_of_le hpow with heq | hne
    · refine iff_of_true ?_ (.inl heq.symm)
      rw [heq, Nat.sub_self, Nat.zero_mul]
    · refine iff_of_false ?_ (by omega)
      have := Nat.div_pos (show n - 2 ^ Nat.log 2 n ≤ 2 ^ Nat.log 2 n - 1 by omega) (by omega)
      have := Nat.mul_pos (show 0 < n - 2 ^ Nat.log 2 n by omega) this
      omega

section Teardown

variable {α : Type} [LinearOrder α] [Zero α] {env : KdEnv α} {M : Nat → Nat → α}
  {n f T splitDim : Nat} {colwise : Bool} {s : BuildRun α}

/-- After training, `get_nnodes` counts `treeSize` nodes, and the destructor deletes each of them
    once and leaves `leaked`. -/
theorem leaked_nodes (henv : env.io = .ofMatrix M n f colwise) (hn : 1 ≤ n) (hn' : n < 2 ^ 32)
    (hsplit : splitDim < f) (hT : 1 ≤ T) (hT' : T < 2 ^ 32)
    (hreach : Lib.Reachable (BuildRun.step env) (.start env T splitDim) s)
    (hret : s.pc = .returned) :
    ∃ heap h, s.training.heap = .ok heap ∧
      Returns (fun fuel => getNnodes KdNode.left KdNode.right heap fuel (some 0) 0)
        (treeSize n env.maxDepth) ∧
      Returns (fun fuel => deleteNode KdNode.left KdNode.right fuel (some 0) heap) h ∧
      h.live ⊆ heap.live ∧ h.live.card = leaked n env.maxDepth ∧
      ((∀ a, h.cell a = none) ↔ n = 2 ^ Nat.log 2 n ∨ env.maxDepth ≤ Nat.log 2 n) := by
  obtain ⟨r, hi⟩ : ∃ r, BuildInv env M n f T splitDim r s :=
    hreach.invariant (I := fun s => ∃ r, BuildInv env M n f T splitDim r s) ⟨_, buildInv_start⟩
      fun _ _ _ ⟨_, hi⟩ hs => by
      obtain ⟨r', h', -⟩ := hi.step henv hn hn' hsplit hT hT' hs
      exact ⟨r', h'⟩
  obtain ⟨heap, hheap⟩ := hi.heap_ok
  have hb := hi.built hret hheap
  obtain ⟨_, st, _, _, _, hrounds, rfl, -, hend⟩ := hi.rounds hret hheap
  obtain ⟨k, hk, -, -, -, hids⟩ := hb.root.node
  obtain ⟨t, ht⟩ := hb.heapOk.exists_isTree hk
  have hnodup : t.shape.addrs.Nodup := t.addrs_shape.nodup_iff.mpr
    (ht.addrs_nodup hb.heapOk hk (hids.nodup_iff.mpr List.nodup_range))
  have hsize := hb.size_shape hn ht
  obtain ⟨h, hdel, -, hlive⟩ := deleteNode_returns ht.spans hnodup
  have hcount := getNnodes_returns ht.spans 0
  rw [ht.root_shape] at hdel hcount
  rw [Nat.zero_add, hsize] at hcount
  have hsub : t.shape.addrs.toFinset ⊆ st.heap.live := fun a ha =>
    Heap.mem_live.mpr (ht.spans.cell (List.mem_toFinset.mp ha))
  have hcard : h.live.card = leaked n env.maxDepth := by
    rw [hlive, Finset.card_sdiff_of_subset hsub, hrounds.card_live hn hend,
      List.toFinset_card_of_nodup hnodup, BTree.length_addrs, hsize, Nat.add_sub_cancel_left]
  refine ⟨st.heap, h, hheap, hcount, hdel, hlive ▸ Finset.sdiff_subset, hcard, ?_⟩
  rw [← leaked_eq_zero hn, ← hcard, Finset.card_eq_zero, Heap.live_eq_empty]

end Teardown

/-- One worker and three samples: the node with two samples is spawned twice. -/
def threeSamples : List BuildLabel :=
  bursts [(5, .thread .scheduler), (6, .thread (.worker 0)), (3, .thread .scheduler), (1, .build),
    (8, .thread .scheduler), (2, .thread (.worker 0)), (9, .thread .scheduler),
    (17, .thread (.worker 0)), (4, .thread .scheduler), (1, .build), (1, .spawn 0), (2, .build),
    (3, .thread .scheduler), (1, .build), (9, .thread .scheduler), (2, .thread (.worker 0)),
    (9, .thread .scheduler), (24, .thread (.worker 0)), (4, .thread .scheduler), (2, .build),
    (1, .spawn 2), (1, .spawn 1), (4, .build), (3, .thread .scheduler), (1, .build),
    (3, .thread .scheduler), (2, .build), (1, .spawn 2), (1, .spawn 1), (4, .build),
    (3, .thread .scheduler), (1, .build), (11, .thread .scheduler), (2, .thread (.worker 0)),
    (9, .thread .scheduler), (36, .thread (.worker 0)), (4, .thread .scheduler), (2, .build),
    (1, .spawn 6), (1, .spawn 5), (1, .spawn 4), (1, .spawn 3),
    (1, .build)]

/-- The tree has five nodes, and two are left over. -/
theorem leaked_nodes_three : ∃ s heap h,
    Lib.Reachable (BuildRun.step (rampEnv 3 2)) (.start (rampEnv 3 2) 1 0) s ∧
    s.pc = .returned ∧ s.training.heap = .ok heap ∧
    Returns (fun fuel => getNnodes KdNode.left KdNode.right heap fuel (some 0) 0) 5 ∧
    Returns (fun fuel => deleteNode KdNode.left KdNode.right fuel (some 0) heap) h ∧
    h.live.card = 2 := by
  have hpc : (run (BuildRun.step (rampEnv 3 2)) threeSamples (.start (rampEnv 3 2) 1 0)).map
      BuildRun.pc = some .returned := by
    decide +kernel
  obtain ⟨s, hs, hret⟩ := Option.map_eq_some_iff.mp hpc
  obtain ⟨heap, h, hheap, hcount, hdel, -, hcard, -⟩ := leaked_nodes
    (show (rampEnv 3 2).io = .ofMatrix (fun i _ => i) 3 1 false from rfl) (by decide) (by decide)
    (by decide) (by decide) (by decide) ⟨threeSamples, hs⟩ hret
  exact ⟨s, heap, h, ⟨threeSamples, hs⟩, hret, hheap, hcount, hdel, hcard⟩

end Monya.KdTree
