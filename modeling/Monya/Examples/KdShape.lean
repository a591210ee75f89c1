/-
  The tree that `build` leaves: how its leaves partition the samples (`leaves_partition`) and how
  its nodes split them (`split_ordered`).

  Both are about whole subtrees, and both come down to what a node and its two children have to do
  with each other (`HeapOk`). `IsTree` reads the tree off the heap; it exists because a child's
  address is larger than its parent's.
-/
import Monya.Examples.KdLevels

namespace Monya.KdTree

open Monya.Lib Monya.Structures KdNode

/-! ## The tree in the heap -/

inductive Tree (α : Type) where
  | leaf (x : Nat) (k : KdNode α)
  | node (x : Nat) (k : KdNode α) (l r : Tree α)

namespace Tree

variable {α : Type}

def leaves : Tree α → List (KdNode α)
  | leaf _ k => [k]
  | node _ _ l r => l.leaves ++ r.leaves

/-- The addresses of the nodes. -/
def addrs : Tree α → List Nat
  | leaf x _ => [x]
  | node x _ l r => x :: (l.addrs ++ r.addrs)

/-- The samples of the leaves, from left to right. -/
def ids (t : Tree α) : List Nat := t.leaves.flatMap KdNode.ids

theorem ids_node (x : Nat) (k : KdNode α) (l r : Tree α) : (node x k l r).ids = l.ids ++ r.ids :=
  List.flatMap_append

end Tree

/-- `t` is the tree below `x`. -/
inductive IsTree {α : Type} (h : Heap (KdNode α)) : Nat → Tree α → Prop
  | leaf {x : Nat} {k : KdNode α} (hk : h.cell x = some k) (hc : Childless k) :
      IsTree h x (.leaf x k)
  | node {x l r : Nat} {k : KdNode α} {tl tr : Tree α} (hk : h.cell x = some k)
      (hl : k.left = some l) (hr : k.right = some r) (htl : IsTree h l tl) (htr : IsTree h r tr) :
      IsTree h x (.node x k tl tr)

section Shape

variable {α : Type} [LinearOrder α] {M : Nat → Nat → α} {n f D splitDim : Nat}
  {h : Heap (KdNode α)}

/-- Addresses grow on the way down, so the descent ends. -/
theorem HeapOk.exists_isTree (h₀ : HeapOk M n f D h) {x : Nat} {k : KdNode α}
    (hk : h.cell x = some k) : ∃ t, IsTree h x t := by
  suffices hs : ∀ m x k, h.cell x = some k → h.brk - x ≤ m → ∃ t, IsTree h x t from
    hs (h.brk - x) x k hk (le_refl _)
  intro m
  induction m with
  | zero =>
    intro x k hk hm
    have := h.lt_brk hk
    omega
  | succ m ih =>
    intro x k hk hm
    rcases h₀.links x k hk with hc | ⟨l, r, hp⟩
    · exact ⟨_, .leaf hk hc⟩
    · obtain ⟨cl, hcl, hl⟩ := hp.leftOk
      obtain ⟨cr, hcr, hr⟩ := hp.rightOk
      have := h.lt_brk hk
      have := hl.lt
      have := hr.lt
      obtain ⟨tl, htl⟩ := ih l cl hcl (by omega)
      obtain ⟨tr, htr⟩ := ih r cr hcr (by omega)
      exact ⟨_, .node hk hp.left hp.right htl htr⟩

theorem Parent.ids_perm {x l r : Nat} {k : KdNode α} (hp : Parent M f D x h k l r) :
    ∃ cl cr, h.cell l = some cl ∧ h.cell r = some cr ∧ k.ids.Perm (cl.ids ++ cr.ids) := by
  obtain ⟨cl, hcl, hl⟩ := hp.leftOk
  obtain ⟨cr, hcr, hr⟩ := hp.rightOk
  refine ⟨cl, cr, hcl, hcr, ?_⟩
  have := (hl.ids.append hr.ids).symm
  rwa [List.take_append_drop] at this

/-- The leaves below a node have the samples of the node. -/
theorem IsTree.ids_perm (h₀ : HeapOk M n f D h) {x : Nat} {t : Tree α} (ht : IsTree h x t)
    {k : KdNode α} (hk : h.cell x = some k) : t.ids.Perm k.ids := by
  induction ht generalizing k with
  | leaf hk' hc =>
    cases hk.symm.trans hk'
    simp [Tree.ids, Tree.leaves]
  | @node x l r k' tl tr hk' hl hr htl htr ihl ihr =>
    obtain rfl : k' = k := Option.some.inj (hk'.symm.trans hk)
    rcases h₀.links x k' hk with hc | ⟨l', r', hp⟩
    · rw [hc.1] at hl
      cases hl
    · obtain ⟨cl, cr, hcl, hcr, hperm⟩ := hp.ids_perm
      cases hl.symm.trans hp.left
      cases hr.symm.trans hp.right
      rw [Tree.ids_node]
      exact ((ihl hcl).append (ihr hcr)).trans hperm.symm

/-! ## No sample lost or duplicated -/

/-- The leaves have each sample once, and every inner node has the samples of its children. -/
structure Partition (n : Nat) (h : Heap (KdNode α)) : Prop where
  leaves : ∃ t, IsTree h 0 t ∧ t.ids.Perm (List.range n)
  inner : ∀ x k, Reachable h x → h.cell x = some k → k.hasChild = true →
    ∃ l r kl kr, k.left = some l ∧ k.right = some r ∧ h.cell l = some kl ∧ h.cell r = some kr ∧
      k.ids.Perm (kl.ids ++ kr.ids) ∧ kl.ids ≠ [] ∧ kr.ids ≠ []

theorem Built.partition (b : Built M n f D splitDim h) : Partition n h := by
  obtain ⟨k₀, hk₀, -, -, -, hids⟩ := b.root.node
  refine ⟨?_, fun x k _ hk hc => ?_⟩
  · obtain ⟨t, ht⟩ := b.heapOk.exists_isTree hk₀
    exact ⟨t, ht, (ht.ids_perm b.heapOk hk₀).trans hids⟩
  · rcases b.heapOk.links x k hk with hcl | ⟨l, r, hp⟩
    · rw [hcl.hasChild] at hc
      cases hc
    · obtain ⟨cl, hcl, hl⟩ := hp.leftOk
      obtain ⟨cr, hcr, hr⟩ := hp.rightOk
      obtain ⟨cl', cr', hcl', hcr', hperm⟩ := hp.ids_perm
      cases hcl.symm.trans hcl'
      cases hcr.symm.trans hcr'
      refine ⟨l, r, cl, cr, hp.left, hp.right, hcl, hcr, hperm, ?_, ?_⟩
      · exact (b.heapOk.node l cl hcl).ids_ne_nil (by rw [hl.depth]; omega)
      · exact (b.heapOk.node r cr hcr).ids_ne_nil (by rw [hr.depth]; omega)

/-! ## The order of the samples -/

/-- `y` is in the tree below `x`. -/
inductive Below (h : Heap (KdNode α)) (x : Nat) : Nat → Prop
  | refl : Below h x x
  | child {y a : Nat} (hy : Below h x y) (ha : a ∈ kids h y) : Below h x a

/-- The node at depth `d` splits in dimension `(splitDim + d) % f`, at the value of one of its
    samples, and the samples in the leaves on either side are on that side of it. -/
structure SplitOrdered (M : Nat → Nat → α) (f splitDim : Nat) (h : Heap (KdNode α)) : Prop where
  dim : ∀ d x, AtDepth h d x → ∃ k, h.cell x = some k ∧ k.splitDim = (splitDim + d) % f
  value : ∀ x k l r, Reachable h x → h.cell x = some k → k.left = some l → k.right = some r →
    ∃ i ∈ k.ids, k.comparator = M i k.splitDim
  left : ∀ x k l r, Reachable h x → h.cell x = some k → k.left = some l → k.right = some r →
    ∀ y c, Below h l y → h.cell y = some c → c.hasChild = false →
      ∀ i ∈ c.ids, M i k.splitDim ≤ k.comparator
  right : ∀ x k l r, Reachable h x → h.cell x = some k → k.left = some l → k.right = some r →
    ∀ y c, Below h r y → h.cell y = some c → c.hasChild = false →
      ∀ i ∈ c.ids, k.comparator ≤ M i k.splitDim

omit [LinearOrder α] in
theorem nextSplit_eq {k : KdNode α} (hdim : k.splitDim < f) :
    k.nextSplit f = (k.splitDim + 1) % f := by
  unfold nextSplit
  split
  · next he => rw [he, Nat.mod_self]
  · rw [Nat.mod_eq_of_lt (by omega)]

/-- What the fields of a node say about its place in the tree. -/
theorem Built.atDepth (b : Built M n f D splitDim h) {d x : Nat} (hx : AtDepth h d x) :
    ∃ k, h.cell x = some k ∧ k.depth = d ∧ k.splitDim = (splitDim + d) % f := by
  induction hx with
  | root =>
    obtain ⟨k, hk, -, hd, hs, -⟩ := b.root.node
    refine ⟨k, hk, hd, ?_⟩
    rw [Nat.add_zero, ← hs, Nat.mod_eq_of_lt (b.heapOk.node 0 k hk).dim]
  | @child d x a _ ha ih =>
    obtain ⟨k, hk, hd, hs⟩ := ih
    obtain ⟨k', c, hk', hc, -, -, -, ids, hco, -⟩ := b.heapOk.child ha
    cases hk.symm.trans hk'
    refine ⟨c, hc, by rw [hco.depth, hd], ?_⟩
    rw [hco.splitDim, nextSplit_eq (b.heapOk.node x k hk).dim, hs, Nat.mod_add_mod, Nat.add_assoc]

/-- A node's samples are samples of every node above it. -/
theorem HeapOk.ids_below (h₀ : HeapOk M n f D h) {x y : Nat} {k c : KdNode α}
    (hk : h.cell x = some k) (hy : Below h x y) (hc : h.cell y = some c) : c.ids ⊆ k.ids := by
  induction hy generalizing c with
  | refl =>
    cases hk.symm.trans hc
    exact List.Subset.refl _
  | @child y a _ ha ih =>
    obtain ⟨ky, ca, hky, hca, -, -, -, ids, hco, hids⟩ := h₀.child ha
    cases hc.symm.trans hca
    refine List.Subset.trans (fun i hi => ?_) (ih hky)
    have hi' := hco.ids.mem_iff.mp hi
    rcases hids with rfl | rfl
    · exact List.mem_of_mem_take hi'
    · exact List.mem_of_mem_drop hi'

theorem HeapOk.parent_of_links (h₀ : HeapOk M n f D h) {x l r : Nat} {k : KdNode α}
    (hk : h.cell x = some k) (hl : k.left = some l) (hr : k.right = some r) :
    Parent M f D x h k l r := by
  rcases h₀.links x k hk with hc | ⟨l', r', hp⟩
  · rw [hc.1] at hl
    cases hl
  · cases hl.symm.trans hp.left
    cases hr.symm.trans hp.right
    exact hp

/-- With at most `2 ^ 32` features, the column that a node asks for is the one it splits in. -/
theorem Built.splitOrdered (b : Built M n f D splitDim h) (hf : f ≤ 2 ^ 32) :
    SplitOrdered M f splitDim h := by
  have hdim : ∀ x k, h.cell x = some k → sampleId k.splitDim = k.splitDim := fun x k hk =>
    sampleId_of_lt ((b.heapOk.node x k hk).dim.trans_le hf)
  refine ⟨fun d x hx => ?_, ?_, ?_, ?_⟩
  · obtain ⟨k, hk, -, hs⟩ := b.atDepth hx
    exact ⟨k, hk, hs⟩
  · intro x k l r _ hk hl hr
    have h := (b.heapOk.parent_of_links hk hl hr).trained.comparator_mem
    rwa [hdim x k hk] at h
  · intro x k l r _ hk hl hr y c hy hc _ i hi
    have hp := b.heapOk.parent_of_links hk hl hr
    obtain ⟨cl, hcl, hco⟩ := hp.leftOk
    have h := hp.trained.take_le (hco.ids.mem_iff.mp (b.heapOk.ids_below hcl hy hc hi))
    rwa [hdim x k hk] at h
  · intro x k l r _ hk hl hr y c hy hc _ i hi
    have hp := b.heapOk.parent_of_links hk hl hr
    obtain ⟨cr, hcr, hco⟩ := hp.rightOk
    have h := hp.trained.le_drop (hco.ids.mem_iff.mp (b.heapOk.ids_below hcr hy hc hi))
    rwa [hdim x k hk] at h

end Shape

/-! ## The build -/

section Main

variable {α : Type} [LinearOrder α] [Zero α] (env : KdEnv α) {M : Nat → Nat → α}
  {n f splitDim : Nat} {colwise : Bool}

theorem build_built (henv : env.io = .ofMatrix M n f colwise) (hn : 1 ≤ n) (hn' : n < 2 ^ 32)
    (hsplit : splitDim < f) :
    ∃ s st, Returns (fun fuel => build env fuel 0 (init env splitDim)) (s, st) ∧
      Built M n f env.maxDepth splitDim st.heap := by
  obtain ⟨s, st, full, P, pend, hret, hb, hroot, hany, -⟩ := build_returns henv hn hn' hsplit
    (fun _ _ _ _ => True) (fun _ _ _ => trivial) (fun _ _ _ _ _ _ _ _ _ _ _ _ _ => trivial)
  exact ⟨s, st, hret, hb.built hroot hany⟩

/-- No sample is lost or duplicated by training. -/
theorem leaves_partition (henv : env.io = .ofMatrix M n f colwise) (hn : 1 ≤ n) (hn' : n < 2 ^ 32)
    (hsplit : splitDim < f) :
    ∃ s st, Returns (fun fuel => build env fuel 0 (init env splitDim)) (s, st) ∧
      Partition n st.heap := by
  obtain ⟨s, st, hret, hb⟩ := build_built env henv hn hn' hsplit
  exact ⟨s, st, hret, hb.partition⟩

/-- Five samples and two levels. -/
theorem leaves_partition_five :
    ∃ s st, Returns (fun fuel => build (rampEnv 5 2) fuel 0 (init (rampEnv 5 2) 0)) (s, st) ∧
      Partition 5 st.heap :=
  have henv : (rampEnv 5 2).io = .ofMatrix (fun i _ => i) 5 1 false := rfl
  leaves_partition (rampEnv 5 2) henv (by decide) (by decide) (show 0 < 1 by decide)

/-- The samples of a node are split in its dimension, around its comparator. -/
theorem split_ordered (henv : env.io = .ofMatrix M n f colwise) (hn : 1 ≤ n) (hn' : n < 2 ^ 32)
    (hf : f ≤ 2 ^ 32) (hsplit : splitDim < f) :
    ∃ s st, Returns (fun fuel => build env fuel 0 (init env splitDim)) (s, st) ∧
      SplitOrdered M f splitDim st.heap := by
  obtain ⟨s, st, hret, hb⟩ := build_built env henv hn hn' hsplit
  exact ⟨s, st, hret, hb.splitOrdered hf⟩

theorem split_ordered_five :
    ∃ s st, Returns (fun fuel => build (rampEnv 5 2) fuel 0 (init (rampEnv 5 2) 0)) (s, st) ∧
      SplitOrdered (fun i _ => i) 1 0 st.heap :=
  have henv : (rampEnv 5 2).io = .ofMatrix (fun i _ => i) 5 1 false := rfl
  split_ordered (rampEnv 5 2) henv (by decide) (by decide) (by decide) (show 0 < 1 by decide)

/-- A matrix with more columns than there are column numbers: the last one, `2 ^ 32`, is the
    reverse of the first. -/
def wideMatrix (i j : Nat) : Nat := if j = 2 ^ 32 then 1 - i else i

def wideEnv : KdEnv Nat := { rampEnv 2 1 with io := .ofMatrix wideMatrix 2 (2 ^ 32 + 1) false }

/-- A root that splits in dimension `2 ^ 32` asks for column 0 and is sorted by it. -/
theorem truncated_split :
    ∃ s st, Returns (fun fuel => build wideEnv fuel 0 (init wideEnv (2 ^ 32))) (s, st) ∧
      ¬ SplitOrdered wideMatrix (2 ^ 32 + 1) (2 ^ 32) st.heap := by
  have henv : wideEnv.io = .ofMatrix wideMatrix 2 (2 ^ 32 + 1) false := rfl
  obtain ⟨s, st, hret, hb⟩ := build_built wideEnv henv (by decide) (by decide)
    (show 2 ^ 32 < 2 ^ 32 + 1 by decide)
  refine ⟨s, st, hret, fun ho => ?_⟩
  obtain ⟨k, hk, -, hd, hs, hids⟩ := hb.root.node
  have hsize : k.size = 2 := by rw [← length_ids, hids.length_eq, List.length_range]
  rcases hb.heapOk.links 0 k hk with hc | ⟨l, r, hp⟩
  · exact hb.leaf 0 k hk hc ⟨by rw [hd]; exact Nat.one_pos, by omega⟩
  -- the right child is a leaf, with the sample `i` that the comparator comes from
  obtain ⟨c, hc, hco⟩ := hp.rightOk
  have hleaf : c.hasChild = false := by
    rcases hb.heapOk.links r c hc with hcl | ⟨l', r', hp'⟩
    · exact hcl.hasChild
    · have := hp'.size
      rw [← length_ids, hco.ids.length_eq, List.length_drop, length_ids] at this
      omega
  obtain ⟨iv, rest, hdrop, hcmp⟩ := hp.trained.split
  have hdrop' : k.ids.drop (k.size / 2) = iv.index :: rest.map IndexVal.index := by
    rw [KdNode.ids, IndexVector.ids, ← List.map_drop, hdrop]
    rfl
  have hmem : iv ∈ k.dataIndex.items := List.mem_of_mem_drop (hdrop ▸ List.mem_cons_self)
  have hval : k.comparator = iv.index := by
    rw [hcmp, hp.trained.vals iv hmem, hs]
    rfl
  have hi : iv.index ∈ c.ids := hco.ids.mem_iff.mpr (hdrop' ▸ List.mem_cons_self)
  have hle := ho.right 0 k l r ⟨0, .root⟩ hk hp.left hp.right r c .refl hc hleaf iv.index hi
  rw [hval, hs, wideMatrix, if_pos rfl] at hle
  -- so `i` is 0, and the other sample, 1, is on the left of it
  have hzero : iv.index = 0 := by omega
  have hone : 1 ∈ k.ids.take (k.size / 2) := by
    have h₁ : 1 ∈ k.ids := hids.mem_iff.mpr (by decide)
    rw [← List.take_append_drop (k.size / 2) k.ids, List.mem_append] at h₁
    rcases h₁ with h₁ | h₁
    · exact h₁
    · have hlen := congrArg List.length hdrop'
      rw [List.length_drop, length_ids, hsize, List.length_cons] at hlen
      rw [hdrop', List.length_eq_zero_iff.mp (show (rest.map IndexVal.index).length = 0 by omega),
        hzero] at h₁
      simp at h₁
  have := hp.trained.take_le hone
  rw [hval, hzero, hs] at this
  exact absurd this (by decide)

end Main

end Monya.KdTree
