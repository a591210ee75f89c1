/-
  What every node of a kd-tree satisfies at any point of a build, and that `spawn` and `train`
  keep it.

  `HeapOk` is local: it relates a node to its own two children. That is enough, because a child
  is always a node made for its parent: it has a larger address, and it names its parent. A node
  that is respawned gets new children and the old ones stay behind, well formed but unreachable;
  nothing here asks for the heap to be a tree.

  `spawnAll_ok` and `trainAll_ok` are the two loops of a round: `SpawnedAll` and `TrainedAll` say
  what they have done to each node.
-/
import Monya.Examples.KdBuild

namespace Monya.KdTree

open Monya.Lib Monya.Structures KdNode

section Invariant

variable {α : Type}

/-- A node on its own: it can be trained, or it is the root. -/
structure NodeOk (n f : Nat) (k : KdNode α) : Prop where
  req : k.reqIndxs = [sampleId k.splitDim]
  dim : k.splitDim < f
  ids : ∀ i ∈ k.ids, i < n
  le : k.size ≤ n
  size : k.depth ≠ 0 → 0 < k.size ∧ k.size ≤ 2 ^ 31

theorem NodeOk.ids_ne_nil {n f : Nat} {k : KdNode α} (hk : NodeOk n f k) (hd : k.depth ≠ 0) :
    k.ids ≠ [] := by
  rw [← List.length_pos_iff, length_ids]
  exact (hk.size hd).1

/-- The node `c` at address `a` as a child of the node `k` at address `x`: it has been given the
    samples `ids` and is one level down, split in the next dimension. -/
structure ChildOk (f x : Nat) (k : KdNode α) (ids : List Nat) (a : Nat) (c : KdNode α) : Prop where
  lt : x < a
  viewParent : c.viewParent = some x
  parent : c.parent = none
  depth : c.depth = k.depth + 1
  splitDim : c.splitDim = k.nextSplit f
  ids : c.ids.Perm ids

/-- What a node keeps for good once it has been given its samples. -/
structure SameNode (c c' : KdNode α) : Prop where
  viewParent : c'.viewParent = c.viewParent
  parent : c'.parent = c.parent
  depth : c'.depth = c.depth
  splitDim : c'.splitDim = c.splitDim
  ids : c'.ids.Perm c.ids

def Keeps (h h' : Heap (KdNode α)) : Prop :=
  ∀ a c, h.cell a = some c → ∃ c', h'.cell a = some c' ∧ SameNode c c'

def Childless (k : KdNode α) : Prop := k.left = none ∧ k.right = none

theorem Childless.hasChild {k : KdNode α} (hc : Childless k) : k.hasChild = false := by
  rw [KdNode.hasChild, hc.1, hc.2]
  rfl

/-- The children of the node at `x`, left to right. -/
def kids (h : Heap (KdNode α)) (x : Nat) : List Nat :=
  match h.cell x with
  | some k => k.left.toList ++ k.right.toList
  | none => []

theorem kids_eq {h : Heap (KdNode α)} {x : Nat} {k : KdNode α} (hk : h.cell x = some k) :
    kids h x = k.left.toList ++ k.right.toList := by
  simp only [kids, hk]

theorem SameNode.refl (c : KdNode α) : SameNode c c := ⟨rfl, rfl, rfl, rfl, .refl _⟩

theorem SameNode.trans {c₁ c₂ c₃ : KdNode α} (h : SameNode c₁ c₂) (h' : SameNode c₂ c₃) :
    SameNode c₁ c₃ :=
  ⟨h'.1.trans h.1, h'.2.trans h.2, h'.3.trans h.3, h'.4.trans h.4, h'.5.trans h.5⟩

theorem SameNode.size {c c' : KdNode α} (h : SameNode c c') : c'.size = c.size := by
  rw [← length_ids, h.ids.length_eq, length_ids]

theorem Keeps.refl (h : Heap (KdNode α)) : Keeps h h := fun _ c hc => ⟨c, hc, .refl c⟩

theorem Keeps.trans {h₁ h₂ h₃ : Heap (KdNode α)} (h : Keeps h₁ h₂) (h' : Keeps h₂ h₃) :
    Keeps h₁ h₃ := by
  intro a c hc
  obtain ⟨c', hc', hs⟩ := h a c hc
  obtain ⟨c'', hc'', hs'⟩ := h' a c' hc'
  exact ⟨c'', hc'', hs.trans hs'⟩

theorem ChildOk.same {f x a : Nat} {k c c' : KdNode α} {ids : List Nat}
    (h : ChildOk f x k ids a c) (hs : SameNode c c') : ChildOk f x k ids a c' :=
  ⟨h.lt, hs.viewParent.trans h.viewParent, hs.parent.trans h.parent, hs.depth.trans h.depth,
    hs.splitDim.trans h.splitDim, hs.ids.trans h.ids⟩

variable [LinearOrder α]

/-- The children of `k`: the left one has the first half of its sorted samples, the right one the
    rest. -/
structure Parent (M : Nat → Nat → α) (f D x : Nat) (h : Heap (KdNode α)) (k : KdNode α)
    (l r : Nat) : Prop where
  left : k.left = some l
  right : k.right = some r
  ne : l ≠ r
  size : 1 < k.size
  depth : k.depth < D
  trained : Trained M k
  leftOk : ∃ c, h.cell l = some c ∧ ChildOk f x k (k.ids.take (k.size / 2)) l c
  rightOk : ∃ c, h.cell r = some c ∧ ChildOk f x k (k.ids.drop (k.size / 2)) r c

structure HeapOk (M : Nat → Nat → α) (n f D : Nat) (h : Heap (KdNode α)) : Prop where
  node : ∀ x k, h.cell x = some k → NodeOk n f k
  links : ∀ x k, h.cell x = some k → Childless k ∨ ∃ l r, Parent M f D x h k l r

theorem Parent.keeps {M : Nat → Nat → α} {f D x l r : Nat} {h h' : Heap (KdNode α)}
    {k : KdNode α} (hp : Parent M f D x h k l r) (hk : Keeps h h') : Parent M f D x h' k l r := by
  obtain ⟨cl, hcl, hl⟩ := hp.leftOk
  obtain ⟨cr, hcr, hr⟩ := hp.rightOk
  obtain ⟨cl', hcl', hsl⟩ := hk l cl hcl
  obtain ⟨cr', hcr', hsr⟩ := hk r cr hcr
  exact { hp with leftOk := ⟨cl', hcl', hl.same hsl⟩, rightOk := ⟨cr', hcr', hr.same hsr⟩ }

end Invariant

/-! ## `spawn` -/

section Spawn

variable {α : Type} [LinearOrder α] [Zero α] (env : KdEnv α)

/-- A child of the node `k` at `x`, as `spawn` leaves it at address `a`. -/
def childOf (x : Nat) (k : KdNode α) (a : Nat) (ids : List Nat) : KdNode α :=
  { KdNode.new (env.uninit a) with
    viewParent := some x
    depth := k.depth + 1
    splitDim := k.nextSplit env.io.nfeatures
    reqIndxs := [sampleId (k.nextSplit env.io.nfeatures)]
    dataIndex := ⟨ids.map fun i => ⟨i, 0⟩, false⟩ }

/-- The heap after `spawn`. -/
def spawned (x : Nat) (k : KdNode α) (h : Heap (KdNode α)) : Heap (KdNode α) :=
  ((h.alloc (childOf env x k h.brk (k.ids.take (k.size / 2)))).alloc
    (childOf env x k (h.brk + 1) (k.ids.drop (k.size / 2)))).update x
      fun k => { k with left := some h.brk, right := some (h.brk + 1) }

variable {env} {M : Nat → Nat → α} {n f : Nat} {colwise : Bool} {h : Heap (KdNode α)} {x : Nat}
  {k : KdNode α}

@[simp] theorem ids_childOf (a : Nat) (ids : List Nat) : (childOf env x k a ids).ids = ids := by
  simp [childOf, KdNode.ids, IndexVector.ids, Function.comp_def]

theorem spawned_cell_new (env : KdEnv α) (k : KdNode α) {a : Nat} (hx : x < h.brk)
    (ha : h.brk ≤ a) :
    (spawned env x k h).cell a =
      if a = h.brk then some (childOf env x k h.brk (k.ids.take (k.size / 2)))
      else if a = h.brk + 1 then some (childOf env x k (h.brk + 1) (k.ids.drop (k.size / 2)))
      else none := by
  have hax : a ≠ x := by omega
  rw [spawned, Heap.update_cell_ne _ _ hax, Heap.alloc_cell, Heap.alloc_cell, Heap.alloc_brk,
    h.fresh a ha]
  by_cases h₁ : a = h.brk
  · rw [if_pos h₁, if_pos h₁, if_neg (by omega)]
  · rw [if_neg h₁, if_neg h₁]

theorem spawned_cell_old (env : KdEnv α) (k : KdNode α) {a : Nat} (ha : a < h.brk) (hax : a ≠ x) :
    (spawned env x k h).cell a = h.cell a := by
  rw [spawned, Heap.update_cell_ne _ _ hax, Heap.alloc_cell, Heap.alloc_cell, Heap.alloc_brk,
    if_neg (by omega), if_neg (by omega)]

theorem spawned_cell_self (env : KdEnv α) (hk : h.cell x = some k) :
    (spawned env x k h).cell x =
      some { k with left := some h.brk, right := some (h.brk + 1) } := by
  have hx := h.lt_brk hk
  rw [spawned, Heap.update_cell_self, Heap.alloc_cell, Heap.alloc_cell, Heap.alloc_brk,
    if_neg (by omega), if_neg (by omega), hk]
  rfl

theorem spawn_ok (hk : h.cell x = some k) : spawn env x h = .ok (spawned env x k h) := by
  have hlen : k.dataIndex.getIndexes.length = k.size := k.length_ids
  have hx := h.lt_brk hk
  have hl : 0 + k.dataIndex.size / 2 ≤ k.dataIndex.getIndexes.length := by
    rw [hlen]
    change _ ≤ k.dataIndex.size
    omega
  have hr : k.dataIndex.size / 2 + (k.dataIndex.getIndexes.length - k.dataIndex.size / 2) ≤
      k.dataIndex.getIndexes.length := by omega
  unfold spawn
  rw [Heap.read_ok hk, ok_bind]
  simp only [setPhDataIndex, IndexVector.setIndexes_ofList _ hl, IndexVector.setIndexes_ofList _ hr,
    ok_bind, pure_ok]
  rw [Heap.modify_ok (v := k) (by
    rw [Heap.alloc_cell, Heap.alloc_cell, Heap.alloc_brk, if_neg (by omega),
      if_neg (by omega), hk])]
  have htake : (k.dataIndex.getIndexes.drop (k.dataIndex.size / 2)).take
      (k.dataIndex.getIndexes.length - k.dataIndex.size / 2) =
      k.dataIndex.getIndexes.drop (k.dataIndex.size / 2) :=
    List.take_of_length_le (by simp)
  rw [htake]
  rfl

/-- What a cell of the heap after `spawn` can be. -/
theorem spawned_cell_cases (hk : h.cell x = some k) {a : Nat} {c : KdNode α}
    (hc : (spawned env x k h).cell a = some c) :
    (a = x ∧ c = { k with left := some h.brk, right := some (h.brk + 1) }) ∨
      (a = h.brk ∧ c = childOf env x k h.brk (k.ids.take (k.size / 2))) ∨
      (a = h.brk + 1 ∧ c = childOf env x k (h.brk + 1) (k.ids.drop (k.size / 2))) ∨
      (a ≠ x ∧ h.cell a = some c) := by
  by_cases hax : a = x
  · subst hax
    rw [spawned_cell_self env hk] at hc
    exact Or.inl ⟨rfl, (Option.some.inj hc).symm⟩
  by_cases ha : a < h.brk
  · rw [spawned_cell_old env k ha hax] at hc
    exact Or.inr (Or.inr (Or.inr ⟨hax, hc⟩))
  rw [spawned_cell_new env k (h.lt_brk hk) (Nat.le_of_not_lt ha)] at hc
  split_ifs at hc with h₁ h₂
  · exact Or.inr (Or.inl ⟨h₁, (Option.some.inj hc).symm⟩)
  · exact Or.inr (Or.inr (Or.inl ⟨h₂, (Option.some.inj hc).symm⟩))

theorem keeps_spawned (hk : h.cell x = some k) : Keeps h (spawned env x k h) := by
  intro a c hc
  by_cases hax : a = x
  · subst hax
    cases hk.symm.trans hc
    exact ⟨_, spawned_cell_self env hk, rfl, rfl, rfl, rfl, .refl _⟩
  · exact ⟨c, by rw [spawned_cell_old env k (h.lt_brk hc) hax, hc], .refl c⟩

omit [LinearOrder α] [Zero α] in
theorem nextSplit_lt (hdim : k.splitDim < f) : k.nextSplit f < f := by
  unfold nextSplit
  split <;> omega

theorem nodeOk_childOf (henv : env.io = .ofMatrix M n f colwise) (hk : NodeOk n f k) (a : Nat)
    {ids : List Nat} (hsub : ids.Sublist k.ids) (hpos : 0 < ids.length)
    (hlen : ids.length ≤ 2 ^ 31) : NodeOk n f (childOf env x k a ids) := by
  have hf : env.io.nfeatures = f := by rw [henv]; rfl
  have hsize : (childOf env x k a ids).size = ids.length := by rw [← length_ids, ids_childOf]
  refine ⟨rfl, ?_, ?_, ?_, fun _ => hsize ▸ ⟨hpos, hlen⟩⟩
  · change k.nextSplit env.io.nfeatures < f
    rw [hf]
    exact nextSplit_lt hk.dim
  · rw [ids_childOf]
    exact fun i hi => hk.ids i (hsub.subset hi)
  · have := hsub.length_le
    have := hk.le
    rw [length_ids] at *
    omega

/-- The two new nodes are the children of the node that was spawned. -/
theorem parent_spawned (henv : env.io = .ofMatrix M n f colwise) (hk : h.cell x = some k)
    (htr : Trained M k) (hsize : 1 < k.size) (hdepth : k.depth < env.maxDepth) :
    Parent M f env.maxDepth x (spawned env x k h)
      { k with left := some h.brk, right := some (h.brk + 1) } h.brk (h.brk + 1) := by
  have hf : env.io.nfeatures = f := by rw [henv]; rfl
  have hx := h.lt_brk hk
  have hl := spawned_cell_new env k hx (le_refl h.brk)
  have hr := spawned_cell_new env k hx (Nat.le_add_right h.brk 1)
  rw [if_pos rfl] at hl
  rw [if_neg (by omega), if_pos rfl] at hr
  exact ⟨rfl, rfl, by omega, hsize, hdepth, ⟨htr.vals, htr.sorted, htr.median⟩,
    ⟨_, hl, hx, rfl, rfl, rfl, by rw [← hf]; rfl, by rw [ids_childOf]; rfl⟩,
    ⟨_, hr, by omega, rfl, rfl, rfl, by rw [← hf]; rfl, by rw [ids_childOf]; rfl⟩⟩

/-- `spawn` on a trained node. -/
theorem HeapOk.spawned (h₀ : HeapOk M n f env.maxDepth h)
    (henv : env.io = .ofMatrix M n f colwise) (hn' : n < 2 ^ 32) (hk : h.cell x = some k)
    (htr : Trained M k) (hsize : 1 < k.size) (hdepth : k.depth < env.maxDepth) :
    HeapOk M n f env.maxDepth (KdTree.spawned env x k h) := by
  have hok := h₀.node x k hk
  have hle := hok.le
  refine ⟨fun a c hc => ?_, fun a c hc => ?_⟩
  · rcases spawned_cell_cases hk hc with ⟨rfl, rfl⟩ | ⟨rfl, rfl⟩ | ⟨rfl, rfl⟩ | ⟨_, hc⟩
    · exact ⟨hok.req, hok.dim, hok.ids, hok.le, hok.size⟩
    · exact nodeOk_childOf henv hok _ (List.take_sublist _ _) (by simp; omega) (by simp; omega)
    · exact nodeOk_childOf henv hok _ (List.drop_sublist _ _) (by simp; omega) (by simp; omega)
    · exact h₀.node a c hc
  · rcases spawned_cell_cases hk hc with ⟨rfl, rfl⟩ | ⟨rfl, rfl⟩ | ⟨rfl, rfl⟩ | ⟨_, hc⟩
    · exact Or.inr ⟨_, _, parent_spawned henv hk htr hsize hdepth⟩
    · exact Or.inl ⟨rfl, rfl⟩
    · exact Or.inl ⟨rfl, rfl⟩
    · rcases h₀.links a c hc with hcl | ⟨l, r, hp⟩
      · exact Or.inl hcl
      · exact Or.inr ⟨l, r, hp.keeps (keeps_spawned hk)⟩

/-! ### The first loop of a round -/

/-- The condition under which the first loop of `build` spawns a node. -/
def canSpawn (D : Nat) (h : Heap (KdNode α)) (x : Nat) : Bool :=
  match h.cell x with
  | some k => decide (k.depth < D ∧ 1 < k.size)
  | none => false

/-- `st'` is `st` after the first loop has gone over `P`. -/
structure SpawnedAll (M : Nat → Nat → α) (n f D : Nat) (P : List Nat) (st st' : TreeState α) :
    Prop where
  heapOk : HeapOk M n f D st'.heap
  keeps : Keeps st.heap st'.heap
  brk : st.heap.brk ≤ st'.heap.brk
  log : st'.log = st.log ++ (P.filter (canSpawn D st.heap)).map .spawn
  same : ∀ y, y < st.heap.brk → y ∉ P.filter (canSpawn D st.heap) →
    st'.heap.cell y = st.heap.cell y
  spawned : ∀ y ∈ P.filter (canSpawn D st.heap), ∀ k, st.heap.cell y = some k →
    ∃ l r, st'.heap.cell y = some { k with left := some l, right := some r } ∧
      st.heap.brk ≤ l ∧ st.heap.brk ≤ r
  new : ∀ a c, st.heap.brk ≤ a → st'.heap.cell a = some c →
    Childless c ∧ c.depth ≠ 0 ∧ ∃ y ∈ P.filter (canSpawn D st.heap), a ∈ kids st'.heap y
  idle : P.filter (canSpawn D st.heap) = [] → st' = st

omit [LinearOrder α] [Zero α] in
theorem canSpawn_cell {D : Nat} (hk : h.cell x = some k) :
    canSpawn D h x = true ↔ k.depth < D ∧ 1 < k.size := by
  simp only [canSpawn, hk, decide_eq_true_eq]

omit [Zero α] in
theorem SpawnedAll.nil {D : Nat} {st : TreeState α} (h₀ : HeapOk M n f D st.heap) :
    SpawnedAll M n f D [] st st where
  heapOk := h₀
  keeps := .refl _
  brk := le_refl _
  log := (List.append_nil _).symm
  same _ _ _ := rfl
  spawned _ hy := absurd hy List.not_mem_nil
  new _ _ ha hc := absurd (st.heap.lt_brk hc) (Nat.not_lt.mpr ha)
  idle _ := rfl

omit [Zero α] in
/-- The loop has come to a node it does not spawn. -/
theorem SpawnedAll.skip {D : Nat} {pre : List Nat} {st s : TreeState α}
    (h : SpawnedAll M n f D pre st s) (hx : canSpawn D st.heap x = false) :
    SpawnedAll M n f D (pre ++ [x]) st s := by
  have hfil : (pre ++ [x]).filter (canSpawn D st.heap) = pre.filter (canSpawn D st.heap) := by
    simp [hx]
  obtain ⟨h₁, h₂, h₃, h₄, h₅, h₆, h₇, h₈⟩ := h
  exact ⟨h₁, h₂, h₃, by rwa [hfil], by rwa [hfil], by rwa [hfil], by rwa [hfil], by rwa [hfil]⟩

/-- The loop has come to a node it spawns. -/
theorem SpawnedAll.spawn {pre : List Nat} {st s : TreeState α}
    (h : SpawnedAll M n f env.maxDepth pre st s) (henv : env.io = .ofMatrix M n f colwise)
    (hn' : n < 2 ^ 32) (hx : canSpawn env.maxDepth st.heap x = true) (hpre : x ∉ pre)
    (hk : st.heap.cell x = some k) (htr : Trained M k) :
    SpawnedAll M n f env.maxDepth (pre ++ [x]) st
      ⟨KdTree.spawned env x k s.heap, s.log ++ [.spawn x]⟩ := by
  have hfil : (pre ++ [x]).filter (canSpawn env.maxDepth st.heap) =
      pre.filter (canSpawn env.maxDepth st.heap) ++ [x] := by
    simp [hx]
  have hxbrk := st.heap.lt_brk hk
  have hxpre : x ∉ pre.filter (canSpawn env.maxDepth st.heap) := fun hm =>
    hpre (List.mem_filter.mp hm).1
  have hks : s.heap.cell x = some k := (h.same x hxbrk hxpre).trans hk
  have hcond := (canSpawn_cell hk).mp hx
  have hbrk := h.brk
  refine ⟨h.heapOk.spawned henv hn' hks htr hcond.2 hcond.1, h.keeps.trans (keeps_spawned hks), ?_,
    ?_, ?_, ?_, ?_, ?_⟩
  · exact hbrk.trans (Nat.le_add_right _ 2)
  · simp only [h.log, hfil, List.map_append, List.map_singleton, List.append_assoc]
  · intro y hy hym
    rw [hfil, List.mem_append, List.mem_singleton, not_or] at hym
    rw [spawned_cell_old env k (by omega) hym.2]
    exact h.same y hy hym.1
  · intro y hy ky hky
    rw [hfil, List.mem_append, List.mem_singleton] at hy
    rcases hy with hy | rfl
    · obtain ⟨l, r, hc, hl, hr⟩ := h.spawned y hy ky hky
      have hyx : y ≠ x := fun he => hxpre (he ▸ hy)
      exact ⟨l, r, by rw [spawned_cell_old env k (s.heap.lt_brk hc) hyx, hc], hl, hr⟩
    · cases hk.symm.trans hky
      exact ⟨_, _, spawned_cell_self env hks, hbrk, by omega⟩
  · intro a c ha hc
    have hkids := kids_eq (spawned_cell_self env hks)
    have hmem : x ∈ pre.filter (canSpawn env.maxDepth st.heap) ++ [x] := by simp
    rw [hfil]
    rcases spawned_cell_cases hks hc with ⟨rfl, _⟩ | ⟨rfl, rfl⟩ | ⟨rfl, rfl⟩ | ⟨_, hc⟩
    · omega
    · exact ⟨⟨rfl, rfl⟩, Nat.succ_ne_zero _, x, hmem, by rw [hkids]; simp⟩
    · exact ⟨⟨rfl, rfl⟩, Nat.succ_ne_zero _, x, hmem, by rw [hkids]; simp⟩
    · obtain ⟨hcl, hd, y, hy, hay⟩ := h.new a c ha hc
      refine ⟨hcl, hd, y, List.mem_append_left _ hy, ?_⟩
      have hyx : y ≠ x := fun he => hxpre (he ▸ hy)
      have hyb : y < s.heap.brk := by
        by_contra hlt
        simp [kids, s.heap.fresh y (Nat.le_of_not_lt hlt)] at hay
      simpa only [kids, spawned_cell_old env k hyb hyx] using hay
  · intro hnil
    rw [hfil] at hnil
    simp at hnil

theorem spawnAll_ok (henv : env.io = .ofMatrix M n f colwise) (hn' : n < 2 ^ 32) {P : List Nat}
    (hP : P.Nodup) {st : TreeState α} (h₀ : HeapOk M n f env.maxDepth st.heap)
    (htr : ∀ x ∈ P, ∃ k, st.heap.cell x = some k ∧ Trained M k) :
    ∃ st', P.foldlM (spawnStep env) (st, false) =
        .ok (st', P.any (canSpawn env.maxDepth st.heap)) ∧
      SpawnedAll M n f env.maxDepth P st st' := by
  have hstep : ∀ pre x post (s : TreeState α × Bool), P = pre ++ x :: post →
      (SpawnedAll M n f env.maxDepth pre st s.1 ∧ s.2 = pre.any (canSpawn env.maxDepth st.heap)) →
      ∃ s', spawnStep env s x = .ok s' ∧ SpawnedAll M n f env.maxDepth (pre ++ [x]) st s'.1 ∧
        s'.2 = (pre ++ [x]).any (canSpawn env.maxDepth st.heap) := by
    rintro pre x post ⟨s, b⟩ hP' ⟨hI, rfl⟩
    obtain ⟨k, hk, hkt⟩ := htr x (by rw [hP']; simp)
    have hpre : x ∉ pre := by
      rw [hP'] at hP
      intro hm
      exact (List.nodup_append.mp hP).2.2 x hm x List.mem_cons_self rfl
    have hks : s.heap.cell x = some k :=
      (hI.same x (st.heap.lt_brk hk) fun hm => hpre (List.mem_filter.mp hm).1).trans hk
    unfold spawnStep
    rw [Heap.read_ok hks, ok_bind]
    by_cases hx : canSpawn env.maxDepth st.heap x = true
    · rw [if_pos ((canSpawn_cell hk).mp hx), spawn_ok hks, ok_bind]
      exact ⟨_, rfl, hI.spawn henv hn' hx hpre hk hkt, by simp [hx]⟩
    · rw [if_neg fun hc => hx ((canSpawn_cell hk).mpr hc)]
      exact ⟨_, rfl, hI.skip (Bool.eq_false_iff.mpr hx), by simp [hx]⟩
  obtain ⟨⟨st', b⟩, hrun, hI, rfl⟩ := foldlM_history (spawnStep env) P _ hstep (s := (st, false))
    ⟨.nil h₀, rfl⟩
  exact ⟨st', hrun, hI⟩

end Spawn

/-! ## `train` -/

section Train

variable {α : Type} [LinearOrder α] {env : KdEnv α} {M : Nat → Nat → α} {n f D : Nat}
  {colwise : Bool} {h : Heap (KdNode α)} {x : Nat} {k k' : KdNode α}

omit [LinearOrder α] in
theorem update_const_cell (hk : h.cell x = some k) {a : Nat} {c : KdNode α}
    (hc : (h.update x fun _ => k').cell a = some c) :
    (a = x ∧ c = k') ∨ (a ≠ x ∧ h.cell a = some c) := by
  by_cases hax : a = x
  · subst hax
    rw [Heap.update_cell_self, hk] at hc
    exact Or.inl ⟨rfl, (Option.some.inj hc).symm⟩
  · rw [Heap.update_cell_ne _ _ hax] at hc
    exact Or.inr ⟨hax, hc⟩

omit [LinearOrder α] in
theorem sameNode_of_trained (hs : SameButTrained k k') (hp : k'.ids.Perm k.ids) : SameNode k k' :=
  ⟨hs.viewParent, hs.parent, hs.depth, hs.splitDim, hp⟩

omit [LinearOrder α] in
theorem keeps_update (hk : h.cell x = some k) (hs : SameNode k k') :
    Keeps h (h.update x fun _ => k') := by
  intro a c hc
  by_cases hax : a = x
  · subst hax
    cases hk.symm.trans hc
    exact ⟨k', by rw [Heap.update_cell_self, hk]; rfl, hs⟩
  · exact ⟨c, by rw [Heap.update_cell_ne _ _ hax, hc], .refl c⟩

/-- A childless node that has been trained in the meantime. -/
theorem HeapOk.retrain (h₀ : HeapOk M n f D h) (hk : h.cell x = some k) (hc : Childless k)
    (hs : SameButTrained k k') (hp : k'.ids.Perm k.ids) :
    HeapOk M n f D (h.update x fun _ => k') := by
  have hsame := sameNode_of_trained hs hp
  refine ⟨fun a c hc => ?_, fun a c hc' => ?_⟩
  · rcases update_const_cell hk hc with ⟨rfl, rfl⟩ | ⟨_, hc⟩
    · have hok := h₀.node a k hk
      refine ⟨?_, ?_, fun i hi => hok.ids i (hp.mem_iff.mp hi), ?_, fun hd => ?_⟩
      · rw [hs.reqIndxs, hs.splitDim, hok.req]
      · rw [hs.splitDim]; exact hok.dim
      · rw [hsame.size]; exact hok.le
      · rw [hsame.size]; exact hok.size (hs.depth ▸ hd)
    · exact h₀.node a c hc
  · rcases update_const_cell hk hc' with ⟨rfl, rfl⟩ | ⟨_, hc'⟩
    · exact Or.inl ⟨hs.left.trans hc.1, hs.right.trans hc.2⟩
    · rcases h₀.links a c hc' with hcl | ⟨l, r, hpar⟩
      · exact Or.inl hcl
      · exact Or.inr ⟨l, r, hpar.keeps (keeps_update hk hsame)⟩

/-- `st'` is `st` after the nodes of `Q` have been trained. -/
structure TrainedAll (M : Nat → Nat → α) (n f D : Nat) (Q : List Nat) (st st' : TreeState α) :
    Prop where
  heapOk : HeapOk M n f D st'.heap
  keeps : Keeps st.heap st'.heap
  log : st'.log = st.log ++ Q.flatMap fun x => [.prep x, .run x]
  same : ∀ y, y ∉ Q → st'.heap.cell y = st.heap.cell y
  trained : ∀ y ∈ Q, ∃ k k', st.heap.cell y = some k ∧ st'.heap.cell y = some k' ∧
    SameButTrained k k' ∧ Trained M k'

theorem TrainedAll.nil {st : TreeState α} (h₀ : HeapOk M n f D st.heap) :
    TrainedAll M n f D [] st st where
  heapOk := h₀
  keeps := .refl _
  log := (List.append_nil _).symm
  same _ _ := rfl
  trained _ hy := absurd hy List.not_mem_nil

/-- `train` on a node that has been given its samples. -/
theorem train_returns (henv : env.io = .ofMatrix M n f colwise) (hn : 1 ≤ n) (hn' : n < 2 ^ 32)
    {st : TreeState α} (hk : st.heap.cell x = some k) (hok : NodeOk n f k) (hd : k.depth ≠ 0) :
    ∃ k', train env x st = .ok ⟨st.heap.update x fun _ => k', st.log ++ [.prep x, .run x]⟩ ∧
      SameButTrained k k' ∧ k'.ids.Perm k.ids ∧ Trained M k' := by
  obtain ⟨k₁, k₂, hprep, hrun, hs, hp, ht⟩ :=
    train_ok henv hn hn' x ⟨hok.req, hok.dim, hok.ids, (hok.size hd).2⟩
  rw [if_neg (hok.ids_ne_nil hd)] at hp
  refine ⟨k₂, ?_, hs, hp, ht⟩
  unfold train
  rw [Heap.read_ok hk, ok_bind, hprep, ok_bind, hrun, ok_bind, Heap.modify_ok hk]
  rfl

theorem trainAll_ok (henv : env.io = .ofMatrix M n f colwise) (hn : 1 ≤ n) (hn' : n < 2 ^ 32)
    {Q : List Nat} (hQ : Q.Nodup) {st : TreeState α} (h₀ : HeapOk M n f D st.heap)
    (hnew : ∀ x ∈ Q, ∃ k, st.heap.cell x = some k ∧ k.depth ≠ 0 ∧ Childless k) :
    ∃ st', Q.foldlM (fun st x => train env x st) st = .ok st' ∧ TrainedAll M n f D Q st st' := by
  refine foldlM_history (fun st x => train env x st) Q (fun pre s => TrainedAll M n f D pre st s)
    (fun pre x post s hQ' hI => ?_) (.nil h₀)
  obtain ⟨k, hk, hd, hc⟩ := hnew x (by rw [hQ']; simp)
  have hpre : x ∉ pre := by
    rw [hQ'] at hQ
    intro hm
    exact (List.nodup_append.mp hQ).2.2 x hm x List.mem_cons_self rfl
  have hks : s.heap.cell x = some k := (hI.same x hpre).trans hk
  obtain ⟨k', hrun, hs, hp, ht⟩ := train_returns henv hn hn' hks (hI.heapOk.node x k hks) hd
  refine ⟨_, hrun, hI.heapOk.retrain hks hc hs hp,
    hI.keeps.trans (keeps_update hks (sameNode_of_trained hs hp)), ?_, fun y hy => ?_,
    fun y hy => ?_⟩
  · simp [hI.log]
  · rw [List.mem_append, List.mem_singleton, not_or] at hy
    rw [Heap.update_cell_ne _ _ hy.2, hI.same y hy.1]
  · rw [List.mem_append, List.mem_singleton] at hy
    rcases hy with hy | rfl
    · obtain ⟨ky, ky', h₁, h₂, h₃, h₄⟩ := hI.trained y hy
      have hyx : y ≠ x := fun he => hpre (he ▸ hy)
      exact ⟨ky, ky', h₁, by rw [Heap.update_cell_ne _ _ hyx, h₂], h₃, h₄⟩
    · exact ⟨k, k', hk, by rw [Heap.update_cell_self, hks]; rfl, hs, ht⟩

end Train

/-! ## Children -/

section Kids

variable {α : Type}

/-- `x` is a node of the tree, `l` levels below the root. -/
inductive AtDepth (h : Heap (KdNode α)) : Nat → Nat → Prop
  | root : AtDepth h 0 0
  | child {l x a : Nat} (hx : AtDepth h l x) (ha : a ∈ kids h x) : AtDepth h (l + 1) a

def Reachable (h : Heap (KdNode α)) (x : Nat) : Prop := ∃ l, AtDepth h l x

/-- The nodes of `h` are nodes of `h'`, with the same children. -/
def SameLinks (h h' : Heap (KdNode α)) : Prop :=
  ∀ x k, h.cell x = some k → ∃ k', h'.cell x = some k' ∧ k'.left = k.left ∧ k'.right = k.right

theorem SameLinks.refl (h : Heap (KdNode α)) : SameLinks h h := fun _ k hk => ⟨k, hk, rfl, rfl⟩

theorem SameLinks.trans {h₁ h₂ h₃ : Heap (KdNode α)} (h : SameLinks h₁ h₂) (h' : SameLinks h₂ h₃) :
    SameLinks h₁ h₃ := by
  intro x k hk
  obtain ⟨k₂, hk₂, hl, hr⟩ := h x k hk
  obtain ⟨k₃, hk₃, hl', hr'⟩ := h' x k₂ hk₂
  exact ⟨k₃, hk₃, hl'.trans hl, hr'.trans hr⟩

theorem SameLinks.kids {h h' : Heap (KdNode α)} (hs : SameLinks h h') {x : Nat} {k : KdNode α}
    (hk : h.cell x = some k) : kids h' x = kids h x := by
  obtain ⟨k', hk', hl, hr⟩ := hs x k hk
  rw [kids_eq hk, kids_eq hk', hl, hr]

variable [LinearOrder α] {env : KdEnv α}

theorem prep_same {k k' : KdNode α} (h : prep env k = .ok k') : SameButTrained k k' := by
  unfold prep at h
  split at h
  · obtain ⟨ret, _, h⟩ := bind_ok h
    dsimp only at h
    split at h <;>
    · obtain ⟨di, _, h⟩ := bind_ok h
      cases h
      exact ⟨rfl, rfl, rfl, rfl, rfl, rfl, rfl⟩
  · cases h

/-- What a `run` that returns makes of the node. -/
theorem eq_of_run {x : Nat} {k k' : KdNode α} (h : KdNode.run env x k = .ok k') :
    ∃ comparator lowerBounds upperBounds, k' = { k with
      dataIndex := { k.dataIndex with
        items := env.sorter.sort (decide (k.depth < 3)) x k.dataIndex.items }
      comparator, lowerBounds, upperBounds } := by
  unfold KdNode.run at h
  obtain ⟨iv, -, h⟩ := bind_ok h
  unfold computeBounds at h
  obtain ⟨bounds, -, h⟩ := bind_ok h
  cases h
  exact ⟨_, _, _, rfl⟩

theorem run_same {x : Nat} {k k' : KdNode α} (h : KdNode.run env x k = .ok k') :
    SameButTrained k k' := by
  obtain ⟨comparator, lower, upper, rfl⟩ := eq_of_run h
  exact ⟨rfl, rfl, rfl, rfl, rfl, rfl, rfl⟩

/-- A node without samples is given all of them. -/
theorem size_of_prep {k k' : KdNode α} (hk : k.dataIndex.items = []) (h : prep env k = .ok k') :
    k'.size = env.io.nsamples := by
  unfold prep at h
  split at h
  · obtain ⟨ret, -, h⟩ := bind_ok h
    simp only [hk, List.isEmpty_nil, if_true] at h
    obtain ⟨di, hdi, h⟩ := bind_ok h
    cases h
    unfold IndexVector.setIndexesVals at hdi
    obtain ⟨xs, hxs, hdi⟩ := bind_ok hdi
    cases hdi
    simpa [KdNode.size, IndexVector.size] using (Buf.copy_get hxs).1
  · cases h

theorem size_of_run {x : Nat} {k k' : KdNode α} (h : KdNode.run env x k = .ok k') :
    k'.size = k.size := by
  obtain ⟨comparator, lower, upper, rfl⟩ := eq_of_run h
  exact (env.sorter.perm _ _ _).length_eq

/-- What training does to the heap. -/
theorem train_same {x : Nat} {st st' : TreeState α} (h : train env x st = .ok st') :
    ∃ k k', st.heap.cell x = some k ∧ st'.heap = st.heap.update x (fun _ => k') ∧
      SameButTrained k k' := by
  unfold train at h
  obtain ⟨k, hk, h⟩ := bind_ok h
  obtain ⟨k₁, h₁, h⟩ := bind_ok h
  obtain ⟨k₂, h₂, h⟩ := bind_ok h
  obtain ⟨hp, hm, h⟩ := bind_ok h
  cases h
  obtain ⟨rfl, -⟩ := Heap.of_modify hm
  exact ⟨k, k₂, Heap.cell_of_read hk, rfl, (prep_same h₁).trans (run_same h₂)⟩

theorem train_links {x : Nat} {st st' : TreeState α} (h : train env x st = .ok st') :
    SameLinks st.heap st'.heap := by
  obtain ⟨k, k', hk, hheap, hs⟩ := train_same h
  intro a c hc
  rw [hheap]
  by_cases hax : a = x
  · subst hax
    cases hk.symm.trans hc
    exact ⟨k', by rw [Heap.update_cell_self, hk]; rfl, hs.left, hs.right⟩
  · exact ⟨c, by rw [Heap.update_cell_ne _ _ hax, hc], rfl, rfl⟩

/-- Scheduling may run a level, and does nothing else to the nodes. -/
theorem schedule_keeps {P : TreeState α → Prop}
    (htrain : ∀ x st st', train env x st = .ok st' → P st → P st') {a : Nat}
    {s s' : Scheduler × TreeState α} (h : Scheduler.schedule (train env) a s = .ok s')
    (hs : P s.2) : P s'.2 := by
  unfold Scheduler.schedule at h
  obtain ⟨level, _, h⟩ := bind_ok h
  split at h
  · obtain ⟨st, hst, h⟩ := bind_ok h
    cases h
    unfold Scheduler.runLevel at hst
    split at hst
    · cases hst
    · exact foldlM_rel (R := fun st st' => P st → P st') (fun _ h => h)
        (fun _ _ _ h h' hp => h' (h hp)) (fun st x st' h => htrain x st st' h) hst hs
  · cases h
    exact hs

theorem schedule_links {a : Nat} {s s' : Scheduler × TreeState α}
    (h : Scheduler.schedule (train env) a s = .ok s') : SameLinks s.2.heap s'.2.heap :=
  schedule_keeps (P := fun st => SameLinks s.2.heap st.heap)
    (fun _ _ _ ht hs => hs.trans (train_links ht)) h (.refl _)

/-- The second loop's body schedules the children of a node. -/
theorem scheduleChildren_eq {x : Nat} {k : KdNode α} {s : Scheduler × TreeState α}
    (hk : s.2.heap.cell x = some k) :
    scheduleChildren env s x =
      (kids s.2.heap x).foldlM (fun s a => Scheduler.schedule (train env) a s) s := by
  unfold scheduleChildren
  rw [Heap.read_ok hk, ok_bind, kids_eq hk]
  cases hl : k.left with
  | none =>
    simp only [scheduleChild, pure_ok, ok_bind, Heap.read_ok hk, Option.toList_none,
      List.nil_append]
    cases hr : k.right with
    | none => rfl
    | some r => simp
  | some l =>
    simp only [scheduleChild, Option.toList_some, List.singleton_append, List.foldlM_cons]
    cases h₁ : Scheduler.schedule (train env) l s with
    | error e => rfl
    | ok s₁ =>
      obtain ⟨k₁, hk₁, _, hr₁⟩ := schedule_links h₁ x k hk
      rw [ok_bind, ok_bind, Heap.read_ok hk₁, ok_bind, hr₁]
      cases hr : k.right with
      | none => rfl
      | some r => simp

/-- The second loop of a round schedules the children of all nodes of the level, in order. -/
theorem scheduleAllChildren_eq {P : List Nat} {s : Scheduler × TreeState α}
    (hP : ∀ x ∈ P, ∃ k, s.2.heap.cell x = some k) :
    P.foldlM (scheduleChildren env) s =
      (P.flatMap (kids s.2.heap)).foldlM (fun s a => Scheduler.schedule (train env) a s) s := by
  induction P generalizing s with
  | nil => rfl
  | cons x P ih =>
    obtain ⟨k, hk⟩ := hP x List.mem_cons_self
    rw [List.foldlM_cons, List.flatMap_cons, List.foldlM_append, scheduleChildren_eq hk]
    cases h₁ : (kids s.2.heap x).foldlM (fun s a => Scheduler.schedule (train env) a s) s with
    | error e => rfl
    | ok s₁ =>
      have hs : SameLinks s.2.heap s₁.2.heap :=
        foldlM_rel (R := fun s s' => SameLinks s.2.heap s'.2.heap) (fun _ => .refl _)
          (fun _ _ _ => .trans) (fun _ _ _ h => schedule_links h) h₁
      rw [ok_bind, ok_bind, ih fun y hy => ?_]
      · congr 1
        refine List.flatMap_congr fun y hy => ?_
        obtain ⟨ky, hky⟩ := hP y (List.mem_cons_of_mem _ hy)
        exact hs.kids hky
      · obtain ⟨ky, hky⟩ := hP y (List.mem_cons_of_mem _ hy)
        obtain ⟨ky', hky', _⟩ := hs y ky hky
        exact ⟨ky', hky'⟩

end Kids

end Monya.KdTree
