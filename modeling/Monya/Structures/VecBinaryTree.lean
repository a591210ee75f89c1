/-
  `VecBinaryTree` (`structures/VecBinaryTree.cpp`, `structures/VecBinaryTree.hpp`) with `VECNODES`:
  a binary tree in a vector, with the children of index `i` at `2i + 1` and `2i + 2`.

  `insert_at` computes that index, writes it into the node as its `vecpos`, and then pushes the node
  to the back of the vector. `placed_iff`: the nodes are where their indexes say exactly if they
  come in the order of their indexes, so that each index is the back of the vector when its node
  comes (`InOrder`).

  The vector is always the nodes in the order they came, each with its index (`history_eq`). No two
  nodes have one index (`indexOf_inj`), so a node that is found at its index came at its index.
-/
import Monya.Lib.LinkedTree

namespace Monya.Structures

open Monya.Lib

/-- A `BinaryNode`: its `vecpos`, and what else it holds. -/
structure VecNode (α : Type) where
  data : α
  vecpos : Nat
  deriving DecidableEq, Repr

structure VecBinaryTree (α : Type) where
  nodes : List (VecNode α)

namespace VecBinaryTree

variable {α : Type}

def new : VecBinaryTree α := ⟨[]⟩

def setRoot (node : VecNode α) (t : VecBinaryTree α) : VecBinaryTree α :=
  if t.nodes.isEmpty then ⟨t.nodes ++ [node]⟩ else ⟨t.nodes.set 0 node⟩

def getChildIdx (parentIdx : Nat) : Side → Nat
  | .left => (2 * parentIdx + 1) % 2 ^ 64
  | .right => (2 * parentIdx + 2) % 2 ^ 64

/-- `get_parent_idx`; for index 0 the subtraction wraps around. -/
def getParentIdx (nodeIdx : Nat) : Nat := (nodeIdx + (2 ^ 64 - 1)) % 2 ^ 64 / 2

def getAtIdx (t : VecBinaryTree α) (nodeIdx : Nat) : Except Fault (VecNode α) :=
  match t.nodes[nodeIdx]? with
  | some node => .ok node
  | none => .error .outOfBounds

/-- `insert_at(new_node, parent_idx, pos)`. -/
def insertAtIdx (newNode : VecNode α) (parentIdx : Nat) (pos : Side) (t : VecBinaryTree α) :
    VecBinaryTree α :=
  ⟨t.nodes ++ [{ newNode with vecpos := getChildIdx parentIdx pos }]⟩

/-- `insert_at(new_node, node, pos)`, with a pointer to the node in slot `slot` of the vector. -/
def insertAt (newNode : VecNode α) (slot : Nat) (pos : Side) (t : VecBinaryTree α) :
    Except Fault (VecBinaryTree α) := do
  let node ← t.getAtIdx slot
  return ⟨t.nodes ++ [{ newNode with vecpos := getChildIdx node.vecpos pos }]⟩

theorem getAtIdx_eq_iff {t : VecBinaryTree α} {i : Nat} {x : VecNode α} :
    t.getAtIdx i = .ok x ↔ t.nodes[i]? = some x := by
  unfold getAtIdx
  cases t.nodes[i]? <;> simp

theorem getChildIdx_pos {i : Nat} (hi : i + 1 < 2 ^ 63) (s : Side) : 0 < getChildIdx i s := by
  cases s <;> simp only [getChildIdx] <;> omega

theorem getChildIdx_inj {i j : Nat} {s s' : Side} (hi : i + 1 < 2 ^ 63) (hj : j + 1 < 2 ^ 63)
    (h : getChildIdx i s = getChildIdx j s') : i = j ∧ s = s' := by
  cases s <;> cases s' <;> simp only [getChildIdx] at h <;>
    first | exact ⟨by omega, rfl⟩ | omega

theorem getParentIdx_child {i : Nat} (hi : i + 1 < 2 ^ 63) (s : Side) :
    getParentIdx (getChildIdx i s) = i := by
  cases s <;> simp only [getParentIdx, getChildIdx] <;> omega

/-! ## Sequences of insertions -/

/-- A call of `insert_at`. The parent is a number in the order of the insertions, with the root as
    number 0; the call has a pointer to it, or an index. -/
structure Attach (α : Type) where
  node : VecNode α
  parent : Nat
  pos : Side
  parentIdx : Option Nat

def attach (t : VecBinaryTree α) (a : Attach α) : Except Fault (VecBinaryTree α) :=
  match a.parentIdx with
  | some i => .ok (t.insertAtIdx a.node i a.pos)
  | none => t.insertAt a.node a.parent a.pos

/-- `set_root` on an empty tree, and then the calls. -/
def history (root : VecNode α) (as : List (Attach α)) : Except Fault (VecBinaryTree α) :=
  as.foldlM attach (new.setRoot root)

/-- The indexes in the tree, in the order of the insertions. -/
def indices (as : List (Attach α)) : List Nat :=
  as.foldl (fun is a => is ++ [getChildIdx (is.getD a.parent 0) a.pos]) [0]

/-- The index of a node, from its number. -/
def indexOf (as : List (Attach α)) (number : Nat) : Nat := (indices as).getD number 0

/-- Each call is for a parent that is there, named by its index if not by a pointer, and a position
    that no other call uses. No vector has `2 ^ 63` nodes. -/
structure Valid (as : List (Attach α)) : Prop where
  room : as.length + 1 < 2 ^ 63
  parent : ∀ (k : Nat) (a : Attach α), as[k]? = some a → a.parent ≤ k
  index : ∀ (k : Nat) (a : Attach α), as[k]? = some a →
    ∀ i ∈ a.parentIdx, i = indexOf as a.parent
  unused : ∀ (j k : Nat) (a b : Attach α), as[j]? = some a → as[k]? = some b →
    a.parent = b.parent → a.pos = b.pos → j = k

/-- The index of the node that call `a` of `as` inserts. -/
def Attach.idx (a : Attach α) (as : List (Attach α)) : Nat :=
  getChildIdx (indexOf as a.parent) a.pos

/-- Every node is at its index and has it as its `vecpos`, its parent's index is the parent's, and
    what was in the vector after some of the calls is still there. -/
structure Placed (root : VecNode α) (as : List (Attach α)) (t : VecBinaryTree α) : Prop where
  found : ∀ a ∈ as, t.getAtIdx (a.idx as) = .ok { a.node with vecpos := a.idx as }
  back : ∀ a ∈ as, getParentIdx (a.idx as) = indexOf as a.parent
  kept : ∀ pre post t₁, as = pre ++ post → history root pre = .ok t₁ → t₁.nodes <+: t.nodes

/-- The nodes come in the order of their indexes. -/
def InOrder (as : List (Attach α)) : Prop := ∀ k ≤ as.length, indexOf as k = k

/-! ## The indexes -/

theorem indices_snoc (as : List (Attach α)) (a : Attach α) :
    indices (as ++ [a]) = indices as ++ [a.idx as] := by
  simp [indices, indexOf, Attach.idx]

@[simp] theorem length_indices (as : List (Attach α)) : (indices as).length = as.length + 1 := by
  induction as using List.reverseRecOn with
  | nil => rfl
  | append_singleton as a ih => simp [indices_snoc, ih]

theorem indices_prefix (as bs : List (Attach α)) : indices as <+: indices (as ++ bs) := by
  induction bs using List.reverseRecOn with
  | nil => simp
  | append_singleton bs b ih =>
    rw [← List.append_assoc, indices_snoc]
    exact ih.trans (List.prefix_append _ _)

theorem indexOf_append (as bs : List (Attach α)) {k : Nat} (hk : k ≤ as.length) :
    indexOf (as ++ bs) k = indexOf as k := by
  obtain ⟨rest, hrest⟩ := indices_prefix as bs
  have hlt : k < (indices as).length := by
    rw [length_indices]
    omega
  simp only [indexOf, List.getD_eq_getElem?_getD, ← hrest, List.getElem?_append_left hlt]

theorem indexOf_zero (as : List (Attach α)) : indexOf as 0 = 0 :=
  indexOf_append [] as (Nat.le_refl 0)

/-- A node's index is the one computed from its parent's. -/
theorem indexOf_succ {as : List (Attach α)}
    (hparent : ∀ (k : Nat) (a : Attach α), as[k]? = some a → a.parent ≤ k) {k : Nat} {a : Attach α}
    (ha : as[k]? = some a) : indexOf as (k + 1) = a.idx as := by
  obtain ⟨hk, hget⟩ := List.getElem?_eq_some_iff.mp ha
  -- the calls up to this one have given the index
  obtain ⟨pre, post, rfl, hlen⟩ : ∃ pre post, as = (pre ++ [a]) ++ post ∧ pre.length = k := by
    refine ⟨as.take k, as.drop (k + 1), ?_, by simpa using hk.le⟩
    rw [← hget, List.take_concat_get' as k hk, List.take_append_drop]
  have hle : a.parent ≤ pre.length := hlen ▸ hparent k a ha
  have hidx : a.idx (pre ++ [a] ++ post) = a.idx pre := by
    unfold Attach.idx
    rw [List.append_assoc, indexOf_append pre _ hle]
  rw [indexOf_append _ _ (by simp [hlen]), hidx]
  simp [indexOf, indices_snoc, ← hlen, List.getD_eq_getElem?_getD]

section Index

variable {as : List (Attach α)} (has : Valid as)

include has

/-- No two nodes have one index, as long as none has wrapped around. -/
theorem indexOf_inj (hsmall : ∀ k ≤ as.length, indexOf as k ≤ as.length) {j k : Nat}
    (hj : j ≤ as.length) (hk : k ≤ as.length) (h : indexOf as j = indexOf as k) : j = k := by
  have hroom := has.room
  have hbound : ∀ i ≤ as.length, indexOf as i + 1 < 2 ^ 63 := fun i hi =>
    lt_of_le_of_lt (Nat.succ_le_succ (hsmall i hi)) hroom
  have hcall : ∀ i, i + 1 ≤ as.length → ∃ a, as[i]? = some a ∧ a.parent ≤ i ∧
      indexOf as (i + 1) = a.idx as := fun i hi =>
    have ha := List.getElem?_eq_getElem (show i < as.length from hi)
    ⟨_, ha, has.parent i _ ha, indexOf_succ has.parent ha⟩
  -- equal indexes have equal parents, and those came earlier
  induction j using Nat.strong_induction_on generalizing k with
  | _ j ih =>
    cases j with
    | zero =>
      cases k with
      | zero => rfl
      | succ k =>
        obtain ⟨b, -, hb, hidx⟩ := hcall k hk
        rw [indexOf_zero, hidx] at h
        exact absurd h (getChildIdx_pos (hbound _ (by omega)) b.pos).ne
    | succ j =>
      obtain ⟨a, ha, hpa, hidx⟩ := hcall j hj
      cases k with
      | zero =>
        rw [indexOf_zero, hidx] at h
        exact absurd h (getChildIdx_pos (hbound _ (by omega)) a.pos).ne'
      | succ k =>
        obtain ⟨b, hb, hpb, hidx'⟩ := hcall k hk
        rw [hidx, hidx'] at h
        obtain ⟨hparent, hpos⟩ := getChildIdx_inj (hbound _ (by omega)) (hbound _ (by omega)) h
        have hsame := ih a.parent (by omega) (by omega) (k := b.parent) (by omega) hparent
        rw [has.unused j k a b ha hb hsame hpos]

end Index

/-! ## What the vector holds -/

theorem history_snoc (root : VecNode α) (as : List (Attach α)) (a : Attach α) :
    history root (as ++ [a]) = history root as >>= fun t => t.attach a := by
  unfold history
  simp only [List.foldlM_append, List.foldlM_cons, List.foldlM_nil, bind_pure]

/-- The nodes in the order of the insertions, each with its index. -/
def inserted (root : VecNode α) (as : List (Attach α)) : List (VecNode α) :=
  List.zipWith VecNode.mk (root.data :: as.map (·.node.data)) (indices as)

theorem inserted_snoc (root : VecNode α) (as : List (Attach α)) (a : Attach α) :
    inserted root (as ++ [a]) = inserted root as ++ [{ a.node with vecpos := a.idx as }] := by
  unfold inserted
  rw [indices_snoc, List.map_append, ← List.cons_append, List.zipWith_append (by simp)]
  rfl

@[simp] theorem length_inserted (root : VecNode α) (as : List (Attach α)) :
    (inserted root as).length = as.length + 1 := by
  simp [inserted]

/-- A node that stands in slot `i` has come as number `i`. -/
theorem vecpos_of_inserted {root : VecNode α} {as : List (Attach α)} {i : Nat} {x : VecNode α}
    (h : (inserted root as)[i]? = some x) : i ≤ as.length ∧ x.vecpos = indexOf as i := by
  have hlt := (List.getElem?_eq_some_iff.mp h).1
  rw [length_inserted] at hlt
  obtain ⟨d, j, -, hj, rfl⟩ := List.getElem?_zipWith_eq_some.mp h
  exact ⟨Nat.le_of_lt_succ hlt, by simp [indexOf, hj]⟩

/-- The node of a call stands behind those of the calls before it. -/
theorem inserted_of_call {as : List (Attach α)} (root : VecNode α)
    (hparent : ∀ (k : Nat) (a : Attach α), as[k]? = some a → a.parent ≤ k) {k : Nat} {a : Attach α}
    (ha : as[k]? = some a) :
    (inserted root as)[k + 1]? = some { a.node with vecpos := a.idx as } := by
  have hlt : k + 1 < (indices as).length := by
    rw [length_indices]
    exact Nat.succ_lt_succ (List.getElem?_eq_some_iff.mp ha).1
  have hidx : (indices as)[k + 1]? = some (a.idx as) := by
    rw [← indexOf_succ hparent ha, indexOf, List.getD_eq_getElem?_getD,
      List.getElem?_eq_getElem hlt, Option.getD_some]
  exact List.getElem?_zipWith_eq_some.mpr ⟨a.node.data, a.idx as, by simp [ha], hidx, rfl⟩

theorem inserted_prefix (root : VecNode α) (as bs : List (Attach α)) :
    inserted root as <+: inserted root (as ++ bs) := by
  induction bs using List.reverseRecOn with
  | nil => simp
  | append_singleton bs b ih =>
    rw [← List.append_assoc, inserted_snoc]
    exact ih.trans (List.prefix_append _ _)

theorem attach_inserted {root : VecNode α} {as : List (Attach α)} {a : Attach α}
    (hparent : a.parent ≤ as.length) (hindex : ∀ i ∈ a.parentIdx, i = indexOf as a.parent) :
    attach ⟨inserted root as⟩ a = .ok ⟨inserted root (as ++ [a])⟩ := by
  rw [inserted_snoc]
  unfold attach
  cases hby : a.parentIdx with
  | some i =>
    obtain rfl := hindex i hby
    rfl
  | none =>
    -- the pointer's node has its index as its `vecpos`
    have hlt : a.parent < (inserted root as).length := by
      rw [length_inserted]
      omega
    have hget := List.getElem?_eq_getElem hlt
    have hvec := (vecpos_of_inserted hget).2
    have hnode : getAtIdx ⟨inserted root as⟩ a.parent = .ok (inserted root as)[a.parent] :=
      getAtIdx_eq_iff.mpr hget
    simp only [insertAt, hnode, ok_bind, pure_ok, hvec, Attach.idx]

theorem Valid.left {as bs : List (Attach α)} (h : Valid (as ++ bs)) : Valid as := by
  have hold : ∀ (k : Nat) (a : Attach α), as[k]? = some a → (as ++ bs)[k]? = some a := by
    intro k a ha
    rw [List.getElem?_append_left (List.getElem?_eq_some_iff.mp ha).1, ha]
  refine ⟨?_, fun k a ha => h.parent k a (hold k a ha), fun k a ha i hi => ?_,
    fun j k a b ha hb => h.unused j k a b (hold j a ha) (hold k b hb)⟩
  · have := h.room
    rw [List.length_append] at this
    omega
  · have hk := (List.getElem?_eq_some_iff.mp ha).1
    have hle := h.parent k a (hold k a ha)
    rw [h.index k a (hold k a ha) i hi, indexOf_append _ _ (by omega)]

/-- The calls return, with one more node each. -/
theorem history_eq {root : VecNode α} {as : List (Attach α)} (hroot : root.vecpos = 0)
    (has : Valid as) : history root as = .ok ⟨inserted root as⟩ := by
  induction as using List.reverseRecOn with
  | nil =>
    cases root
    cases hroot
    rfl
  | append_singleton as a ih =>
    have hlast : (as ++ [a])[as.length]? = some a := List.getElem?_concat_length
    have hle := has.parent _ a hlast
    rw [history_snoc, ih has.left, ok_bind]
    refine attach_inserted hle fun i hi => ?_
    rw [has.index _ a hlast i hi, indexOf_append _ _ hle]

/-! ## Where the nodes are -/

section Placed

variable {root : VecNode α} {as : List (Attach α)}

/-- If every node is found at its index, then each came at its index. -/
theorem inOrder_of_found (has : Valid as)
    (hfound : ∀ a ∈ as, (inserted root as)[a.idx as]? = some { a.node with vecpos := a.idx as }) :
    InOrder as := by
  have hcall : ∀ k, k + 1 ≤ as.length → indexOf as (k + 1) ≤ as.length ∧
      indexOf as (indexOf as (k + 1)) = indexOf as (k + 1) := by
    intro k hk
    have ha := List.getElem?_eq_getElem (show k < as.length from hk)
    have hat := vecpos_of_inserted (hfound _ (List.getElem_mem hk))
    rw [indexOf_succ has.parent ha]
    exact ⟨hat.1, hat.2.symm⟩
  have hsmall : ∀ k ≤ as.length, indexOf as k ≤ as.length := by
    intro k hk
    cases k with
    | zero => simp [indexOf_zero]
    | succ k => exact (hcall k hk).1
  intro k hk
  cases k with
  | zero => exact indexOf_zero as
  | succ k => exact indexOf_inj has hsmall (hcall k hk).1 hk (hcall k hk).2

/-- After `set_root` and any insertions at unused positions, each node is where its index says, and
    no other has been moved, exactly if the nodes have come in the order of their indexes. -/
theorem placed_iff (hroot : root.vecpos = 0) (has : Valid as) :
    ∃ t, history root as = .ok t ∧ (Placed root as t ↔ InOrder as) := by
  refine ⟨_, history_eq hroot has, fun h => ?_, fun horder => ⟨?_, ?_, ?_⟩⟩
  · exact inOrder_of_found has fun a ha => getAtIdx_eq_iff.mp (h.found a ha)
  · intro a ha
    obtain ⟨k, hk⟩ := List.mem_iff_getElem?.mp ha
    have hlt := (List.getElem?_eq_some_iff.mp hk).1
    have hidx : a.idx as = k + 1 := by
      rw [← indexOf_succ has.parent hk, horder (k + 1) hlt]
    have hnode := inserted_of_call root has.parent hk
    rw [← hidx] at hnode
    exact getAtIdx_eq_iff.mpr hnode
  · intro a ha
    obtain ⟨k, hk⟩ := List.mem_iff_getElem?.mp ha
    have hlt := (List.getElem?_eq_some_iff.mp hk).1
    have hle := has.parent k a hk
    have hroom := has.room
    have hparent := horder a.parent (by omega)
    exact getParentIdx_child (by omega) a.pos
  · intro pre post t₁ hsplit hrun
    subst hsplit
    rw [history_eq hroot has.left] at hrun
    cases hrun
    exact inserted_prefix root pre post

end Placed

/-- The left child of the root by its index, the right one by a pointer. -/
def children : List (Attach Nat) :=
  [⟨⟨1, 9⟩, 0, .left, some 0⟩, ⟨⟨2, 9⟩, 0, .right, none⟩]

theorem children_valid : Valid children := by
  refine ⟨by decide, fun k a ha => ?_, fun k a ha => ?_, fun j k a b ha hb => ?_⟩
  · rcases k with _ | _ | k <;> cases ha <;> decide
  · rcases k with _ | _ | k <;> cases ha <;> decide
  · rcases j with _ | _ | j <;> cases ha <;> rcases k with _ | _ | k <;> cases hb <;> decide

/-- The two children of the root in their order. -/
theorem placed_children : ∃ t, history ⟨0, 0⟩ children = .ok t ∧ Placed ⟨0, 0⟩ children t := by
  have hplaced : ∃ t, history ⟨0, 0⟩ children = .ok t ∧
      (Placed ⟨0, 0⟩ children t ↔ InOrder children) := placed_iff rfl children_valid
  obtain ⟨t, hrun, hiff⟩ := hplaced
  exact ⟨t, hrun, hiff.mpr (by unfold InOrder; decide)⟩

/-- Only a right child of the root. -/
def rightChild : List (Attach Nat) := [⟨⟨2, 9⟩, 0, .right, none⟩]

/-- The right child of the root first: it is at index 1, and there is nothing at its index 2. -/
theorem right_child_first :
    Valid rightChild ∧ ∃ t, history ⟨0, 0⟩ rightChild = .ok t ∧ t.nodes = [⟨0, 0⟩, ⟨2, 2⟩] ∧
      t.getAtIdx (getChildIdx 0 .right) = .error .outOfBounds ∧ ¬ Placed ⟨0, 0⟩ rightChild t := by
  refine ⟨⟨by decide, fun k a ha => ?_, fun k a ha => ?_, fun j k a b ha hb => ?_⟩,
    _, rfl, rfl, rfl, fun h => ?_⟩
  · rcases k with _ | k <;> cases ha
    decide
  · rcases k with _ | k <;> cases ha
    decide
  · rcases j with _ | j <;> cases ha
    rcases k with _ | k <;> cases hb
    decide
  · have hfound := h.found ⟨⟨2, 9⟩, 0, .right, none⟩ (List.mem_singleton_self _)
    exact nomatch hfound

end VecBinaryTree

end Monya.Structures
