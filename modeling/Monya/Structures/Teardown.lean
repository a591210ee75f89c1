/-
  `get_nnodes`, `delete_node` and the destructor of the tree classes (`structures/BinaryTree.cpp`,
  `structures/RBTree.cpp`), and the life of a `BinaryTree`.

  `RBTree` repeats the text of `BinaryTree`'s functions over its own node class; here they are
  written once, over a heap of any nodes with a `left` and a `right`. They recurse on the links of
  the nodes, so the model bounds the depth of the calls.

  A `BinaryTree` changes by `insert` and `insert_at`. Every node that has gone in is in the tree
  once (`Owned`), so the destructor deletes it once and nothing else is left: `runCalls_freed`.
-/
import Monya.Lib.Owned
import Monya.Structures.BinaryTree

namespace Monya.Structures

open Monya.Lib

section Nodes

variable {V β : Type} (left right : V → Ptr)

/-- `get_nnodes`; the count is passed by reference. -/
def getNnodes (h : Heap V) : Nat → Ptr → Nat → Except Fault Nat
  | _, none, nnodes => .ok nnodes
  | 0, some _, _ => .error .outOfFuel
  | fuel + 1, some node, nnodes => do
      let nnodes ← getNnodes h fuel (left (← h.read node)) (nnodes + 1)
      getNnodes h fuel (right (← h.read node)) nnodes

/-- `delete_node`. Its tests `if (node->left)` and `if (node->right)` are the one that the call on
    the child begins with. -/
def deleteNode : Nat → Ptr → Heap V → Except Fault (Heap V)
  | _, none, h => .ok h
  | 0, some _, _ => .error .outOfFuel
  | fuel + 1, some node, h => do
      let h ← deleteNode fuel (left (← h.read node)) h
      let h ← deleteNode fuel (right (← h.read node)) h
      h.delete node

variable {left right} {h : Heap V} {t : BTree β}

theorem getNnodes_returns (ht : Spans left right h t) (n : Nat) :
    Returns (fun fuel => getNnodes left right h fuel t.root n) (n + t.size) := by
  induction t generalizing n with
  | nil => exact ⟨0, fun fuel _ => by cases fuel <;> rfl⟩
  | node a v l r ihl ihr =>
    obtain ⟨⟨w, hw, hl, hr⟩, htl, htr⟩ := ht
    obtain ⟨N, hN⟩ := ihl htl (n + 1)
    obtain ⟨N', hN'⟩ := ihr htr (n + 1 + l.size)
    refine ⟨max N N' + 1, fun fuel hf => ?_⟩
    obtain ⟨k, rfl⟩ : ∃ k, fuel = k + 1 := ⟨fuel - 1, by omega⟩
    have hsize : n + (BTree.node a v l r).size = n + 1 + l.size + r.size := by
      simp only [BTree.size, BTree.inorder_node, List.length_append, List.length_cons]
      omega
    have hleft := hN k (by omega)
    have hright := hN' k (by omega)
    simp only at hleft hright
    simp only [BTree.root_node, getNnodes, Heap.read_ok hw, ok_bind, hl, hr, hleft, hright, hsize]

/-- The nodes of a tree are deleted, each once, and nothing else changes. -/
theorem deleteNode_returns (ht : Spans left right h t) (hnd : t.addrs.Nodup) :
    ∃ h', Returns (fun fuel => deleteNode left right fuel t.root h) h' ∧
      (∀ a, a ∉ t.addrs → h'.cell a = h.cell a) ∧ h'.live = h.live \ t.addrs.toFinset := by
  induction t generalizing h with
  | nil =>
    refine ⟨h, ⟨0, fun fuel _ => by cases fuel <;> rfl⟩, fun _ _ => rfl, ?_⟩
    rw [BTree.addrs_nil, List.toFinset_nil, Finset.sdiff_empty]
  | node a v l r ihl ihr =>
    obtain ⟨⟨w, hw, hl, hr⟩, htl, htr⟩ := ht
    rw [BTree.addrs_node, List.nodup_append', List.nodup_cons] at hnd
    obtain ⟨hndl, ⟨har, hndr⟩, hdisj⟩ := hnd
    have hal : a ∉ l.addrs := fun hm => hdisj hm List.mem_cons_self
    -- the right subtree and the node itself are untouched when the left one is gone
    obtain ⟨h₁, ⟨N, hN⟩, hkeep₁, hlive₁⟩ := ihl htl hndl
    have htr₁ : Spans left right h₁ r := htr.frame fun b hb =>
      hkeep₁ b fun hm => hdisj hm (List.mem_cons_of_mem a hb)
    have hw₁ : h₁.cell a = some w := by rw [hkeep₁ a hal, hw]
    obtain ⟨h₂, ⟨N', hN'⟩, hkeep₂, hlive₂⟩ := ihr htr₁ hndr
    have hw₂ : h₂.cell a = some w := by rw [hkeep₂ a har, hw₁]
    refine ⟨h₂.free a, ⟨max N N' + 1, fun fuel hf => ?_⟩, fun b hb => ?_, ?_⟩
    · obtain ⟨k, rfl⟩ : ∃ k, fuel = k + 1 := ⟨fuel - 1, by omega⟩
      have hleft := hN k (by omega)
      have hright := hN' k (by omega)
      simp only at hleft hright
      simp only [BTree.root_node, deleteNode, Heap.read_ok hw, ok_bind, hl, hleft,
        Heap.read_ok hw₁, hr, hright, Heap.delete_ok hw₂]
    · simp only [BTree.addrs_node, List.mem_append, List.mem_cons, not_or] at hb
      rw [h₂.free_cell_ne hb.2.1, hkeep₂ b hb.2.2, hkeep₁ b hb.1]
    · rw [Heap.live_free, hlive₂, hlive₁, BTree.addrs_node]
      ext b
      simp only [Finset.mem_erase, Finset.mem_sdiff, List.mem_toFinset, List.mem_append,
        List.mem_cons]
      tauto

end Nodes

/-- The memory holds the tree `t` and no node besides. -/
structure Owned {β : Type} (m : TreeMem β) (t : BTree β) : Prop where
  holds : Holds m t
  live : m.heap.live = t.addrs.toFinset

namespace Owned

variable {β : Type} {m : TreeMem β} {t : BTree β}

theorem card_live (h : Owned m t) : m.heap.live.card = t.size := by
  rw [h.live, List.toFinset_card_of_nodup h.holds.nodup, BTree.length_addrs]

/-- The nodes of the tree are live, so their number tells whether there are others. -/
theorem of_card (h : Holds m t) (hc : m.heap.live.card = t.size) : Owned m t := by
  refine ⟨h, (Finset.eq_of_subset_of_card_le (fun a ha => ?_) ?_).symm⟩
  · exact Heap.mem_live.mpr (h.cell_of_mem (List.mem_toFinset.mp ha))
  · rw [hc, List.toFinset_card_of_nodup h.nodup, BTree.length_addrs]

theorem getNnodes (h : Owned m t) :
    Returns (fun fuel => Structures.getNnodes Cell.left Cell.right m.heap fuel m.root 0)
      m.heap.live.card := by
  have hret := getNnodes_returns h.holds.linked.spans 0
  rwa [Nat.zero_add, ← h.card_live, ← h.holds.root_eq] at hret

theorem deleteNode (h : Owned m t) :
    ∃ h', Returns (fun fuel => Structures.deleteNode Cell.left Cell.right fuel m.root m.heap) h' ∧
      ∀ a, h'.cell a = none := by
  obtain ⟨h', hret, -, hlive⟩ := deleteNode_returns h.holds.linked.spans h.holds.nodup
  rw [← h.holds.root_eq] at hret
  refine ⟨h', hret, Heap.live_eq_empty.mp ?_⟩
  rw [hlive, h.live, Finset.sdiff_self]

/-- A new node is not in the tree yet. -/
theorem alloc (h : Owned m t) (d : Cell β) :
    Holds (⟨m.heap.alloc d, m.root⟩ : TreeMem β) t ∧ m.heap.brk ∉ t.addrs := by
  have hbrk : ∀ a ∈ t.addrs, a ≠ m.heap.brk := fun a ha he => by
    obtain ⟨c, hc⟩ := h.holds.cell_of_mem ha
    exact absurd (m.heap.lt_brk hc) (by omega)
  exact ⟨⟨h.holds.linked.frame fun a ha => m.heap.alloc_cell_ne d (hbrk a ha), h.holds.nodup,
    h.holds.root_eq⟩, fun hm => hbrk _ hm rfl⟩

/-- A tree that has the new node besides the old ones owns all the memory again. -/
theorem grow {m' : TreeMem β} {t' : BTree β} {d : Cell β} (h : Owned m t) (hh : Holds m' t')
    (hs : TreeMem.SameSpace ⟨m.heap.alloc d, m.root⟩ m')
    (hp : t'.addrs.Perm (m.heap.brk :: t.addrs)) : Owned m' t' := by
  refine ⟨hh, ?_⟩
  rw [hs.live, Heap.live_alloc, h.live, List.toFinset_eq_of_perm _ _ hp, List.toFinset_cons]

end Owned

theorem addrs_plug_leaf {β : Type} (n : Nat) (c : List (Frame β)) (v : β) :
    (plug c (.node n v .nil .nil)).addrs.Perm (n :: (plug c .nil).addrs) := by
  refine (addrs_plug_perm c _).trans (List.Perm.trans ?_ ((addrs_plug_perm c .nil).symm.cons n))
  simp

theorem owned_empty {β : Type} : Owned (TreeMem.empty : TreeMem β) .nil :=
  ⟨⟨trivial, List.nodup_nil, rfl⟩, Heap.live_empty⟩

namespace BinaryTree

variable {α β : Type}

/-- `get_nnodes(root, nnodes)` with a count of 0. -/
def getNnodes (fuel : Nat) (m : BinaryTree β) : Except Fault Nat :=
  Structures.getNnodes Cell.left Cell.right m.heap fuel m.root 0

/-- `~BinaryTree`; the result is the memory that is left. -/
def destroy (fuel : Nat) (m : BinaryTree β) : Except Fault (Heap (Cell β)) :=
  Structures.deleteNode Cell.left Cell.right fuel m.root m.heap

/-- A call with a new node, whose fields hold anything. -/
inductive Call (β : Type) where
  | insert (newNode : Cell β)
  | insertAt (newNode : Cell β) (node : Nat) (pos : Side)

section Source

variable [LinearOrder α] (comparator : β → α)

/-- `insert`, or `insert_at` by a caller that catches the exception and deletes the node it still
    has. -/
def Call.exec (fuel : Nat) : Call β → BinaryTree β → Except Fault (BinaryTree β)
  | .insert newNode, m =>
      BinaryTree.insert comparator fuel m.heap.brk ⟨m.heap.alloc newNode, m.root⟩
  | .insertAt newNode node pos, m =>
      match BinaryTree.insertAt m.heap.brk node pos ⟨m.heap.alloc newNode, m.root⟩ with
      | .error (.thrown _) => do
          return ⟨← (m.heap.alloc newNode).delete m.heap.brk, m.root⟩
      | r => r

def runCalls (fuel : Nat) (calls : List (Call β)) (m : BinaryTree β) :
    Except Fault (BinaryTree β) :=
  calls.foldlM (fun m call => call.exec comparator fuel m) m

/-! ## The tree that a history of calls is to give -/

/-- `leaf` where the comparisons lead to. -/
def sprout (k : α) (leaf : BTree β) : BTree β → BTree β
  | .nil => leaf
  | .node a v l r =>
      if k < comparator v then .node a v (sprout k leaf l) r else .node a v l (sprout k leaf r)

/-- `leaf`, if there is nothing yet. -/
def orLeaf (leaf : BTree β) : BTree β → BTree β
  | .nil => leaf
  | t => t

/-- `leaf` below the node at `a`, if there is room at that side. -/
def attach (a : Nat) (pos : Side) (leaf : BTree β) : BTree β → BTree β
  | .nil => .nil
  | .node b v l r =>
      if b = a then
        match pos with
        | .left => .node b v (orLeaf leaf l) r
        | .right => .node b v l (orLeaf leaf r)
      else .node b v (attach a pos leaf l) (attach a pos leaf r)

/-- What a call with the `n`-th node does to the tree. -/
def Call.apply (t : BTree β) (n : Nat) : Call β → BTree β
  | .insert d => sprout comparator (comparator d.val) (.node n d.val .nil .nil) t
  | .insertAt d node pos => attach node pos (.node n d.val .nil .nil) t

/-- The tree after a history of calls. Every call takes a new address. -/
def grown (calls : List (Call β)) : BTree β :=
  calls.zipIdx.foldl (fun t c => c.1.apply comparator t c.2) .nil

/-- `insert_at` is only called below a node that is in the tree. -/
def Placed (calls : List (Call β)) : Prop :=
  ∀ pre d node pos post, calls = pre ++ .insertAt d node pos :: post →
    node ∈ (grown comparator pre).addrs

end Source

section Shape

variable {a b : Nat} {pos : Side} {leaf t : BTree β}

theorem sprout_eq_plug [LinearOrder α] (comparator : β → α) (k : α) (c : List (Frame β)) :
    plug c (sprout comparator k leaf t) = plug (path (goInsert comparator k) t c) leaf := by
  induction t generalizing c with
  | nil => rfl
  | node a v l r ihl ihr =>
    unfold sprout path goInsert
    by_cases hk : k < comparator v
    · rw [if_pos hk, if_pos hk]
      exact ihl (⟨.left, a, v, r⟩ :: c)
    · rw [if_neg hk, if_neg hk]
      exact ihr (⟨.right, a, v, l⟩ :: c)

theorem attach_of_notMem (h : a ∉ t.addrs) : attach a pos leaf t = t := by
  induction t with
  | nil => rfl
  | node b v l r ihl ihr =>
    simp only [BTree.addrs_node, List.mem_append, List.mem_cons, not_or] at h
    simp only [attach, if_neg (Ne.symm h.2.1), ihl h.1, ihr h.2.2]

theorem attach_plug {c : List (Frame β)} (h : a ∉ ctxAddrs c) :
    attach a pos leaf (plug c t) = plug c (attach a pos leaf t) := by
  induction c generalizing t with
  | nil => rfl
  | cons f c ih =>
    obtain ⟨s, b, v, sib⟩ := f
    simp only [ctxAddrs_cons, List.cons_append, List.mem_cons, List.mem_append, not_or] at h
    rw [plug_cons, ih h.2.2, plug_cons]
    congr 1
    cases s <;> simp only [Frame.fill, BTree.join, attach, if_neg (Ne.symm h.1),
      attach_of_notMem h.2.1]

/-- At the node itself: a free side gets the leaf, and otherwise nothing changes. -/
theorem attach_join (v : β) (x y : BTree β) :
    attach a pos leaf (.join pos a v x y) = .join pos a v (orLeaf leaf x) y := by
  cases pos <;> simp [BTree.join, attach]

end Shape

/-! ## One call -/

section Calls

variable {m : BinaryTree β} {t : BTree β} {n : Nat} {d : Cell β}

theorem ensures_linkNode [LinearOrder α] (comparator : β → α) (p : Ptr) (n : Nat) :
    Ensures (linkNode comparator p n m) (TreeMem.SameSpace m) := by
  have h : TreeMem.SameSpace m m := .refl m
  cases p with
  | none =>
    have h₀ : TreeMem.SameSpace m (m.setRoot (some n)) := ⟨rfl, rfl⟩
    exact h₀.store fun _ h => h.store fun _ h => h.last
  | some p =>
    refine h.store fun _ h => h.store fun _ h => h.store fun _ h => .skip fun _ => .skip fun _ => ?_
    split
    · exact h.last
    · exact h.last

/-- `insert_at` at a free side of a node of the tree. -/
theorem insertAt_free {f : Frame β} {c : List (Frame β)} (h : Holds m (plug (f :: c) .nil))
    (hn : n ∉ ctxAddrs (f :: c)) (hd : m.cell n = some d) :
    ∃ m', insertAt n f.a f.side m = .ok m' ∧ Holds m' (plug (f :: c) (.node n d.val .nil .nil)) ∧
      TreeMem.SameSpace m m' := by
  have hfn : f.a ≠ n := fun he => hn (by simp [he])
  have hchild : m.child f.side f.a = .ok none := by
    rw [TreeMem.child_ok h.frame_cell]
    simp [Frame.cell]
  set m₁ := m.upd n (·.setParent (some f.a)) with hm₁
  set m₂ := m₁.upd n (·.setChild .right none) with hm₂
  set m₃ := m₂.upd n (·.setChild .left none) with hm₃
  have h₁ : m₁.cell n = _ := TreeMem.upd_cell hd _
  have h₂ : m₂.cell n = _ := TreeMem.upd_cell h₁ _
  have h₃ : m₃.cell n = some ⟨some f.a, none, none, d.val⟩ := TreeMem.upd_cell h₂ _
  have hne : ∀ a, a ≠ n → m₃.cell a = m.cell a := by
    intro a ha
    simp only [hm₃, hm₂, hm₁, TreeMem.upd_cell_ne _ _ ha]
  have hf : m₃.cell f.a = _ := (hne f.a hfn).trans h.frame_cell
  refine ⟨hung (f :: c) (some n) m₃, ?_, holds_leaf h.ctx (List.nodup_cons.mpr ⟨hn, h.ctx_nodup⟩)
    (fun _ => h.root_eq) h₃ hne rfl, ?_⟩
  · simp only [insertAt, hchild, ok_bind, ne_eq, not_true, if_false, TreeMem.setParent_ok hd,
      TreeMem.setChild_ok h₁, TreeMem.setChild_ok h₂, ← hm₁, ← hm₂, ← hm₃, TreeMem.setChild_ok hf,
      hung]
  · exact ⟨rfl, by simp only [hung, hm₃, hm₂, hm₁, TreeMem.upd, Heap.live_update]⟩

/-- `insert_at` at a side with a child throws, before it has written anything. -/
theorem insertAt_populated {c : List (Frame β)} {a b : Nat} {pos : Side} {v w : β}
    {l r y : BTree β} (h : Holds m (plug c (.join pos a v (.node b w l r) y))) :
    insertAt n a pos m = .error (.thrown (populated pos)) := by
  have hcell := (linked_join.mp h.focus).1
  have hchild : m.child pos a = .ok (some b) := by
    rw [TreeMem.child_ok hcell, Cell.mkAt_child]
    rfl
  simp only [insertAt, hchild, ok_bind, ne_eq, reduceCtorEq, not_false_eq_true, if_true]

variable [LinearOrder α] {comparator : β → α} {calls : List (Call β)}

/-- `insert` of a new node. -/
theorem insert_owned (h : Owned m t) (d : Cell β) :
    ∃ m', Returns (fun fuel => (Call.insert d).exec comparator fuel m) m' ∧
      Owned m' ((Call.insert d).apply comparator t m.heap.brk) ∧ m'.heap.brk = m.heap.brk + 1 := by
  obtain ⟨h₀, hn⟩ := h.alloc d
  obtain ⟨m', hret, hh, -⟩ := insert_returns comparator h₀ hn (m.heap.alloc_cell_self d)
  obtain ⟨N, hN⟩ := hret
  have hs : TreeMem.SameSpace ⟨m.heap.alloc d, m.root⟩ m' :=
    Ensures.skip (fun _ => .skip fun _ => ensures_linkNode comparator _ _) m' (hN N le_rfl)
  have happly : (Call.insert d).apply comparator t m.heap.brk =
      plug (path (goInsert comparator (comparator d.val)) t [])
        (.node m.heap.brk d.val .nil .nil) :=
    sprout_eq_plug (t := t) comparator (comparator d.val) []
  refine ⟨m', ⟨N, hN⟩, ?_, hs.brk⟩
  rw [happly]
  refine h.grow hh hs ?_
  have hp := addrs_plug_leaf m.heap.brk (path (goInsert comparator (comparator d.val)) t []) d.val
  rwa [plug_path, plug_nil] at hp

/-- `insert_at` below a node of the tree. -/
theorem insertAt_owned (h : Owned m t) (d : Cell β) {node : Nat} (hnode : node ∈ t.addrs)
    (pos : Side) :
    ∃ m', Returns (fun fuel => (Call.insertAt d node pos).exec comparator fuel m) m' ∧
      Owned m' ((Call.insertAt d node pos).apply comparator t m.heap.brk) ∧
      m'.heap.brk = m.heap.brk + 1 := by
  obtain ⟨h₀, hn⟩ := h.alloc d
  obtain ⟨c, v, l, r, rfl⟩ := exists_plug_of_mem hnode
  obtain ⟨x, y, hxy⟩ := BTree.exists_join pos node v l r
  rw [hxy] at h h₀ hn ⊢
  have hctx : node ∉ ctxAddrs c := fun hm =>
    h.holds.disjoint hm (BTree.mem_addrs_join.mpr (Or.inl rfl))
  have happly : (Call.insertAt d node pos).apply comparator (plug c (.join pos node v x y))
      m.heap.brk = plug c (.join pos node v (orLeaf (.node m.heap.brk d.val .nil .nil) x) y) := by
    rw [Call.apply, attach_plug hctx, attach_join]
  rw [happly]
  cases x with
  | nil =>
    have hn' : m.heap.brk ∉ (plug (⟨pos, node, v, y⟩ :: c) .nil).addrs := hn
    obtain ⟨m', hm', hh, hs⟩ := insertAt_free (f := ⟨pos, node, v, y⟩) h₀
      (fun hm => hn' (mem_addrs_plug.mpr (Or.inl hm))) (m.heap.alloc_cell_self d)
    refine ⟨m', ⟨0, fun _ _ => ?_⟩, h.grow hh hs ?_, hs.brk⟩
    · simp only [Call.exec, hm']
    · exact addrs_plug_leaf m.heap.brk (⟨pos, node, v, y⟩ :: c) d.val
  | node b w l' r' =>
    have hthrow := insertAt_populated (n := m.heap.brk) h₀
    refine ⟨⟨(m.heap.alloc d).free m.heap.brk, m.root⟩, ⟨0, fun _ _ => ?_⟩, ⟨⟨?_, h.holds.nodup,
      h.holds.root_eq⟩, ?_⟩, rfl⟩
    · simp only [Call.exec, hthrow, Heap.delete_ok (m.heap.alloc_cell_self d), ok_bind, pure_ok]
    · refine h₀.linked.frame fun a ha => ?_
      exact (m.heap.alloc d).free_cell_ne fun he => hn (he ▸ ha)
    · change ((m.heap.alloc d).free m.heap.brk).live = _
      rw [Heap.live_free, Heap.live_alloc, Finset.erase_insert m.heap.brk_notMem_live]
      exact h.live

/-! ## Histories of calls -/

theorem grown_concat (comparator : β → α) (pre : List (Call β)) (call : Call β) :
    grown comparator (pre ++ [call]) =
      call.apply comparator (grown comparator pre) pre.length := by
  simp [grown, List.zipIdx_append, List.foldl_append]

theorem runCalls_returns (hp : Placed comparator calls) :
    ∃ m, Returns (fun fuel => runCalls comparator fuel calls TreeMem.empty) m ∧
      Owned m (grown comparator calls) := by
  obtain ⟨m, hret, ho, -⟩ := foldlM_returns
    (fun fuel (call : Call β) m => call.exec comparator fuel m) calls
    (fun pre m => Owned m (grown comparator pre) ∧ m.heap.brk = pre.length)
    (by
      rintro pre call post m rfl ⟨ho, hbrk⟩
      obtain ⟨m', hret, ho', hbrk'⟩ : ∃ m', Returns (fun fuel => call.exec comparator fuel m) m' ∧
          Owned m' (call.apply comparator (grown comparator pre) m.heap.brk) ∧
          m'.heap.brk = m.heap.brk + 1 := by
        cases call with
        | insert d => exact insert_owned ho d
        | insertAt d node pos => exact insertAt_owned ho d (hp pre d node pos post rfl) pos
      refine ⟨m', hret, ?_, ?_⟩
      · rw [grown_concat, ← hbrk]
        exact ho'
      · rw [hbrk', hbrk, List.length_append, List.length_singleton])
    ⟨owned_empty, rfl⟩
  exact ⟨m, hret, ho⟩

/-- Any history of `insert` and `insert_at` calls, each `insert_at` below a node of the tree, leaves
    the tree of that history in memory: `insert` follows the comparisons, `insert_at` fills a free
    side and otherwise throws and changes nothing. `get_nnodes` counts its nodes, and the destructor
    deletes each of them once and leaves nothing allocated. -/
theorem runCalls_freed (comparator : β → α) (calls : List (Call β)) (hp : Placed comparator calls) :
    ∃ m h, Returns (fun fuel => runCalls comparator fuel calls TreeMem.empty) m ∧
      Holds m (grown comparator calls) ∧
      Returns (fun fuel => getNnodes fuel m) (grown comparator calls).size ∧
      Returns (fun fuel => destroy fuel m) h ∧ ∀ a, h.cell a = none := by
  obtain ⟨m, hret, ho⟩ := runCalls_returns hp
  obtain ⟨h, hdel, hnone⟩ := ho.deleteNode
  exact ⟨m, h, hret, ho.holds, ho.card_live ▸ ho.getNnodes, hdel, hnone⟩

end Calls

/-- A root, a node at each of its sides, and a second one at its left that finds no room. -/
theorem runCalls_freed_three : ∃ m h, Returns (fun fuel => runCalls id fuel
      [.insert ⟨none, some 7, none, 5⟩, .insertAt ⟨none, none, none, 8⟩ 0 .left,
        .insert ⟨some 3, none, none, 6⟩, .insertAt ⟨none, none, none, 1⟩ 0 .left] TreeMem.empty) m ∧
      Returns (fun fuel => getNnodes fuel m) 3 ∧ Returns (fun fuel => destroy fuel m) h ∧
      ∀ a, h.cell a = none := by
  obtain ⟨m, h, hret, -, hn, hdel, hnone⟩ := runCalls_freed id
    [.insert ⟨none, some 7, none, 5⟩, .insertAt ⟨none, none, none, 8⟩ 0 .left,
      .insert ⟨some 3, none, none, 6⟩, .insertAt ⟨none, none, none, 1⟩ 0 .left]
    fun pre d node pos post h => by
    rcases pre with _ | ⟨a, _ | ⟨b, _ | ⟨c, _ | ⟨e, pre⟩⟩⟩⟩ <;> simp at h
    · obtain ⟨rfl, ⟨rfl, rfl, rfl⟩, -⟩ := h
      decide
    · obtain ⟨rfl, rfl, rfl, ⟨rfl, rfl, rfl⟩, -⟩ := h
      decide
  exact ⟨m, h, hret, hn, hdel, hnone⟩

end BinaryTree

end Monya.Structures
