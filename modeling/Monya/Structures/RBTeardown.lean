/-
  The life of an `RBTree` (`structures/RBTree.cpp`): `insert` and `_delete` calls, then the
  destructor.

  `_delete` is the only member function that frees memory before the destructor. It deletes the node
  it has taken out of the tree and, in its rotations and recolourings, only stores to other nodes
  (`ensures_delete`). So after calls of which every `_delete` meets `DeleteSafe` (`SafeCalls`) the
  tree owns all its memory, and the destructor leaves nothing (`safe_run_freed`).
-/
import Monya.Structures.RBDelete
import Monya.Structures.Teardown

namespace Monya.Structures

open Monya.Lib

namespace RBTree

variable {α : Type}

/-- `get_nnodes(root, nnodes)` with a count of 0. -/
def getNnodes (fuel : Nat) (m : RBTree α) : Except Fault Nat :=
  Structures.getNnodes Cell.left Cell.right m.heap fuel m.root 0

/-- `~RBTree`; the result is the memory that is left. -/
def destroy (fuel : Nat) (m : RBTree α) : Except Fault (Heap (Cell (RBVal α))) :=
  Structures.deleteNode Cell.left Cell.right fuel m.root m.heap

/-! ## The functions of `_delete` only store -/

section Stores

open TreeMem

variable {m m' : RBTree α}

theorem ensures_hang (h : SameSpace m m') (x : Nat) (y : Ptr) :
    Ensures (hang x y m') (SameSpace m) := by
  refine .skip fun p => ?_
  cases p with
  | none => exact .ok ⟨h.brk, h.live⟩
  | some p =>
    refine .skip fun c => ?_
    exact .ite h.last h.last

theorem ensures_rotate (h : SameSpace m m') (s : Side) (x : Nat) :
    Ensures (rotate s x m') (SameSpace m) := by
  refine .skip fun _ => .skip fun y => .skip fun b => h.store fun m₁ h => ?_
  cases b with
  | none =>
    refine (Ensures.ok h).bind fun _ h => .skip fun _ => h.store fun _ h => h.store fun _ h => ?_
    exact (ensures_hang h _ _).bind fun _ h => h.last
  | some b =>
    refine h.store fun _ h => .skip fun _ => h.store fun _ h => h.store fun _ h => ?_
    exact (ensures_hang h _ _).bind fun _ h => h.last

theorem ensures_rotateAt (h : SameSpace m m') (s : Side) (x : Nat) :
    Ensures (rotateAt s x m') (SameSpace m) := by
  rw [rotateAt_eq]
  exact ensures_rotate h s x

theorem ensures_transplant (h : SameSpace m m') (dest : Nat) (src : Ptr) :
    Ensures (transplant dest src m') (SameSpace m) := by
  refine (ensures_hang h _ _).bind fun m₁ h => ?_
  cases src with
  | none => exact .ok h
  | some a => exact .skip fun _ => h.last

theorem ensures_detachSuccessor (h : SameSpace m m') (node old : Nat) :
    Ensures (detachSuccessor node old m') (SameSpace m) :=
  .skip fun _ => (ensures_transplant h _ _).bind fun _ h =>
    .skip fun _ => h.store fun _ h => .skip fun _ => .skip fun _ => h.last

theorem ensures_takePlace (h : SameSpace m m') (node old : Nat) :
    Ensures (takePlace node old m') (SameSpace m) :=
  (ensures_transplant h _ _).bind fun _ h => .skip fun _ => h.store fun _ h =>
    .skip fun _ => .skip fun _ => h.store fun _ h => .skip fun _ => h.last

theorem ensures_unlink (fuel node : Nat) (m : RBTree α) :
    Ensures (unlink fuel node m) fun r => SameSpace m r.2.2 := by
  have h : SameSpace m m := .refl m
  refine .skip fun l => .skip fun r => ?_
  rcases l with _ | l
  · exact (ensures_transplant h _ _).bind fun _ h => .ok h
  rcases r with _ | r
  · exact (ensures_transplant h _ _).bind fun _ h => .ok h
  refine .skip fun old => .skip fun original => .skip fun sub => .skip fun p => ?_
  split
  · refine .skip fun _ => h.store fun _ h => ?_
    exact (ensures_takePlace h _ _).bind fun _ h => .ok h
  · refine (ensures_detachSuccessor h _ _).bind fun _ h => ?_
    exact (ensures_takePlace h _ _).bind fun _ h => .ok h

theorem ensures_deleteStep (h : SameSpace m m') (old : Ptr) :
    Ensures (deleteStep (old, m')) (Pass.All (fun s => SameSpace m s.2) (SameSpace m)) := by
  have hrot : ∀ {m₁ : RBTree α} (s : Side) (x : Nat), SameSpace m m₁ →
      Ensures (rotateAt s x m₁) (SameSpace m) := fun s x h => ensures_rotateAt h s x
  simp only [deleteStep, pure_bind]
  repeat' first
    | exact Ensures.ok (by assumption)
    | refine SameSpace.store (by assumption) fun _ _ => ?_
    | refine (hrot _ _ (by assumption)).bind fun _ _ => ?_
    | refine Ensures.skip fun _ => ?_
    | refine Ensures.ite ?_ ?_

/-- `_delete` changes nothing, or it deletes one node. -/
theorem ensures_delete [LinearOrder α] (fuel : Nat) (shell : α) (m : RBTree α) :
    Ensures (delete fuel shell m) fun m' =>
      m' = m ∨ ∃ node ∈ m.heap.live, m'.heap.live = m.heap.live.erase node := by
  refine .skip fun p => ?_
  cases p with
  | none => exact .ok (Or.inl rfl)
  | some node =>
    refine Ensures.bind (P := fun _ => node ∈ m.heap.live) (fun k hk => ?_) fun k hnode => ?_
    · obtain ⟨v, hv, -⟩ := bind_ok hk
      obtain ⟨c, hc, -⟩ := bind_ok hv
      exact Heap.mem_live.mpr ⟨c, Heap.cell_of_read hc⟩
    refine .ite (.ok (Or.inl rfl)) ((ensures_unlink fuel node m).bind fun r hr => ?_)
    obtain ⟨original, old, m₁⟩ := r
    have hfree : (m₁.heap.free node).live = m.heap.live.erase node := by
      rw [Heap.live_free]
      exact congrArg (Finset.erase · node) hr.live
    refine .ite ?_ (.ok (Or.inr ⟨node, hnode, hfree⟩))
    have hloop : Ensures (loop deleteStep fuel (old, { m₁ with heap := m₁.heap.free node }))
        (SameSpace { m₁ with heap := m₁.heap.free node }) :=
      Ensures.loop (I := fun s => SameSpace { m₁ with heap := m₁.heap.free node } s.2)
        (fun s hs => ensures_deleteStep hs s.1) (.refl _) fuel
    exact fun m' hm' => Or.inr ⟨node, hnode, (hloop m' hm').live.trans hfree⟩

end Stores

/-! ## Runs -/

section Runs

variable [LinearOrder α] {m : RBTree α} {t : BTree (RBVal α)} {calls : List (Call α)}

theorem insert_owned (ho : Owned m t) (hv : Valid m t) (d : Cell (RBVal α)) :
    ∃ m' t', Returns (fun fuel => (Call.insert d).exec fuel m) m' ∧ Valid m' t' ∧ Owned m' t' := by
  obtain ⟨m', t', hret, hv'⟩ := hv.insert d
  obtain ⟨h₀, hn⟩ := ho.alloc d
  obtain ⟨m₂, t₂, hret₂, hh₂, -, hs, hkeys⟩ := insert_returns h₀ hv.redBlack hn
    (m.heap.alloc_cell_self d)
  cases hret.unique hret₂
  cases hv'.holds.unique hh₂
  refine ⟨m', t', hret, hv', .of_card hh₂ ?_⟩
  have hsize : t'.addrs.length = t.addrs.length + 1 := by
    have haddrs := congrArg (List.map Prod.fst) hkeys
    rw [keys, keys, keyed_fst, keyed_fst] at haddrs
    rw [haddrs, (addrs_plug_leaf _ _ _).length_eq, List.length_cons, insertPath, plug_path,
      plug_nil]
  rw [hs.live, ← BTree.length_addrs, hsize, BTree.length_addrs, ← ho.card_live]
  exact Heap.card_live_alloc _ _

theorem delete_owned (ho : Owned m t) (hv : Valid m t) {shell : α} (hsafe : DeleteSafe shell t) :
    ∃ m' t', Returns (fun fuel => (Call.delete shell).exec fuel m) m' ∧ Valid m' t' ∧
      Owned m' t' := by
  obtain ⟨m', t', hret, hv', hd⟩ := delete_returns hv hsafe
  obtain ⟨N, hN⟩ := hret
  refine ⟨m', t', ⟨N, hN⟩, hv', ?_⟩
  by_cases hmem : ∃ x ∈ keys t, x.2 = shell
  · obtain ⟨a, pre, post, hk, hk'⟩ := hd.present hmem
    have hsize : t.addrs.length = t'.addrs.length + 1 := by
      rw [← keyed_fst RBVal.comparator t, ← keyed_fst RBVal.comparator t']
      change ((keys t).map Prod.fst).length = ((keys t').map Prod.fst).length + 1
      rw [hk, hk']
      simp only [List.length_map, List.length_append, List.length_cons]
      omega
    rcases ensures_delete N shell m m' (hN N le_rfl) with rfl | ⟨node, hnode, hlive⟩
    · -- the tree has lost a node, so the memory has changed
      cases hv'.holds.unique hv.holds
      omega
    · refine .of_card hv'.holds ?_
      rw [hlive, Finset.card_erase_of_mem hnode, ho.card_live, ← BTree.length_addrs, hsize,
        BTree.length_addrs]
      rfl
  · obtain ⟨rfl, rfl⟩ := hd.absent fun x hx he => hmem ⟨x, hx, he⟩
    exact ho

/-- In a run of `insert` and `_delete` calls from the empty tree whose `_delete`s all meet
    `DeleteSafe`, no call reads or deletes a node that has been deleted; at its end `get_nnodes`
    counts the nodes of the tree, which are all that is allocated, and the destructor deletes each
    of them once and leaves nothing. -/
theorem safe_run_freed (calls : List (Call α)) (hsafe : SafeCalls calls) :
    ∃ m t h, Returns (fun fuel => runCalls fuel calls TreeMem.empty) m ∧ Valid m t ∧
      m.heap.live = t.addrs.toFinset ∧ Returns (fun fuel => getNnodes fuel m) t.size ∧
      Returns (fun fuel => destroy fuel m) h ∧ ∀ a, h.cell a = none := by
  obtain ⟨m, _, hret, t, hv, ho⟩ := foldlM_returns Call.exec calls
    (fun pre m => Returns (fun fuel => runCalls fuel pre TreeMem.empty) m ∧
      ∃ t, Valid m t ∧ Owned m t)
    (by
      rintro pre call post m rfl ⟨hret, t, hv, ho⟩
      obtain ⟨m', t', hret', hv', ho'⟩ : ∃ m' t', Returns (fun fuel => call.exec fuel m) m' ∧
          Valid m' t' ∧ Owned m' t' := by
        cases call with
        | insert d => exact insert_owned ho hv d
        | delete shell => exact delete_owned ho hv (hsafe pre shell post m t rfl hret hv.holds)
      exact ⟨m', hret', runCalls_snoc hret hret', t', hv', ho'⟩)
    ⟨.pure _, .nil, valid_empty, owned_empty⟩
  obtain ⟨h, hdel, hnone⟩ := ho.deleteNode
  exact ⟨m, t, h, hret, hv, ho.live, ho.card_live ▸ ho.getNnodes, hdel, hnone⟩

/-- A node with two children goes out, its red successor takes its place, and the other three nodes
    are left to the destructor. -/
theorem safe_run_freed_four :
    ∃ m t h, Returns (fun fuel => runCalls fuel (fourCalls ++ [.delete 2]) TreeMem.empty) m ∧
      Valid m t ∧ m.heap.live = t.addrs.toFinset ∧ Returns (fun fuel => getNnodes fuel m) t.size ∧
      Returns (fun fuel => destroy fuel m) h ∧ ∀ a, h.cell a = none :=
  safe_run_freed _ safeCalls_four

end Runs

end RBTree

end Monya.Structures
