/-
  `kdTreeProgram::find_neighbors` (`examples/kdtree.cpp`).

  The descent goes from the root to a leaf and leaves its path on the stack. The walk then pops a
  node at a time: a leaf's samples are offered to the query, and an inner node pushes those of its
  children that are not `completed` yet. There is no pruning, so the walk goes over the whole tree.

  `euclidean` is any function of the two vectors. The output on the way is left out, but for the
  comparator of a child that it reads through the child's pointer.
-/
import Monya.Examples.KdShape
import Monya.Structures.Query

namespace Monya.KdTree

open Monya.Lib Monya.Structures KdNode

section Model

variable {α : Type} [LinearOrder α] (env : KdEnv α) (euclidean : List α → List α → α)

/-- `kdnode::distance`. -/
def distance (s : List α) (idx : Nat) : Except Fault α := do
  let member ← env.io.getRow idx
  return euclidean s (← member.copy s.length)

/-- One pass of the descent, at `node` with `visited` above it. -/
def descendStep (h : Heap (KdNode α)) (query : ProximityQuery α) :
    Nat × List Nat → Except Fault (Pass (Nat × List Nat) (List Nat))
  | (node, visited) => do
      let visited := node :: visited
      let k ← h.read node
      let q ← query.get k.splitDim
      match if q > k.comparator then k.right else k.left with
      | none => return .done visited
      | some child => return .next (child, visited)

/-- The path from `root` to a leaf, as a stack. -/
def descend (fuel : Nat) (h : Heap (KdNode α)) (query : ProximityQuery α) (root : Nat) :
    Except Fault (List Nat) :=
  loop (descendStep h query) fuel (root, [])

structure Walk (α : Type) where
  visited : List Nat
  completed : List Nat
  query : ProximityQuery α

/-- A sample of a leaf is offered to the query. -/
def evalSample (treeId fuel : Nat) (iv : IndexVal α) (query : ProximityQuery α) :
    Except Fault (ProximityQuery α) := do
  let dist ← distance env euclidean query.qsample iv.index
  query.eval fuel iv.index dist treeId

def evalLeaf (treeId fuel : Nat) (k : KdNode α) (query : ProximityQuery α) :
    Except Fault (ProximityQuery α) :=
  k.dataIndex.items.foldlM (fun query iv => evalSample env euclidean treeId fuel iv query) query

/-- A child that has not been processed is pushed. -/
def pushChild (h : Heap (KdNode α)) (completed : List Nat) (child : Ptr) (visited : List Nat) :
    Except Fault (List Nat) :=
  match child with
  | none => .error .nullDeref
  | some a =>
      if a ∈ completed then return visited
      else do
        let _ ← h.read a
        return a :: visited

/-- One pass of the walk. -/
def walkStep (treeId : Nat) (h : Heap (KdNode α)) (fuel : Nat) (w : Walk α) :
    Except Fault (Pass (Walk α) (ProximityQuery α)) :=
  match w.visited with
  | [] => return .done w.query
  | node :: visited => do
      let k ← h.read node
      if k.hasChild then
        let visited ← pushChild h w.completed k.left visited
        let visited ← pushChild h w.completed k.right visited
        return .next ⟨visited, node :: w.completed, w.query⟩
      else
        let query ← evalLeaf env euclidean treeId fuel k w.query
        return .next ⟨visited, node :: w.completed, query⟩

def findNeighbors (treeId : Nat) (h : Heap (KdNode α)) (root : Nat) (query : ProximityQuery α)
    (fuel : Nat) : Except Fault (ProximityQuery α) := do
  let visited ← descend fuel h query root
  loop (walkStep env euclidean treeId h fuel) fuel ⟨visited, [], query⟩

end Model

/-! ## The descent -/

namespace Tree

variable {α : Type} [LinearOrder α]

/-- The path that the query `q` takes, as a stack. -/
def path (q : Nat → α) : Tree α → List Nat
  | leaf x _ => [x]
  | node x k l r => (if q k.splitDim > k.comparator then r.path q else l.path q) ++ [x]

/-- The leaf at its end. -/
def arrival (q : Nat → α) : Tree α → Nat × KdNode α
  | leaf x k => (x, k)
  | node _ k l r => if q k.splitDim > k.comparator then r.arrival q else l.arrival q

theorem head_path (q : Nat → α) (t : Tree α) : (t.path q).head? = some (t.arrival q).1 := by
  induction t with
  | leaf x k => rfl
  | node x k l r ihl ihr =>
    simp only [path, arrival]
    split
    · rw [List.head?_append, ihr]
      rfl
    · rw [List.head?_append, ihl]
      rfl

theorem arrival_mem_leaves (q : Nat → α) (t : Tree α) : (t.arrival q).2 ∈ t.leaves := by
  induction t with
  | leaf x k => exact List.mem_singleton_self k
  | node x k l r ihl ihr =>
    simp only [arrival, leaves]
    split
    · exact List.mem_append_right _ ihr
    · exact List.mem_append_left _ ihl

end Tree

section Descent

variable {α : Type} [LinearOrder α] {h : Heap (KdNode α)} {query : ProximityQuery α} {q : Nat → α}

theorem IsTree.arrival_childless {x : Nat} {t : Tree α} (ht : IsTree h x t) :
    Childless (t.arrival q).2 := by
  induction ht with
  | leaf _ hc => exact hc
  | node _ _ _ _ _ ihl ihr =>
    simp only [Tree.arrival]
    split
    · exact ihr
    · exact ihl

theorem IsTree.arrival_cell {x : Nat} {t : Tree α} (ht : IsTree h x t) :
    h.cell (t.arrival q).1 = some (t.arrival q).2 := by
  induction ht with
  | leaf hk _ => exact hk
  | node _ _ _ _ _ ihl ihr =>
    simp only [Tree.arrival]
    split
    · exact ihr
    · exact ihl

/-- The descent follows the query's values to a leaf. -/
theorem descend_from {x : Nat} {t : Tree α} (ht : IsTree h x t)
    (hq : ∀ y ∈ t.addrs, ∀ k, h.cell y = some k → query.get k.splitDim = .ok (q k.splitDim))
    (visited : List Nat) :
    Returns (fun fuel => loop (descendStep h query) fuel (x, visited)) (t.path q ++ visited) := by
  induction ht generalizing visited with
  | @leaf x k hk hc =>
    refine returns_done ?_
    simp only [descendStep]
    rw [Heap.read_ok hk, ok_bind, hq x (List.mem_singleton_self x) k hk, ok_bind, hc.1, hc.2,
      ite_self]
    rfl
  | @node x l r k tl tr hk hl hr _ _ ihl ihr =>
    have hstep : descendStep h query (x, visited) =
        .ok (.next (if q k.splitDim > k.comparator then r else l, x :: visited)) := by
      simp only [descendStep]
      rw [Heap.read_ok hk, ok_bind, hq x List.mem_cons_self k hk, ok_bind, hl, hr]
      split_ifs <;> rfl
    simp only [Tree.path]
    split_ifs at hstep ⊢
    · have := returns_next hstep (ihr (fun y hy => hq y (by simp [Tree.addrs, hy])) (x :: visited))
      rwa [List.append_assoc]
    · have := returns_next hstep (ihl (fun y hy => hq y (by simp [Tree.addrs, hy])) (x :: visited))
      rwa [List.append_assoc]

theorem descend_returns {x : Nat} {t : Tree α} (ht : IsTree h x t)
    (hq : ∀ y ∈ t.addrs, ∀ k, h.cell y = some k → query.get k.splitDim = .ok (q k.splitDim)) :
    Returns (fun fuel => descend fuel h query x) (t.path q) := by
  have h := descend_from ht hq []
  rwa [List.append_nil] at h

end Descent

/-! ## Where a training sample arrives -/

/-- Row `i` of the matrix, as a query vector. -/
def row {α : Type} (M : Nat → Nat → α) (f i : Nat) : List α := (List.range f).map (M i)

theorem get_row {α : Type} {M : Nat → Nat → α} {f i j : Nat} {query : ProximityQuery α}
    (hq : query.qsample = row M f i) (hj : j < f) : query.get j = .ok (M i j) := by
  refine Buf.get_ok ?_
  simp [Buf.ofList, hq, row, hj]

/-- The descent of sample `i` ends at the leaf that has it. -/
def Routed {α : Type} [LinearOrder α] (M : Nat → Nat → α) (f : Nat) (h : Heap (KdNode α))
    (i : Nat) : Prop :=
  ∀ query : ProximityQuery α, query.qsample = row M f i →
    ∃ x visited k, Returns (fun fuel => descend fuel h query 0) (x :: visited) ∧
      h.cell x = some k ∧ k.hasChild = false ∧ i ∈ k.ids

section Routing

variable {α : Type} [LinearOrder α] {M : Nat → Nat → α} {n f D splitDim : Nat}
  {h : Heap (KdNode α)}

/-- What `Routed` says about the tree. -/
theorem Built.routed_iff (b : Built M n f D splitDim h) {t : Tree α} (ht : IsTree h 0 t) (i : Nat) :
    Routed M f h i ↔ i ∈ (t.arrival (M i)).2.ids := by
  have hret : ∀ query : ProximityQuery α, query.qsample = row M f i →
      Returns (fun fuel => descend fuel h query 0) (t.path (M i)) := fun query hq =>
    descend_returns ht fun y _ k hk => get_row hq (b.heapOk.node y k hk).dim
  obtain ⟨visited, hpath⟩ := List.head?_eq_some_iff.mp (Tree.head_path (M i) t)
  constructor
  · intro hr
    obtain ⟨x, visited', k, hret', hk, -, hi⟩ := hr ⟨0, row M f i, 0, []⟩ rfl
    have he := (hret _ rfl).unique hret'
    rw [hpath] at he
    obtain ⟨rfl, -⟩ := List.cons.inj he
    cases ht.arrival_cell.symm.trans hk
    exact hi
  · intro hi query hq
    exact ⟨_, visited, _, hpath ▸ hret query hq, ht.arrival_cell, ht.arrival_childless.hasChild, hi⟩

/-- The samples of a subtree are samples of its root. -/
theorem IsTree.arrival_ids (h₀ : HeapOk M n f D h) {x : Nat} {t : Tree α} (ht : IsTree h x t)
    {k : KdNode α} (hk : h.cell x = some k) (q : Nat → α) : (t.arrival q).2.ids ⊆ k.ids := by
  intro i hi
  refine (ht.ids_perm h₀ hk).mem_iff.mp ?_
  exact List.mem_flatMap.mpr ⟨_, Tree.arrival_mem_leaves q t, hi⟩

/-- The sample that the root's comparator is taken from goes to the right child and is sent to the
    left one. -/
theorem Built.misrouted (b : Built M n f D splitDim h) (hdim : splitDim < 2 ^ 32) (hn : 1 < n)
    (hD : 0 < D) : ∃ i < n, ¬ Routed M f h i := by
  obtain ⟨k, hk, -, hd, hs, hids⟩ := b.root.node
  have hsize : k.size = n := by rw [← length_ids, hids.length_eq, List.length_range]
  obtain ⟨t, ht⟩ := b.heapOk.exists_isTree hk
  rcases b.heapOk.links 0 k hk with hc | ⟨l, r, hp⟩
  · exact absurd ⟨by omega, by omega⟩ (b.leaf 0 k hk hc)
  obtain ⟨iv, rest, hdrop, hcmp⟩ := hp.trained.split
  have hmem : iv ∈ k.dataIndex.items := List.mem_of_mem_drop (hdrop ▸ List.mem_cons_self)
  have hright : iv.index ∈ k.ids.drop (k.size / 2) := by
    rw [KdNode.ids, IndexVector.ids, ← List.map_drop, hdrop]
    exact List.mem_cons_self
  have hval : M iv.index k.splitDim = k.comparator := by
    rw [hcmp, hp.trained.vals iv hmem, hs, sampleId_of_lt hdim]
  refine ⟨iv.index, List.mem_range.mp (hids.mem_iff.mp (List.mem_of_mem_drop hright)), ?_⟩
  rw [b.routed_iff ht]
  intro hi
  cases ht with
  | leaf hk' hc =>
    cases hk.symm.trans hk'
    cases hc.1.symm.trans hp.left
  | @node _ l' r' k' tl tr hk' hl hr htl htr =>
    obtain rfl : k' = k := Option.some.inj (hk'.symm.trans hk)
    obtain rfl : l' = l := Option.some.inj (hl.symm.trans hp.left)
    have hgo : ¬ M iv.index k'.splitDim > k'.comparator := by
      rw [hval]
      exact lt_irrefl _
    rw [Tree.arrival, if_neg hgo] at hi
    obtain ⟨c, hc, hco⟩ := hp.leftOk
    have hleft := hco.ids.mem_iff.mp (htl.arrival_ids b.heapOk hc _ hi)
    -- it cannot be on both sides
    have hnodup : k'.ids.Nodup := hids.nodup_iff.mpr List.nodup_range
    rw [← List.take_append_drop (k'.size / 2) k'.ids] at hnodup
    exact (List.nodup_append.mp hnodup).2.2 _ hleft _ hright rfl

/-- A root without children has all the samples. -/
theorem Built.routed_of_leaf (b : Built M n f D splitDim h) (hn : n = 1 ∨ D = 0) :
    ∀ i < n, Routed M f h i := by
  intro i hi
  obtain ⟨k, hk, -, hd, -, hids⟩ := b.root.node
  have hsize : k.size = n := by rw [← length_ids, hids.length_eq, List.length_range]
  obtain ⟨t, ht⟩ := b.heapOk.exists_isTree hk
  rw [b.routed_iff ht]
  cases ht with
  | leaf hk' hc =>
    cases hk.symm.trans hk'
    exact hids.mem_iff.mpr (List.mem_range.mpr hi)
  | node hk' hl hr _ _ =>
    cases hk.symm.trans hk'
    have hp := b.heapOk.parent_of_links hk hl hr
    have := hp.size
    have := hp.depth
    omega

end Routing

section Main

variable {α : Type} [LinearOrder α] [Zero α] (env : KdEnv α) {M : Nat → Nat → α}
  {n f splitDim : Nat} {colwise : Bool}

/-- Build and query route every sample alike only where there is nothing to route. -/
theorem routes_alike_iff (henv : env.io = .ofMatrix M n f colwise) (hn : 1 ≤ n) (hn' : n < 2 ^ 32)
    (hsplit : splitDim < f) (hdim : splitDim < 2 ^ 32) :
    ∃ s st, Returns (fun fuel => build env fuel 0 (init env splitDim)) (s, st) ∧
      ((∀ i < n, Routed M f st.heap i) ↔ n = 1 ∨ env.maxDepth = 0) := by
  obtain ⟨s, st, hret, hb⟩ := build_built env henv hn hn' hsplit
  refine ⟨s, st, hret, fun hall => ?_, hb.routed_of_leaf⟩
  by_contra hcond
  obtain ⟨i, hi, hnot⟩ := hb.misrouted hdim (by omega) (by omega)
  exact hnot (hall i hi)

theorem routes_alike_one :
    ∃ s st, Returns (fun fuel => build (rampEnv 1 3) fuel 0 (init (rampEnv 1 3) 0)) (s, st) ∧
      ∀ i < 1, Routed (fun i _ => i) 1 st.heap i := by
  have henv : (rampEnv 1 3).io = .ofMatrix (fun i _ => i) 1 1 false := rfl
  obtain ⟨s, st, hret, hiff⟩ := routes_alike_iff (rampEnv 1 3) henv (by decide) (by decide)
    (show 0 < 1 by decide) (by decide)
  exact ⟨s, st, hret, hiff.mpr (Or.inl rfl)⟩

/-- With two samples 0 and 1, sample 1 goes to the right child, and its own descent to the left
    one. -/
theorem misrouted_two :
    ∃ s st, Returns (fun fuel => build (rampEnv 2 1) fuel 0 (init (rampEnv 2 1) 0)) (s, st) ∧
      ¬ Routed (fun i _ => i) 1 st.heap 1 := by
  have hrun : (build (rampEnv 2 1) 2 0 (init (rampEnv 2 1) 0)).map (fun r =>
      (descend 2 r.2.heap ⟨0, row (fun i _ => i) 1 1, 0, []⟩ 0, (r.2.heap.cell 1).map KdNode.ids)) =
      .ok (.ok [1, 0], some [0]) := rfl
  cases hbuild : build (rampEnv 2 1) 2 0 (init (rampEnv 2 1) 0) with
  | error e =>
    rw [hbuild] at hrun
    cases hrun
  | ok r =>
    rw [hbuild] at hrun
    obtain ⟨hdesc, hids⟩ := Prod.mk.inj (Except.ok.inj hrun)
    refine ⟨r.1, r.2, build_ok_returns hbuild, fun hr => ?_⟩
    obtain ⟨x, visited, k, hret, hk, -, hi⟩ := hr ⟨0, row (fun i _ => i) 1 1, 0, []⟩ rfl
    obtain ⟨rfl, -⟩ := List.cons.inj (hret.unique (loop_ok_returns hdesc))
    rw [hk] at hids
    rw [Option.some.inj hids] at hi
    simp at hi

end Main

end Monya.KdTree
