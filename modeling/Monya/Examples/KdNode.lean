/-
  `kdnode` (`examples/kdtree.cpp`) over `NodeView` (`structures/NodeView.cpp`) and `BinaryNode`:
  what a worker does to one node (`prep`, then `run`) and what `build` does to it (`spawn`).

  `NodeView` and `BinaryNode` each have a field `parent`; `bestow` writes the former
  (`viewParent`) and nothing that runs here writes the latter after the constructor. `ioer` is
  one object shared by all nodes of a tree, so it is a parameter and not a field. `complete` is
  never used and left out.

  A comparator holds whatever `uninit` says until `run` sets it.
-/
import Mathlib.Order.Basic
import Mathlib.Data.List.Sort
import Monya.Io.MemoryIO

namespace Monya

open Monya.Lib

structure KdNode (α : Type) where
  dataIndex : IndexVector α
  reqIndxs : List Nat
  comparator : α
  depth : Nat
  /-- `NodeView::parent`. -/
  viewParent : Ptr
  /-- `BinaryNode::parent`. -/
  parent : Ptr
  left : Ptr
  right : Ptr
  splitDim : Nat
  lowerBounds : List α
  upperBounds : List α

/-- What a tree program is given: the data, the library and the limits. -/
structure KdEnv (α : Type) [LinearOrder α] where
  io : MemoryIO α
  sorter : Sorter α
  maxDepth : Nat
  /-- The comparator of a node created at this address. -/
  uninit : Nat → α
  /-- `std::numeric_limits<data_t>::max()`. -/
  dataMax : α
  /-- `std::numeric_limits<data_t>::min()`. -/
  dataMin : α

namespace KdNode

variable {α : Type}

/-- `new kdnode`. -/
def new (comparator : α) : KdNode α where
  dataIndex := .new
  reqIndxs := []
  comparator := comparator
  depth := 0
  viewParent := none
  parent := none
  left := none
  right := none
  splitDim := 0
  lowerBounds := []
  upperBounds := []

def size (k : KdNode α) : Nat := k.dataIndex.size

def ids (k : KdNode α) : List Nat := k.dataIndex.ids

@[simp] theorem length_ids (k : KdNode α) : k.ids.length = k.size := List.length_map _

def hasChild (k : KdNode α) : Bool := k.left.isSome || k.right.isSome

/-- `BinaryNode::get_parent`. -/
def getParent (k : KdNode α) : Ptr := k.parent

/-- `set_index(const sample_id_t)`. -/
def setIndex (k : KdNode α) (index : Nat) : KdNode α := { k with reqIndxs := [sampleId index] }

def setSplitDim (k : KdNode α) (splitDim : Nat) : KdNode α := { k with splitDim }

/-- `bestow`, called on the node `k` at address `this`. -/
def bestow (k : KdNode α) (this : Nat) (node : KdNode α) : KdNode α :=
  { node with viewParent := some this, depth := k.depth + 1 }

def setPhDataIndex [Zero α] (k : KdNode α) (idxs : Buf Nat) (nelem : Nat) :
    Except Fault (KdNode α) := do
  return { k with dataIndex := ← k.dataIndex.setIndexes idxs nelem }

/-- The dimension after `splitDim`, in a cycle. -/
def nextSplit (k : KdNode α) (nfeatures : Nat) : Nat :=
  if k.splitDim + 1 = nfeatures then 0 else k.splitDim + 1

variable [LinearOrder α] (env : KdEnv α)

/-- One pass of the loop in `prep`. -/
def loadVal (ret : Buf α) (di : IndexVector α) (i : Nat) : Except Fault (IndexVector α) := do
  let iv ← di.get i
  di.setVal i (← ret.get iv.index)

/-- The `else` branch of `prep`: a value for every placeholder. -/
def loadVals (ret : Buf α) (di : IndexVector α) : Except Fault (IndexVector α) :=
  (List.range di.size).foldlM (loadVal ret) di

def prep (k : KdNode α) : Except Fault (KdNode α) :=
  match k.reqIndxs with
  | [req] => do
      let ret ← env.io.getCol req
      let di ←
        if k.dataIndex.items.isEmpty then k.dataIndex.setIndexesVals ret env.io.nsamples
        else loadVals ret k.dataIndex
      return { k with dataIndex := di }
  | _ => .error .assertion

/-- The inner loop of `compute_bounds`, on one sample. -/
def widen (bounds : List α × List α) (sample : List α) : List α × List α :=
  (List.zipWith (fun s b => if s < b then s else b) sample bounds.1,
    List.zipWith (fun s b => if b < s then s else b) sample bounds.2)

/-- The outer loop's body. -/
def boundsStep (bounds : List α × List α) (iv : IndexVal α) : Except Fault (List α × List α) := do
  let sample ← env.io.getRow iv.index
  return widen bounds (← sample.copy env.io.nfeatures)

def computeBounds (k : KdNode α) : Except Fault (KdNode α) := do
  let bounds ← k.dataIndex.items.foldlM (boundsStep env)
    (List.replicate env.io.nfeatures env.dataMax, List.replicate env.io.nfeatures env.dataMin)
  return { k with lowerBounds := bounds.1, upperBounds := bounds.2 }

/-- `run`, on the node at address `this`. The sort is parallel above depth 3. -/
def run (this : Nat) (k : KdNode α) : Except Fault (KdNode α) := do
  let items := env.sorter.sort (decide (k.depth < 3)) this k.dataIndex.items
  let di := { k.dataIndex with items }
  let iv ← di.get (di.size / 2)
  computeBounds env { k with dataIndex := di, comparator := iv.val }

/-- `spawn`, on the node at address `this`: the two children come at `h.brk` and after it. -/
def spawn [Zero α] (this : Nat) (h : Heap (KdNode α)) : Except Fault (Heap (KdNode α)) := do
  let k ← h.read this
  let left := k.bestow this (new (env.uninit h.brk))
  let right := k.bestow this (new (env.uninit (h.brk + 1)))
  let next := k.nextSplit env.io.nfeatures
  let left := (left.setSplitDim next).setIndex next
  let right := (right.setSplitDim next).setIndex next
  let idxs := k.dataIndex.getIndexes
  let half := k.dataIndex.size / 2
  let left ← left.setPhDataIndex (Buf.ofList idxs 0) half
  let right ← right.setPhDataIndex (Buf.ofList idxs half) (idxs.length - half)
  ((h.alloc left).alloc right).modify this fun k =>
    { k with left := some h.brk, right := some (h.brk + 1) }

/-! ## Training one node -/

section Train

open MemoryIO (ofMatrix)

variable {env} {M : Nat → Nat → α} {n f : Nat} {colwise : Bool}

omit [LinearOrder α] in
theorem loadVal_ok (pre post : List (IndexVal α)) {ret : Buf α} {iv : IndexVal α} {v : α}
    {s : Bool} (hlen : pre.length < 2 ^ 31) (hret : ret iv.index = some v) :
    loadVal ret ⟨pre ++ iv :: post, s⟩ pre.length =
      .ok ⟨pre ++ { iv with val := v } :: post, s⟩ := by
  have hget : (pre ++ iv :: post)[pre.length]? = some iv := by simp
  unfold loadVal
  rw [IndexVector.get_ok (v := ⟨pre ++ iv :: post, s⟩) hlen hget, ok_bind, Buf.get_ok hret, ok_bind,
    IndexVector.setVal_ok (v := ⟨pre ++ iv :: post, s⟩) hlen hget]
  simp

omit [LinearOrder α] in
/-- The loop with the entries of `pre` already loaded. -/
theorem loadVals_from {ret : Buf α} {g : Nat → α} {s : Bool} (post : List (IndexVal α)) :
    ∀ pre : List (IndexVal α), pre.length + post.length ≤ 2 ^ 31 →
      (∀ iv ∈ post, ret iv.index = some (g iv.index)) →
      (List.range' pre.length post.length).foldlM (loadVal ret) ⟨pre ++ post, s⟩ =
        .ok ⟨pre ++ post.map fun iv => { iv with val := g iv.index }, s⟩ := by
  induction post with
  | nil => intro pre _ _; simp; rfl
  | cons iv post ih =>
    intro pre hlen hret
    simp only [List.length_cons] at hlen
    have hstep := loadVal_ok pre post (s := s) (by omega)
      (hret iv List.mem_cons_self)
    have hrest := ih (pre ++ [{ iv with val := g iv.index }]) (by simp; omega)
      fun iv' h => hret iv' (List.mem_cons_of_mem _ h)
    rw [List.length_append, List.append_assoc] at hrest
    rw [List.length_cons, List.range'_succ, List.foldlM_cons, hstep, ok_bind]
    simpa using hrest

omit [LinearOrder α] in
theorem loadVals_ok {ret : Buf α} {di : IndexVector α} {g : Nat → α} (hsize : di.size ≤ 2 ^ 31)
    (hret : ∀ iv ∈ di.items, ret iv.index = some (g iv.index)) :
    loadVals ret di =
      .ok { di with items := di.items.map fun iv => { iv with val := g iv.index } } := by
  have h := loadVals_from (s := di.sorted) di.items [] (by rwa [List.length_nil, Nat.zero_add]) hret
  unfold loadVals
  rw [List.range_eq_range']
  exact h

theorem boundsStep_ok (henv : env.io = .ofMatrix M n f colwise) {iv : IndexVal α}
    (hiv : iv.index < n) (b : List α × List α) :
    boundsStep env b iv = .ok (widen b ((List.range f).map (M iv.index))) := by
  obtain ⟨p, hp, hpj⟩ := MemoryIO.getRow_ofMatrix (M := M) (f := f) colwise hiv
  unfold boundsStep
  rw [henv, hp, ok_bind, show (ofMatrix M n f colwise).nfeatures = f from rfl,
    Buf.copy_ok hpj]
  rfl

theorem computeBounds_ok (henv : env.io = .ofMatrix M n f colwise) (k : KdNode α)
    (hids : ∀ iv ∈ k.dataIndex.items, iv.index < n) :
    ∃ lb ub, computeBounds env k = .ok { k with lowerBounds := lb, upperBounds := ub } := by
  obtain ⟨b, hb⟩ := foldlM_ok (fun b iv hiv => ⟨_, boundsStep_ok henv (hids iv hiv) b⟩)
    (List.replicate env.io.nfeatures env.dataMax, List.replicate env.io.nfeatures env.dataMin)
  refine ⟨b.1, b.2, ?_⟩
  unfold computeBounds
  rw [hb]
  rfl

/-- A node after `prep` and `run`: its entries have the values of its column and are sorted, and
    the comparator is the value in the middle. -/
structure Trained (M : Nat → Nat → α) (k : KdNode α) : Prop where
  vals : ∀ iv ∈ k.dataIndex.items, iv.val = M iv.index (sampleId k.splitDim)
  sorted : k.dataIndex.items.Pairwise fun a b => a.val ≤ b.val
  median : ∃ iv, k.dataIndex.items[k.size / 2]? = some iv ∧ k.comparator = iv.val

/-- A node that can be trained: it asks for a column of the matrix, and its ids are rows of it. A
    root comes without ids and takes all of them. -/
structure Trainable (n f : Nat) (k : KdNode α) : Prop where
  req : k.reqIndxs = [sampleId k.splitDim]
  dim : k.splitDim < f
  ids : ∀ i ∈ k.ids, i < n
  size : k.size ≤ 2 ^ 31

/-- What training leaves of a node: everything but its entries' order and values, its comparator
    and its bounds. -/
structure SameButTrained (k k' : KdNode α) : Prop where
  reqIndxs : k'.reqIndxs = k.reqIndxs
  depth : k'.depth = k.depth
  viewParent : k'.viewParent = k.viewParent
  parent : k'.parent = k.parent
  left : k'.left = k.left
  right : k'.right = k.right
  splitDim : k'.splitDim = k.splitDim

omit [LinearOrder α] in
theorem SameButTrained.trans {k₁ k₂ k₃ : KdNode α} (h : SameButTrained k₁ k₂)
    (h' : SameButTrained k₂ k₃) : SameButTrained k₁ k₃ :=
  ⟨h'.1.trans h.1, h'.2.trans h.2, h'.3.trans h.3, h'.4.trans h.4, h'.5.trans h.5, h'.6.trans h.6,
    h'.7.trans h.7⟩

/-- `prep` puts the values of the node's column beside its ids. -/
theorem prep_ok (henv : env.io = .ofMatrix M n f colwise) (hn' : n < 2 ^ 32) {k : KdNode α}
    (h : Trainable n f k) :
    ∃ di, prep env k = .ok { k with dataIndex := di } ∧
      di.ids = (if k.ids = [] then List.range n else k.ids) ∧
      ∀ iv ∈ di.items, iv.val = M iv.index (sampleId k.splitDim) := by
  obtain ⟨p, hp, hpi⟩ := MemoryIO.getCol_ofMatrix (M := M) (n := n) colwise
    (lt_of_le_of_lt (sampleId_le k.splitDim) h.dim)
  by_cases hk : k.ids = []
  · have hitems : k.dataIndex.items = [] := List.map_eq_nil_iff.mp hk
    refine ⟨⟨(List.range n).map fun i => ⟨i, M i (sampleId k.splitDim)⟩, k.dataIndex.sorted⟩, ?_,
      ?_, ?_⟩
    · unfold prep
      simp only [h.req, henv, hp, ok_bind, hitems, List.isEmpty_nil, if_true]
      rw [show (ofMatrix M n f colwise).nsamples = n from rfl,
        IndexVector.setIndexesVals_ok _ hn'.le hpi]
      rfl
    · rw [if_pos hk]
      simp [IndexVector.ids, Function.comp_def]
    · intro iv hiv
      obtain ⟨i, _, rfl⟩ := List.mem_map.mp hiv
      rfl
  · have hitems : k.dataIndex.items.isEmpty = false := by
      rw [List.isEmpty_eq_false_iff]
      exact fun he => hk (List.map_eq_nil_iff.mpr he)
    have hload := loadVals_ok (g := fun i => M i (sampleId k.splitDim)) h.size
      fun iv hiv => hpi iv.index (h.ids iv.index (List.mem_map_of_mem hiv))
    refine ⟨{ k.dataIndex with items := k.dataIndex.items.map fun iv =>
      { iv with val := M iv.index (sampleId k.splitDim) } }, ?_, ?_, ?_⟩
    · unfold prep
      simp only [h.req, henv, hp, ok_bind, hitems, Bool.false_eq_true, if_false, hload]
      rfl
    · rw [if_neg hk]
      simp [IndexVector.ids, KdNode.ids, Function.comp_def]
    · intro iv hiv
      obtain ⟨iv', _, rfl⟩ := List.mem_map.mp hiv
      rfl

theorem run_ok (henv : env.io = .ofMatrix M n f colwise) (this : Nat) {k : KdNode α}
    (hpos : 0 < k.size) (hsize : k.size < 2 ^ 32) (hids : ∀ i ∈ k.ids, i < n)
    (hvals : ∀ iv ∈ k.dataIndex.items, iv.val = M iv.index (sampleId k.splitDim)) :
    ∃ k', run env this k = .ok k' ∧ SameButTrained k k' ∧ k'.ids.Perm k.ids ∧ Trained M k' := by
  set items := env.sorter.sort (decide (k.depth < 3)) this k.dataIndex.items with hitems
  have hperm : items.Perm k.dataIndex.items := env.sorter.perm _ _ _
  have hlen : items.length = k.size := hperm.length_eq
  have hhalf : k.size / 2 < items.length := by omega
  have hget : (⟨items, k.dataIndex.sorted⟩ : IndexVector α).get (items.length / 2) =
      .ok items[k.size / 2] := by
    rw [hlen]
    exact IndexVector.get_ok (by omega) (List.getElem?_eq_getElem hhalf)
  obtain ⟨lb, ub, hb⟩ := computeBounds_ok henv
    { k with
      dataIndex := ⟨items, k.dataIndex.sorted⟩
      comparator := items[k.size / 2].val }
    fun iv hiv => hids iv.index (List.mem_map_of_mem (hperm.mem_iff.mp hiv))
  have hrun : run env this k = .ok
      { k with
        dataIndex := ⟨items, k.dataIndex.sorted⟩
        comparator := items[k.size / 2].val
        lowerBounds := lb
        upperBounds := ub } := by
    unfold run
    simp only [← hitems, IndexVector.size, hget, ok_bind]
    exact hb
  refine ⟨_, hrun, ?_, ?_, ?_⟩
  · exact ⟨rfl, rfl, rfl, rfl, rfl, rfl, rfl⟩
  · exact hperm.map _
  · refine ⟨fun iv hiv => hvals iv (hperm.mem_iff.mp hiv), env.sorter.sorted _ _ _, _, ?_, rfl⟩
    change items[items.length / 2]? = _
    rw [hlen]
    exact List.getElem?_eq_getElem hhalf

/-- `prep` and then `run` train a node. -/
theorem train_ok (henv : env.io = .ofMatrix M n f colwise) (hn : 1 ≤ n) (hn' : n < 2 ^ 32)
    (this : Nat) {k : KdNode α} (h : Trainable n f k) :
    ∃ k₁ k₂, prep env k = .ok k₁ ∧ run env this k₁ = .ok k₂ ∧ SameButTrained k k₂ ∧
      k₂.ids.Perm (if k.ids = [] then List.range n else k.ids) ∧ Trained M k₂ := by
  obtain ⟨di, hprep, hids, hvals⟩ := prep_ok henv hn' h
  have hlt : ∀ i ∈ di.ids, i < n := by
    intro i hi
    rw [hids] at hi
    split at hi
    · exact List.mem_range.mp hi
    · exact h.ids i hi
  have hlen : di.size = di.ids.length := (List.length_map _).symm
  have hsize : 0 < di.size ∧ di.size < 2 ^ 32 := by
    rw [hlen, hids]
    split
    · rw [List.length_range]
      exact ⟨hn, hn'⟩
    · next hne =>
      have hk : k.ids.length = k.size := k.length_ids
      have := List.length_pos_iff.mpr hne
      have := h.size
      omega
  obtain ⟨k₂, hrun, hsame, hperm, htr⟩ := run_ok (k := { k with dataIndex := di }) henv this
    hsize.1 hsize.2 hlt hvals
  refine ⟨_, k₂, hprep, hrun, ?_, ?_, htr⟩
  · exact ⟨hsame.1, hsame.2, hsame.3, hsame.4, hsame.5, hsame.6, hsame.7⟩
  · rw [← hids]
    exact hperm

end Train

/-! ## A trained node -/

section Trained

variable {M : Nat → Nat → α} {k : KdNode α}

/-- The sorted entries, cut before the median. -/
theorem Trained.split (h : Trained M k) :
    ∃ iv rest, k.dataIndex.items.drop (k.size / 2) = iv :: rest ∧ k.comparator = iv.val := by
  obtain ⟨iv, hiv, hc⟩ := h.median
  obtain ⟨hlt, hget⟩ := List.getElem?_eq_some_iff.mp hiv
  exact ⟨iv, _, by rw [List.drop_eq_getElem_cons hlt, hget], hc⟩

theorem Trained.comparator_mem (h : Trained M k) :
    ∃ i ∈ k.ids, k.comparator = M i (sampleId k.splitDim) := by
  obtain ⟨iv, hiv, hc⟩ := h.median
  have hmem := List.mem_of_getElem? hiv
  exact ⟨iv.index, List.mem_map_of_mem hmem, hc.trans (h.vals iv hmem)⟩

theorem Trained.take_le (h : Trained M k) {i : Nat} (hi : i ∈ k.ids.take (k.size / 2)) :
    M i (sampleId k.splitDim) ≤ k.comparator := by
  obtain ⟨iv, rest, hdrop, hc⟩ := h.split
  rw [KdNode.ids, IndexVector.ids, ← List.map_take] at hi
  obtain ⟨iv', hiv', rfl⟩ := List.mem_map.mp hi
  have hsorted := h.sorted
  rw [← List.take_append_drop (k.size / 2) k.dataIndex.items, List.pairwise_append] at hsorted
  rw [← h.vals iv' (List.mem_of_mem_take hiv'), hc]
  exact hsorted.2.2 iv' hiv' iv (by rw [hdrop]; exact List.mem_cons_self)

theorem Trained.le_drop (h : Trained M k) {i : Nat} (hi : i ∈ k.ids.drop (k.size / 2)) :
    k.comparator ≤ M i (sampleId k.splitDim) := by
  obtain ⟨iv, rest, hdrop, hc⟩ := h.split
  rw [KdNode.ids, IndexVector.ids, ← List.map_drop] at hi
  obtain ⟨iv', hiv', rfl⟩ := List.mem_map.mp hi
  have hsorted := h.sorted
  rw [← List.take_append_drop (k.size / 2) k.dataIndex.items, List.pairwise_append, hdrop,
    List.pairwise_cons] at hsorted
  rw [← h.vals iv' (List.mem_of_mem_drop hiv'), hc]
  rw [hdrop] at hiv'
  rcases List.mem_cons.mp hiv' with rfl | hiv'
  · exact le_refl _
  · exact hsorted.2.1.1 iv' hiv'

end Trained

end KdNode

end Monya
