/-
  `find_neighbors` on a tree that `build` has left: it offers every sample to the query, each once,
  so that the query is left with the nearest neighbours (`exact_knn`).
-/
import Monya.Examples.KdWalk

namespace Monya.KdTree

open Monya.Lib Monya.Structures KdNode

/-! ## The nodes of a subtree -/

section Nodes

variable {α : Type} [LinearOrder α] {M : Nat → Nat → α} {n f D : Nat} {h : Heap (KdNode α)}

omit [LinearOrder α] in
theorem Below.trans {x y z : Nat} (hxy : Below h x y) (hyz : Below h y z) : Below h x z := by
  induction hyz with
  | refl => exact hxy
  | child _ ha ih => exact .child ih ha

omit [LinearOrder α] in
theorem IsTree.below_of_mem {x y : Nat} {t : Tree α} (ht : IsTree h x t) (hy : y ∈ t.addrs) :
    Below h x y := by
  induction ht with
  | leaf => rw [List.mem_singleton.mp hy]; exact .refl
  | node hk hl hr _ _ ihl ihr =>
    have hkids := kids_eq hk
    rw [hl, hr] at hkids
    rcases List.mem_cons.mp hy with rfl | hy
    · exact .refl
    · rcases List.mem_append.mp hy with hy | hy
      · exact Below.trans (.child .refl (by rw [hkids]; simp)) (ihl hy)
      · exact Below.trans (.child .refl (by rw [hkids]; simp)) (ihr hy)

/-- A node below another one has a larger address, is at least as deep, and its samples are among
    those of the other. -/
theorem HeapOk.below (h₀ : HeapOk M n f D h) {x y : Nat} {k : KdNode α} (hk : h.cell x = some k)
    (hy : Below h x y) :
    x ≤ y ∧ ∃ c, h.cell y = some c ∧ k.depth ≤ c.depth ∧ c.ids ⊆ k.ids := by
  have hcell : x ≤ y ∧ ∃ c, h.cell y = some c ∧ k.depth ≤ c.depth := by
    induction hy with
    | refl => exact ⟨le_refl _, k, hk, le_refl _⟩
    | child _ ha ih =>
      obtain ⟨hle, c, hc, hd⟩ := ih
      obtain ⟨c', ca, hc', hca, -, -, -, ids, hco, -⟩ := h₀.child ha
      cases hc.symm.trans hc'
      exact ⟨hle.trans hco.lt.le, ca, hca, by rw [hco.depth]; omega⟩
  obtain ⟨hle, c, hc, hd⟩ := hcell
  exact ⟨hle, c, hc, hd, h₀.ids_below hk hy hc⟩

/-- A subtree's nodes are all different: the children have no samples in common. -/
theorem IsTree.addrs_nodup (h₀ : HeapOk M n f D h) {x : Nat} {t : Tree α} (ht : IsTree h x t)
    {k : KdNode α} (hk : h.cell x = some k) (hids : k.ids.Nodup) : t.addrs.Nodup := by
  induction ht generalizing k with
  | leaf => exact List.nodup_singleton _
  | @node x l r k' tl tr hk' hl hr htl htr ihl ihr =>
    obtain rfl : k' = k := Option.some.inj (hk'.symm.trans hk)
    have hp := h₀.parent_of_links hk hl hr
    obtain ⟨cl, hcl, hlo⟩ := hp.leftOk
    obtain ⟨cr, hcr, hro⟩ := hp.rightOk
    have hsplit := hids
    rw [← List.take_append_drop (k'.size / 2) k'.ids] at hsplit
    obtain ⟨htake, hdrop, hdisj⟩ := List.nodup_append.mp hsplit
    refine List.nodup_cons.mpr ⟨fun hm => ?_, List.nodup_append.mpr
      ⟨ihl hcl (hlo.ids.nodup_iff.mpr htake), ihr hcr (hro.ids.nodup_iff.mpr hdrop), ?_⟩⟩
    · rcases List.mem_append.mp hm with hm | hm
      · have := (h₀.below hcl (htl.below_of_mem hm)).1
        have := hlo.lt
        omega
      · have := (h₀.below hcr (htr.below_of_mem hm)).1
        have := hro.lt
        omega
    · rintro y hy _ hy' rfl
      obtain ⟨-, c, hc, hd, hsub⟩ := h₀.below hcl (htl.below_of_mem hy)
      obtain ⟨-, c', hc', -, hsub'⟩ := h₀.below hcr (htr.below_of_mem hy')
      cases hc.symm.trans hc'
      have hne := (h₀.node y c hc).ids_ne_nil (by rw [hlo.depth] at hd; omega)
      obtain ⟨i, hi⟩ := List.exists_mem_of_ne_nil _ hne
      exact hdisj i (hlo.ids.mem_iff.mp (hsub hi)) i (hro.ids.mem_iff.mp (hsub' hi)) rfl

end Nodes

/-! ## The search -/

section Search

variable {α : Type} [LinearOrder α] {env : KdEnv α} {M : Nat → Nat → α} {n f : Nat} {colwise : Bool}
  {h : Heap (KdNode α)} {treeId k : Nat} {qsample : List α}

/-- `find_neighbors` offers every sample to the query, once. -/
theorem findNeighbors_returns (henv : env.io = .ofMatrix M n f colwise) (hn' : n < 2 ^ 32)
    (hq : qsample.length = f) (euclidean : List α → List α → α) {D splitDim : Nat}
    (b : Built M n f D splitDim h)
    {query : ProximityQuery α} (hqs : query.qsample = qsample) {es : List (IndexVal α)}
    (hseen : query.Seen treeId k es) :
    ∃ query', ∃ ids : List Nat,
      Returns (fun fuel => findNeighbors env euclidean treeId h 0 query fuel) query' ∧
      ids.Perm (List.range n) ∧
      query'.Seen treeId k (es ++ ids.map (entry euclidean M f qsample)) := by
  obtain ⟨kd, hk, -, -, -, hids⟩ := b.root.node
  obtain ⟨t, ht⟩ := b.heapOk.exists_isTree hk
  have hperm : t.ids.Perm (List.range n) := (ht.ids_perm b.heapOk hk).trans hids
  have hlt : ∀ i ∈ t.ids, i < n ∧ i < 2 ^ 32 := fun i hi => by
    have hi' : i < n := List.mem_range.mp (hperm.mem_iff.mp hi)
    exact ⟨hi', hi'.trans hn'⟩
  obtain ⟨w, ids, hret, hp, hseen', -⟩ := findNeighborsLogged_returns henv hq euclidean ht
    (ht.addrs_nodup b.heapOk hk (hids.nodup_iff.mpr List.nodup_range))
    (fun y _ kd hkd => (b.heapOk.node y kd hkd).dim) hlt [] hqs hseen
  exact ⟨w.query, ids, (hret.map fun w => w.query).of_eq fun fuel =>
    findNeighbors_eq treeId h 0 [] query fuel, hp.trans hperm, hseen'⟩

end Search

/-! ## The nearest neighbours -/

/-- The `k` nearest of the samples `0, …, n - 1`, at distances `d`. -/
structure KNearest {α : Type} [LinearOrder α] (d : Nat → α) (n k : Nat)
    (v : NNVector α) : Prop where
  entries : ∃ xs, v.Holds xs ∧ xs.length = min k n ∧ xs.Pairwise (fun a b => a.val ≤ b.val) ∧
    xs.map IndexVal.val = (stableSort id ((List.range n).map d)).take (min k n) ∧
    (∀ e ∈ xs, e.index < n ∧ e.val = d e.index) ∧ (xs.map IndexVal.index).Nodup

/-- The two vectors have the same values, one by one. -/
def SameValues {α : Type} (v v' : NNVector α) : Prop :=
  ∃ xs xs', v.Holds xs ∧ v'.Holds xs' ∧ xs.map IndexVal.val = xs'.map IndexVal.val

section Main

variable {α : Type} [LinearOrder α]

/-- The distances in order do not depend on the order in which the samples come. -/
theorem map_val_stableSort (d : Nat → α) {ids pool : List Nat} (hids : ids.Perm pool) :
    (stableSort IndexVal.val (ids.map fun i => ⟨i, d i⟩)).map IndexVal.val =
      stableSort id (pool.map d) := by
  set es : List (IndexVal α) := ids.map fun i => ⟨i, d i⟩ with hes
  have hdist : es.map IndexVal.val = ids.map d := by simp [hes, Function.comp_def]
  -- both sides are sorted, and they have the same distances
  have hp : ((stableSort IndexVal.val es).map IndexVal.val).Perm (stableSort id (pool.map d)) := by
    refine ((stableSort_perm IndexVal.val es).map IndexVal.val).trans ?_
    rw [hdist]
    exact (hids.map d).trans (stableSort_perm _ _).symm
  refine hp.eq_of_pairwise (fun _ _ _ _ => le_antisymm) ?_ (stableSort_sorted id _)
  exact List.pairwise_map.mpr (stableSort_sorted _ _)

theorem kNearest_of_evaluated {d : Nat → α} {n k : Nat} {v : NNVector α} {ids : List Nat}
    (hids : ids.Perm (List.range n)) (hk : v.k = k)
    (hv : v.Evaluated (ids.map fun i => ⟨i, d i⟩)) : KNearest d n k v := by
  set es : List (IndexVal α) := ids.map fun i => ⟨i, d i⟩ with hes
  have hperm := stableSort_perm IndexVal.val es
  have hlen : (stableSort IndexVal.val es).length = n := by
    rw [hperm.length_eq, hes, List.length_map, hids.length_eq, List.length_range]
  have hmem : ∀ e ∈ stableSort IndexVal.val es, e.index < n ∧ e.val = d e.index := by
    intro e he
    obtain ⟨i, hi, rfl⟩ := List.mem_map.mp (hperm.mem_iff.mp he)
    exact ⟨List.mem_range.mp (hids.mem_iff.mp hi), rfl⟩
  have hvals : (stableSort IndexVal.val es).map IndexVal.val =
      stableSort id ((List.range n).map d) := map_val_stableSort d hids
  have hindex : ((stableSort IndexVal.val es).map IndexVal.index).Nodup := by
    have : (es.map IndexVal.index) = ids := by simp [hes, Function.comp_def]
    refine (hperm.map IndexVal.index).nodup_iff.mpr ?_
    rw [this]
    exact hids.nodup_iff.mpr List.nodup_range
  refine ⟨(stableSort IndexVal.val es).take k, hk ▸ hv, ?_, ?_, ?_, ?_, ?_⟩
  · rw [List.length_take, hlen]
  · exact (stableSort_sorted _ _).sublist (List.take_sublist _ _)
  · have hlen' : (stableSort id ((List.range n).map d)).length ≤ n := by
      rw [← hvals, List.length_map, hlen]
    rw [List.map_take, hvals, ← List.take_take, List.take_of_length_le hlen']
  · exact fun e he => hmem e (List.mem_of_mem_take he)
  · rw [List.map_take]
    exact hindex.sublist (List.take_sublist _ _)

theorem KNearest.sameValues {d : Nat → α} {n k : Nat} {v v' : NNVector α} (h : KNearest d n k v)
    (h' : KNearest d n k v') : SameValues v v' := by
  obtain ⟨xs, hv, -, -, hvals, -⟩ := h.entries
  obtain ⟨xs', hv', -, -, hvals', -⟩ := h'.entries
  exact ⟨xs, xs', hv, hv', hvals.trans hvals'.symm⟩

variable [Zero α]

/-- The answer of tree `treeId`, with root split dimension `splitDim`, to a query: the tree is built
    and then searched. -/
def Answers (env : KdEnv α) (euclidean : List α → List α → α) (splitDim treeId : Nat)
    (query : ProximityQuery α) (v : NNVector α) : Prop :=
  ∃ s st query', Returns (fun fuel => build env fuel 0 (init env splitDim)) (s, st) ∧
    Returns (fun fuel => findNeighbors env euclidean treeId st.heap 0 query fuel) query' ∧
    query'.result[treeId]? = some v

theorem Answers.unique {env : KdEnv α} {euclidean : List α → List α → α} {splitDim treeId : Nat}
    {query : ProximityQuery α} {v v' : NNVector α}
    (h : Answers env euclidean splitDim treeId query v)
    (h' : Answers env euclidean splitDim treeId query v') : v = v' := by
  obtain ⟨s, st, q, hb, hf, hv⟩ := h
  obtain ⟨s', st', q', hb', hf', hv'⟩ := h'
  obtain ⟨rfl, rfl⟩ := Prod.mk.inj (hb.unique hb')
  cases hf.unique hf'
  exact Option.some.inj (hv.symm.trans hv')

theorem answers_kNearest (env : KdEnv α) (euclidean : List α → List α → α) {M : Nat → Nat → α}
    {n f splitDim treeId ntree k : Nat} {colwise : Bool} {qsample : List α}
    (henv : env.io = .ofMatrix M n f colwise) (hn : 1 ≤ n) (hn' : n < 2 ^ 32)
    (hsplit : splitDim < f) (hq : qsample.length = f) (hk : k < 2 ^ 15) (ht : treeId < ntree) :
    ∃ v, Answers env euclidean splitDim treeId (.new env.dataMax qsample k ntree) v ∧
      KNearest (fun i => euclidean qsample (row M f i)) n k v := by
  obtain ⟨s, st, hret, hb⟩ := build_built env henv hn hn' hsplit
  have hseen := ProximityQuery.seen_new env.dataMax qsample (hk.trans (by decide)) ht
  obtain ⟨q, ids, hfind, hids, hq'⟩ := findNeighbors_returns henv hn' hq euclidean hb rfl hseen
  obtain ⟨v, hv, hvk, he⟩ := hq'.vector
  exact ⟨v, ⟨s, st, q, hret, hfind, hv⟩, kNearest_of_evaluated hids hvk he⟩

/-- Exact nearest neighbours, end to end. Every tree answers a fresh query with the `k` nearest
    samples, so any two trees over the same data, whatever their split dimensions, depth limits and
    sorting routines, give the same values. -/
theorem exact_knn (env : KdEnv α) (euclidean : List α → List α → α) {M : Nat → Nat → α}
    {n f splitDim treeId ntree k : Nat} {colwise : Bool} {qsample : List α}
    (henv : env.io = .ofMatrix M n f colwise) (hn : 1 ≤ n) (hn' : n < 2 ^ 32)
    (hsplit : splitDim < f) (hq : qsample.length = f) (hk : k < 2 ^ 15) (ht : treeId < ntree) :
    (∃ v, Answers env euclidean splitDim treeId (.new env.dataMax qsample k ntree) v ∧
      KNearest (fun i => euclidean qsample (row M f i)) n k v) ∧
    ∀ (env' : KdEnv α) (colwise' : Bool) (splitDim' treeId' : Nat) (v v' : NNVector α),
      env'.io = .ofMatrix M n f colwise' → splitDim' < f → treeId' < ntree →
      Answers env euclidean splitDim treeId (.new env.dataMax qsample k ntree) v →
      Answers env' euclidean splitDim' treeId' (.new env'.dataMax qsample k ntree) v' →
      SameValues v v' := by
  refine ⟨answers_kNearest env euclidean henv hn hn' hsplit hq hk ht, ?_⟩
  intro env' colwise' splitDim' treeId' v v' henv' hsplit' ht' hv hv'
  obtain ⟨w, hw, hkn⟩ := answers_kNearest env euclidean henv hn hn' hsplit hq hk ht
  obtain ⟨w', hw', hkn'⟩ := answers_kNearest env' euclidean henv' hn hn' hsplit' hq hk ht'
  rw [hv.unique hw, hv'.unique hw']
  exact hkn.sameValues hkn'

/-- The distance of two one-dimensional vectors. -/
def gap (a b : List Nat) : Nat := (List.zipWith (fun x y => (x - y) + (y - x)) a b).sum

theorem exact_knn_five :
    ∃ v, Answers (rampEnv 5 2) gap 0 0 (.new (rampEnv 5 2).dataMax [2] (3 : Nat) 1) v ∧
      KNearest (fun i => gap [2] (row (fun i _ => i) 1 i)) 5 3 v :=
  have henv : (rampEnv 5 2).io = .ofMatrix (fun i _ => i) 5 1 false := rfl
  (exact_knn (rampEnv 5 2) gap henv (by decide) (by decide) (show 0 < 1 by decide) rfl (by decide)
    (show 0 < 1 by decide)).1

end Main

end Monya.KdTree
