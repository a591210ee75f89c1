/-
  A forest, from the file to its answers (`ComputeEngine.hpp`, `main` of `examples/kdtree.cpp`).

  The trees of an engine read the same data and share nothing else, so `train` has them side by side
  (`trainStep`), and a step is one of any thread of any tree. `train_ends`: there is no infinite run
  without spurious wake-ups, and a run that has lost no signal can go on until all trees are
  trained.

  `query` goes over the trees one after the other. Each offers all samples to its own vector of the
  query object and leaves those of the other trees alone (`Asked.query`). So after training, however
  it went, each vector has the nearest neighbours, and the vectors are equal by their own
  `operator==` (`forest_answers`). A query object that is used again keeps what it has: after
  `times` queries each sample has been offered that often.
-/
import Mathlib.Data.List.Perm.Subperm
import Monya.ComputeEngine
import Monya.Common.NNAccess
import Monya.Examples.KdMain
import Monya.Examples.KdProgress
import Monya.Examples.KdSearch

namespace Monya

open Monya.Lib Monya.Structures

/-! ## The data of an engine -/

section Data

open MemoryIO (ofMatrix)

variable {α : Type} (c : Codec α dtypeSize) (M : Nat → Nat → α)

/-- The values of the matrix in the order of a file. -/
def laidOut (n f : Nat) (colwise : Bool) : List α :=
  if colwise then lines (fun j i => M i j) f n else lines M n f

theorem laidOut_eq_ofMatrix (n f : Nat) (colwise : Bool) :
    (fun k => (laidOut M n f colwise)[k]?) = (ofMatrix M n f colwise).data := by
  funext k
  unfold laidOut ofMatrix lines
  cases colwise with
  | false =>
    simp only [Bool.false_eq_true, if_false, List.getElem?_map]
    rcases Nat.lt_or_ge k (n * f) with hk | hk
    · rw [List.getElem?_range hk, if_pos hk]
      rfl
    · rw [List.getElem?_eq_none (by simpa using hk), if_neg (Nat.not_lt.mpr hk)]
      rfl
  | true =>
    simp only [if_true, List.getElem?_map, Nat.mul_comm f n]
    rcases Nat.lt_or_ge k (n * f) with hk | hk
    · rw [List.getElem?_range hk, if_pos hk]
      rfl
    · rw [List.getElem?_eq_none (by simpa using hk), if_neg (Nat.not_lt.mpr hk)]
      rfl

/-- The file of the launch has the matrix, laid out as the parameters say: an `fvecs` file of its
    rows, or its bare values. -/
structure Launch.Stores (l : Launch) (colwise : Bool) : Prop where
  name : l.params.fn ≠ ""
  orientation : l.params.orientation = if colwise then .col else .row
  file : ∃ rest,
    (getFileExt l.params.fn = "fvecs" ∧ colwise = false ∧
      l.files l.params.fn = some (fvecsBytes c M l.params.nsamples l.params.nfeatures ++ rest)) ∨
    (getFileExt l.params.fn ≠ "fvecs" ∧
      l.files l.params.fn =
        some (c.encodeAll (laidOut M l.params.nsamples l.params.nfeatures colwise) ++ rest))

variable {c M} {l : Launch} {colwise : Bool}

theorem length_laidOut (n f : Nat) (colwise : Bool) : (laidOut M n f colwise).length = n * f := by
  unfold laidOut lines
  cases colwise <;> simp [Nat.mul_comm]

theorem Launch.Stores.load (h : l.Stores c M colwise) :
    ∃ bytes, l.files l.params.fn = some bytes ∧
      MemoryUnit.load l.junk l.params.fn l.params.shape bytes =
        .ok ((c.encodeAll (laidOut M l.params.nsamples l.params.nfeatures colwise)).map some) := by
  obtain ⟨rest, ⟨hext, rfl, hfile⟩ | ⟨hext, hfile⟩⟩ := h.file
  · refine ⟨_, hfile, ?_⟩
    unfold MemoryUnit.load
    rw [if_pos hext]
    exact fvecsRead_ok l.junk l.params.nsamples l.params.nfeatures rfl rfl
  · refine ⟨_, hfile, ?_⟩
    set xs := laidOut M l.params.nsamples l.params.nfeatures colwise with hxs
    have hlen : (c.encodeAll xs).length =
        l.params.nsamples * l.params.nfeatures * dtypeSize := by
      rw [c.length_encodeAll, hxs, length_laidOut]
    have hread := (FStream.read_ahead (f := .opened (c.encodeAll xs ++ rest)) rfl rfl).1
    unfold MemoryUnit.load
    rw [if_neg hext]
    simp only [Params.shape]
    rw [← hlen, hread, Raw.fill_all (by rw [Raw.length_blank])]

/-- The engine's unit holds the matrix. -/
theorem Launch.Stores.createTrees (h : l.Stores c M colwise) (ht : 0 < l.params.ntree) :
    ∃ u, ComputeEngine.createTrees c l none = .ok (some u) ∧
      u.view = .ofMatrix M l.params.nsamples l.params.nfeatures colwise := by
  obtain ⟨bytes, hfile, hload⟩ := h.load
  have hfresh : ComputeEngine.configure c l none = .ok (ComputeEngine.filled
      (c.elem ((c.encodeAll (laidOut M l.params.nsamples l.params.nfeatures colwise)).map some))
      (ComputeEngine.given l.params .new)) :=
    ComputeEngine.fromFile_filled rfl h.name hfile hload
  rcases ComputeEngine.createTrees_cases (c := c) (s := none) ht rfl with ⟨u, hu, hcr⟩ | ⟨e, he, -⟩
  · cases hfresh.symm.trans hu
    refine ⟨_, hcr, ?_⟩
    simp only [MemoryUnit.view, ComputeEngine.filled, Option.getD_some]
    rw [c.elem_encodeAll_eq (by decide), laidOut_eq_ofMatrix]
    show MemoryIO.mk _ l.params.orientation _ _ = _
    rw [h.orientation]
    rfl
  · cases hfresh.symm.trans he

end Data

namespace KdTree

/-! ## Training -/

section Train

variable {α : Type} [LinearOrder α] [Zero α] (env : Nat → KdEnv α)

/-- The workers of a tree: `std::max(1, static_cast<int>(nthread / ntree))`. -/
def nworkers (nthread ntree : Nat) : Nat :=
  max 1 (Int.bmod ((nthread / ntree : Nat) : Int) (2 ^ 32)).toNat

/-- The engine's trees have their roots, and `train` begins. -/
def startTrain {nfeatures : Nat} (draw : Draw nfeatures) (nthread ntree : Nat) :
    Except Fault (List (BuildRun α)) := do
  let trees ← initRoots env draw ntree
  return trees.map fun tree => ⟨⟨.new (nworkers nthread ntree) 2, .ok tree.2.heap⟩, .root⟩

/-- `train`: a thread of one of the trees makes a step. -/
def trainStep : Nat × BuildLabel → List (BuildRun α) → Option (List (BuildRun α)) :=
  sideBySide fun tid => BuildRun.step (env tid)

/-- The steps that lose no signal. -/
def safeTrainStep : Nat × BuildLabel → List (BuildRun α) → Option (List (BuildRun α)) :=
  sideBySide fun tid => BuildRun.safeStep (env tid)

variable {env} {M : Nat → Nat → α} {n f : Nat} {colwise : Bool} {draw : Draw f}
  {nthread ntree : Nat} {trees trees' : List (BuildRun α)}

theorem one_le_nworkers (nthread ntree : Nat) : 1 ≤ nworkers nthread ntree := Nat.le_max_left _ _

theorem nworkers_lt (nthread ntree : Nat) : nworkers nthread ntree < 2 ^ 32 := by
  have hlt : (Int.bmod ((nthread / ntree : Nat) : Int) (2 ^ 32)) < 2 ^ 32 :=
    (Int.bmod_lt (by decide)).trans (by decide)
  unfold nworkers
  omega

omit [Zero α] in
theorem startTrain_cases (h : startTrain env draw nthread ntree = .ok trees) :
    trees.length = ntree ∧ ∀ (tid : Nat) (tree : BuildRun α), trees[tid]? = some tree →
      ∃ dim, dim < f ∧ tree = .start (env tid) (nworkers nthread ntree) dim := by
  obtain ⟨roots, hroots, h⟩ := bind_ok h
  cases h
  unfold initRoots at hroots
  obtain ⟨c, hc, hroots⟩ := bind_ok hroots
  cases hroots
  have hmax : c.max ≤ f := by
    unfold CUnsigned.newAt at hc
    split at hc
    · cases hc
    · split at hc
      · cases hc
        exact Nat.mod_le _ _
      · cases hc
  rw [(initRoot_fold env c ntree).2.2]
  refine ⟨by simp, fun tid tree htree => ?_⟩
  rw [List.map_map, List.getElem?_map] at htree
  obtain ⟨i, hi, rfl⟩ := Option.map_eq_some_iff.mp htree
  obtain ⟨hlt, rfl⟩ := List.getElem?_eq_some_iff.mp hi
  rw [List.getElem_range]
  exact ⟨_, (Nat.mod_lt _ (Nat.zero_lt_of_lt c.lt)).trans_le hmax, rfl⟩

/-- Every state of every tree in every run. -/
theorem trees_inv (henv : ∀ tid, (env tid).io = .ofMatrix M n f colwise) (hn : 1 ≤ n)
    (hn' : n < 2 ^ 32) (hstart : startTrain env draw nthread ntree = .ok trees)
    (hreach : Lib.Reachable (trainStep env) trees trees') :
    trees'.length = ntree ∧ ∀ (tid : Nat) (tree : BuildRun α), trees'[tid]? = some tree →
      ∃ dim r, dim < f ∧ BuildInv (env tid) M n f (nworkers nthread ntree) dim r tree := by
  obtain ⟨hlen, hfirst⟩ := startTrain_cases hstart
  unfold trainStep at hreach
  obtain ⟨hlen', hall⟩ := hreach.of_each (I := fun tid tree => ∃ dim r, dim < f ∧
    BuildInv (env tid) M n f (nworkers nthread ntree) dim r tree)
    (fun tid tree htree => by
      obtain ⟨dim, hdim, rfl⟩ := hfirst tid tree htree
      exact ⟨dim, _, hdim, buildInv_start⟩)
    (by
      rintro tid l tree tree' ⟨dim, r, hdim, hi⟩ hs
      obtain ⟨r', hi', -⟩ := hi.step (henv tid) hn hn' hdim (one_le_nworkers _ _)
        (nworkers_lt _ _) hs
      exact ⟨dim, r', hdim, hi'⟩)
  exact ⟨hlen'.trans hlen, hall⟩

/-- Training ends: the threads have no infinite run without spurious wake-ups, and while no signal
    has been lost some thread can go on, until every tree is trained. -/
theorem train_ends (henv : ∀ tid, (env tid).io = .ofMatrix M n f colwise) (hn : 1 ≤ n)
    (hn' : n < 2 ^ 32) (hstart : startTrain env draw nthread ntree = .ok trees) :
    (∀ states : Nat → List (BuildRun α), states 0 = trees →
      ¬ ∀ i, ∃ l, l.2.isThread = true ∧ trainStep env l (states i) = some (states (i + 1))) ∧
    ∀ trees', Lib.Reachable (safeTrainStep env) trees trees' →
      (∃ tree ∈ trees', tree.pc ≠ .returned) →
      ∃ l trees'', l.2.isThread = true ∧ safeTrainStep env l trees' = some trees'' := by
  obtain ⟨hlen, hfirst⟩ := startTrain_cases hstart
  have hT := one_le_nworkers nthread ntree
  have hT' := nworkers_lt nthread ntree
  refine ⟨fun states h₀ => ?_, fun trees' hreach hrest => ?_⟩
  · refine no_infinite_sideBySide lower_wf (I := fun tid r tree => ∃ dim, dim < f ∧
      Ranked (env tid) M n f (nworkers nthread ntree) dim r tree)
      (fun l : BuildLabel => l.isThread = true) ?_ states
      (fun _ => ((2 * remaining n 0 0 + 3, 0), (Pool.new (nworkers nthread ntree) 2).rank)) ?_
    · rintro tid r l tree tree' ⟨dim, hdim, hr⟩ hl hs
      obtain ⟨r', hr', hlt⟩ := hr.step (henv tid) hn hn' hdim hT hT' hl hs
      exact ⟨r', ⟨dim, hdim, hr'⟩, hlt⟩
    · intro tid tree htree
      rw [h₀] at htree
      obtain ⟨dim, hdim, rfl⟩ := hfirst tid tree htree
      exact ⟨dim, hdim, buildInv_start, rfl⟩
  · unfold safeTrainStep at hreach
    have halive := (hreach.of_each (I := fun tid tree => ∃ dim, dim < f ∧
      Alive (env tid) M n f (nworkers nthread ntree) dim tree) (fun tid tree htree => by
        obtain ⟨dim, hdim, rfl⟩ := hfirst tid tree htree
        exact ⟨dim, hdim, alive_start⟩) fun tid l tree tree' ⟨dim, hdim, ha⟩ hs =>
        ⟨dim, hdim, ha.step (henv tid) hn hn' hdim hT hT' hs⟩).2
    obtain ⟨tree, htree, hp⟩ := hrest
    obtain ⟨tid, htid⟩ := List.mem_iff_getElem?.mp htree
    obtain ⟨dim, -, ha⟩ := halive tid tree htid
    obtain ⟨l, tree', hl, hs⟩ := ha.exists_step hp
    exact ⟨(tid, l), trees'.set tid tree', hl, by simp [safeTrainStep, sideBySide, htid, hs]⟩

theorem train_ends_two : ∃ trees : List (BuildRun Nat),
    startTrain (fun _ => rampEnv 2 1) (0 : Draw 1) 2 2 = .ok trees ∧
    ¬ ∃ states : Nat → List (BuildRun Nat), states 0 = trees ∧
      ∀ i, ∃ l, l.2.isThread = true ∧
        trainStep (fun _ => rampEnv 2 1) l (states i) = some (states (i + 1)) := by
  obtain ⟨trees, htrees⟩ :
      ∃ trees, startTrain (fun _ => rampEnv 2 1) (0 : Draw 1) 2 2 = .ok trees := ⟨_, rfl⟩
  refine ⟨trees, htrees, fun ⟨states, h₀, hrun⟩ => ?_⟩
  have henv : ∀ tid : Nat, (rampEnv 2 1).io = .ofMatrix (fun i _ => i) 2 1 false := fun _ => rfl
  exact (train_ends henv (by decide) (by decide) htrees).1 states h₀ hrun

end Train

/-! ## Queries -/

section Query

variable {α : Type} [LinearOrder α] (env : Nat → KdEnv α) (euclidean : List α → List α → α)

/-- `ProximityQuery::run`. -/
def runQuery (treeId : Nat) (h : Heap (KdNode α)) (q : ProximityQuery α) (fuel : Nat) :
    Except Fault (ProximityQuery α) :=
  if q.qsample = [] then .error .assertion
  else findNeighbors (env treeId) euclidean treeId h 0 q fuel

/-- `ComputeEngine::query`. -/
def query (forest : List (Heap (KdNode α))) (q : ProximityQuery α) (fuel : Nat) :
    Except Fault (ProximityQuery α) :=
  forest.zipIdx.foldlM (fun q tree => runQuery env euclidean tree.2 tree.1 q fuel) q

/-- A query object that is used `times` times. -/
def queryTimes (forest : List (Heap (KdNode α))) (times : Nat) (q : ProximityQuery α) (fuel : Nat) :
    Except Fault (ProximityQuery α) :=
  (List.range times).foldlM (fun q _ => query env euclidean forest q fuel) q

/-! ### What a tree leaves alone -/

variable {env euclidean}

/-- `find_neighbors` changes the query object by calls of `eval` for its tree only. -/
theorem findNeighbors_keeps {e : KdEnv α} {treeId root fuel : Nat} {h : Heap (KdNode α)}
    {P : ProximityQuery α → Prop}
    (heval : ∀ fuel q id dist q', q.eval fuel id dist treeId = .ok q' → P q → P q')
    {q q' : ProximityQuery α} (hfind : findNeighbors e euclidean treeId h root q fuel = .ok q')
    (hq : P q) : P q' := by
  have hsample : ∀ q iv q', evalSample e euclidean treeId fuel iv q = .ok q' → P q → P q' := by
    intro q iv q' hs
    obtain ⟨dist, -, hs⟩ := bind_ok hs
    exact heval _ _ _ _ _ hs
  have hleaf : ∀ k q q', evalLeaf e euclidean treeId fuel k q = .ok q' → P q → P q' :=
    fun k q q' hs => foldlM_rel (R := fun q q' => P q → P q') (fun _ => id)
      (fun _ _ _ h₁ h₂ => h₂ ∘ h₁) hsample hs
  obtain ⟨visited, -, hloop⟩ := bind_ok hfind
  refine loop_ok_keeps (I := fun w => P w.query) ?_ ?_ hloop hq
  · intro w w' hs hw
    unfold walkStep at hs
    split at hs
    · cases hs
    · obtain ⟨k, -, hs⟩ := bind_ok hs
      split at hs
      · obtain ⟨v₁, -, hs⟩ := bind_ok hs
        obtain ⟨v₂, -, hs⟩ := bind_ok hs
        cases hs
        exact hw
      · obtain ⟨q₁, hq₁, hs⟩ := bind_ok hs
        cases hs
        exact hleaf k w.query q₁ hq₁ hw
  · intro w b hs hw
    unfold walkStep at hs
    split at hs
    · cases hs
      exact hw
    · obtain ⟨k, -, hs⟩ := bind_ok hs
      split at hs
      · obtain ⟨v₁, -, hs⟩ := bind_ok hs
        obtain ⟨v₂, -, hs⟩ := bind_ok hs
        cases hs
      · obtain ⟨q₁, -, hs⟩ := bind_ok hs
        cases hs

/-- `q'` is `q` but for the vector of tree `treeId`. -/
structure Elsewhere (treeId : Nat) (q q' : ProximityQuery α) : Prop where
  qsample : q'.qsample = q.qsample
  size : q'.result.length = q.result.length
  other : ∀ j, j ≠ treeId → q'.result[j]? = q.result[j]?
  /-- Its cache is cold if it was. -/
  cold : (∀ v ∈ q.result, v.cache.2 = none) → ∀ v ∈ q'.result, v.cache.2 = none

theorem elsewhere_eval {treeId fuel id : Nat} {dist : α} {q q' q'' : ProximityQuery α}
    (hs : q'.eval fuel id dist treeId = .ok q'') (h : Elsewhere treeId q q') :
    Elsewhere treeId q q'' := by
  unfold ProximityQuery.eval at hs
  split at hs
  · cases hs
  · obtain ⟨v, hv, hs⟩ := bind_ok hs
    cases hs
    refine ⟨h.qsample, by rw [List.length_set, h.size], fun j hj => ?_, fun hcold w hw => ?_⟩
    · rw [List.getElem?_set_ne (Ne.symm hj), h.other j hj]
    · rcases List.mem_or_eq_of_mem_set hw with hw | rfl
      · exact h.cold hcold w hw
      · exact NNVector.eval_cache hv

/-! ### Every tree in turn -/

variable (M : Nat → Nat → α) (f k : Nat) (qsample : List α)

variable (euclidean) in
/-- Tree `j` has offered the samples of `pool j` to its vector, in some order. -/
structure Asked (ntree : Nat) (pool : Nat → List Nat) (q : ProximityQuery α) : Prop where
  sample : q.qsample = qsample
  size : q.result.length = ntree
  cold : ∀ v ∈ q.result, v.cache.2 = none
  seen : ∀ j, j < ntree → ∃ ids : List Nat, ids.Perm (pool j) ∧
    q.Seen j k (ids.map (entry euclidean M f qsample))

variable {M f k qsample} {n ntree : Nat} {colwise : Bool} {pool : Nat → List Nat}
  {q : ProximityQuery α} {forest : List (Heap (KdNode α))}

theorem asked_new (dataMax : α) (hk : k < 2 ^ 32) :
    Asked euclidean M f k qsample ntree (fun _ => []) (.new dataMax qsample k ntree) := by
  refine ⟨rfl, List.length_replicate, fun v hv => ?_, fun j hj => ⟨[], .nil, ?_⟩⟩
  · rw [List.eq_of_mem_replicate hv]
    rfl
  · exact ProximityQuery.seen_new dataMax qsample hk hj

theorem Asked.runQuery (h : Asked euclidean M f k qsample ntree pool q)
    (henv : ∀ tid, (env tid).io = .ofMatrix M n f colwise) (hn' : n < 2 ^ 32)
    (hq : qsample.length = f) (hf : 0 < f) {tid D dim : Nat} (ht : tid < ntree)
    {heap : Heap (KdNode α)} (hb : Built M n f D dim heap) :
    ∃ q', Returns (runQuery env euclidean tid heap q) q' ∧
      Asked euclidean M f k qsample ntree
        (Function.update pool tid (pool tid ++ List.range n)) q' := by
  obtain ⟨ids, hids, hseen⟩ := h.seen tid ht
  obtain ⟨q', ids', hret, hids', hseen'⟩ :=
    findNeighbors_returns (henv tid) hn' hq euclidean hb h.sample hseen
  have hne : ¬ q.qsample = [] := by
    rw [h.sample, ← List.length_eq_zero_iff, hq]
    omega
  obtain ⟨N, hN⟩ := hret
  have hrest : Elsewhere tid q q' := findNeighbors_keeps (P := Elsewhere tid q)
    (fun _ _ _ _ _ hs hP => elsewhere_eval hs hP) (hN N (le_refl N))
    ⟨rfl, rfl, fun _ _ => rfl, id⟩
  refine ⟨q', ⟨N, fun fuel hfuel => ?_⟩, hrest.qsample.trans h.sample, hrest.size.trans h.size,
    hrest.cold h.cold, fun j hj => ?_⟩
  · rw [KdTree.runQuery, if_neg hne]
    exact hN fuel hfuel
  · by_cases hj' : j = tid
    · subst hj'
      rw [Function.update_self]
      exact ⟨ids ++ ids', hids.append hids', by rwa [List.map_append]⟩
    · rw [Function.update_of_ne hj']
      obtain ⟨idsj, hidsj, v, hv, hvk, he⟩ := h.seen j hj
      exact ⟨idsj, hidsj, v, (hrest.other j hj').trans hv, hvk, he⟩

/-- A query offers each sample once to the vector of each tree. -/
theorem Asked.query {P : List Nat} (h : Asked euclidean M f k qsample forest.length (fun _ => P) q)
    (henv : ∀ tid, (env tid).io = .ofMatrix M n f colwise) (hn' : n < 2 ^ 32)
    (hq : qsample.length = f) (hf : 0 < f)
    (hforest : ∀ heap ∈ forest, ∃ D dim, Built M n f D dim heap) :
    ∃ q', Returns (query env euclidean forest q) q' ∧
      Asked euclidean M f k qsample forest.length (fun _ => P ++ List.range n) q' := by
  -- the trees before the one in turn have been asked once more
  have hstep : ∀ (pre : List (Heap (KdNode α) × Nat)) tree post q,
      forest.zipIdx = pre ++ tree :: post →
      Asked euclidean M f k qsample forest.length
        (fun j => if j < pre.length then P ++ List.range n else P) q →
      ∃ q', Returns (KdTree.runQuery env euclidean tree.2 tree.1 q) q' ∧
        Asked euclidean M f k qsample forest.length
          (fun j => if j < (pre ++ [tree]).length then P ++ List.range n else P) q' := by
    rintro pre ⟨heap, tid⟩ post q hsplit hpre
    have hat : forest.zipIdx[pre.length]? = some (heap, tid) := by
      rw [hsplit, List.getElem?_append_right (le_refl _), Nat.sub_self]
      rfl
    rw [List.getElem?_zipIdx] at hat
    obtain ⟨heap', hheap, hpair⟩ := Option.map_eq_some_iff.mp hat
    obtain ⟨rfl, rfl⟩ : heap' = heap ∧ pre.length = tid := by simpa using hpair
    obtain ⟨D, dim, hb⟩ := hforest heap' (List.mem_of_getElem? hheap)
    obtain ⟨q', hret, h'⟩ := hpre.runQuery henv hn' hq hf (List.getElem?_eq_some_iff.mp hheap).1 hb
    refine ⟨q', hret, h'.sample, h'.size, h'.cold, fun j hj => ?_⟩
    obtain ⟨ids, hids, hseen⟩ := h'.seen j hj
    refine ⟨ids, hids.trans (.of_eq ?_), hseen⟩
    rw [List.length_append, List.length_singleton]
    by_cases hj' : j = pre.length
    · subst hj'
      rw [Function.update_self, if_neg (lt_irrefl _), if_pos (Nat.lt_succ_self _)]
    · rw [Function.update_of_ne hj']
      exact if_congr (by omega) rfl rfl
  obtain ⟨q', hret, h'⟩ := foldlM_returns (fun fuel (tree : Heap (KdNode α) × Nat) q =>
    KdTree.runQuery env euclidean tree.2 tree.1 q fuel) forest.zipIdx _ hstep h
  refine ⟨q', hret, h'.sample, h'.size, h'.cold, fun j hj => ?_⟩
  obtain ⟨ids, hids, hseen⟩ := h'.seen j hj
  rw [List.length_zipIdx, if_pos hj] at hids
  exact ⟨ids, hids, hseen⟩

theorem Asked.queryTimes
    (h : Asked euclidean M f k qsample forest.length (fun _ => []) q)
    (henv : ∀ tid, (env tid).io = .ofMatrix M n f colwise) (hn' : n < 2 ^ 32)
    (hq : qsample.length = f) (hf : 0 < f)
    (hforest : ∀ heap ∈ forest, ∃ D dim, Built M n f D dim heap) (times : Nat) :
    ∃ q', Returns (queryTimes env euclidean forest times q) q' ∧
      Asked euclidean M f k qsample forest.length
        (fun _ => (List.replicate times (List.range n)).flatten) q' := by
  have hstep : ∀ (pre : List Nat) x post q, List.range times = pre ++ x :: post →
      Asked euclidean M f k qsample forest.length
        (fun _ => (List.replicate pre.length (List.range n)).flatten) q →
      ∃ q', Returns (KdTree.query env euclidean forest q) q' ∧
        Asked euclidean M f k qsample forest.length
          (fun _ => (List.replicate (pre ++ [x]).length (List.range n)).flatten) q' := by
    intro pre x post q _ hpre
    obtain ⟨q', hret, h'⟩ := hpre.query henv hn' hq hf hforest
    refine ⟨q', hret, ?_⟩
    rwa [List.length_append, List.length_singleton, List.replicate_succ', List.flatten_append,
      List.flatten_singleton]
  obtain ⟨q', hret, h'⟩ := foldlM_returns
    (fun fuel (_ : Nat) q => KdTree.query env euclidean forest q fuel) (List.range times) _ hstep h
  rw [List.length_range] at h'
  exact ⟨q', hret, h'⟩

end Query

/-! ## The answers -/

section Answers

variable {α : Type} [LinearOrder α]

/-- The `k` nearest of the samples of `pool`, at distances `d`. -/
structure NearestOf (d : Nat → α) (pool : List Nat) (k : Nat) (v : NNVector α) : Prop where
  entries : ∃ xs, v.Holds xs ∧ xs.map IndexVal.val = (stableSort id (pool.map d)).take k ∧
    (∀ e ∈ xs, e.val = d e.index) ∧ (xs.map IndexVal.index).Subperm pool

/-- Every tree has found the nearest neighbours, and the trees agree. -/
structure Agree (d : Nat → α) (pool : List Nat) (k ntree : Nat) (q : ProximityQuery α) : Prop where
  size : q.result.length = ntree
  nearest : ∀ v ∈ q.result, NearestOf d pool k v
  equal : ∀ (i j : Nat) (v w : NNVector α), i ≠ j → q.result[i]? = some v →
    q.result[j]? = some w → ∃ v' w', v.eqVector w = .ok (true, v', w')

theorem nearestOf_of_evaluated {d : Nat → α} {k : Nat} {v : NNVector α} {ids pool : List Nat}
    (hids : ids.Perm pool) (hk : v.k = k) (hv : v.Evaluated (ids.map fun i => ⟨i, d i⟩)) :
    NearestOf d pool k v := by
  set es : List (IndexVal α) := ids.map fun i => ⟨i, d i⟩ with hes
  have hperm := stableSort_perm IndexVal.val es
  refine ⟨(stableSort IndexVal.val es).take k, hk ▸ hv, ?_, fun e he => ?_, ?_⟩
  · rw [List.map_take, map_val_stableSort d hids]
  · obtain ⟨i, -, rfl⟩ := List.mem_map.mp (hperm.mem_iff.mp (List.mem_of_mem_take he))
    rfl
  · have hindex : es.map IndexVal.index = ids := by simp [hes, Function.comp_def]
    have hall : ((stableSort IndexVal.val es).map IndexVal.index).Perm pool :=
      ((hperm.map IndexVal.index).trans (.of_eq hindex)).trans hids
    exact ((List.take_sublist _ _).map IndexVal.index).subperm.trans hall.subperm

theorem NearestOf.eqVector {d : Nat → α} {pool : List Nat} {k : Nat} {v w : NNVector α}
    (hv : NearestOf d pool k v) (hw : NearestOf d pool k w) (hcv : v.cache.2 = none)
    (hcw : w.cache.2 = none) : ∃ v' w', v.eqVector w = .ok (true, v', w') := by
  obtain ⟨xs, hxs, hvals, -, -⟩ := hv.entries
  obtain ⟨ys, hys, hvals', -, -⟩ := hw.entries
  obtain ⟨as, hacc⟩ := hxs.accessible hcv
  obtain ⟨bs, hacc'⟩ := hys.accessible hcw
  obtain ⟨b, v', w', heq, hb⟩ := hacc.eqVector_ok hacc'
  obtain rfl : b = true := hb.mpr (hvals'.trans hvals.symm)
  exact ⟨v', w', heq⟩

variable {euclidean : List α → List α → α} {M : Nat → Nat → α} {f k ntree : Nat} {qsample : List α}

theorem Asked.agree {P : List Nat} {q : ProximityQuery α}
    (h : Asked euclidean M f k qsample ntree (fun _ => P) q) :
    Agree (fun i => euclidean qsample (row M f i)) P k ntree q := by
  have hnear : ∀ v ∈ q.result, NearestOf (fun i => euclidean qsample (row M f i)) P k v := by
    intro v hv
    obtain ⟨j, hj⟩ := List.mem_iff_getElem?.mp hv
    obtain ⟨ids, hids, w, hw, hk, he⟩ := h.seen j (h.size ▸ (List.getElem?_eq_some_iff.mp hj).1)
    cases hj.symm.trans hw
    exact nearestOf_of_evaluated hids hk he
  refine ⟨h.size, hnear, fun i j v w _ hv hw => ?_⟩
  have hv' := List.mem_of_getElem? hv
  have hw' := List.mem_of_getElem? hw
  exact (hnear v hv').eqVector (hnear w hw') (h.cold v hv') (h.cold w hw')

variable [Zero α] {colwise : Bool}

/-- An engine on a file of samples, from its creation to the answers. The unit gets the samples.
    Whatever the threads do in training, no tree faults; and once all are trained, a query object
    has for each tree the nearest samples, and the trees' vectors are equal. -/
theorem forest_answers (c : Codec α dtypeSize) {l : Launch} (hl : l.Stores c M colwise)
    (hn : 1 ≤ l.params.nsamples) (hn' : l.params.nsamples < 2 ^ 32) (ht : 0 < l.params.ntree) :
    ∃ u, ComputeEngine.createTrees c l none = .ok (some u) ∧
      ∀ (env : Nat → KdEnv α) (draw : Draw l.params.nfeatures) (nthread : Nat)
        (trees trees' : List (BuildRun α)), (∀ tid, (env tid).io = u.view) →
        startTrain env draw nthread l.params.ntree = .ok trees →
        Lib.Reachable (trainStep env) trees trees' →
        ∃ forest, trees'.map (fun tree => tree.training.heap) = forest.map .ok ∧
          ((∀ tree ∈ trees', tree.pc = .returned) →
            ∀ (euclidean : List α → List α → α) (dataMax : α) (qsample : List α) (k times : Nat),
              qsample.length = l.params.nfeatures → k < 2 ^ 15 →
              ∃ q, Returns (queryTimes env euclidean forest times
                  (.new dataMax qsample k l.params.ntree)) q ∧
                Agree (fun i => euclidean qsample (row M l.params.nfeatures i))
                  (List.replicate times (List.range l.params.nsamples)).flatten k l.params.ntree
                  q) := by
  obtain ⟨u, hu, hview⟩ := hl.createTrees ht
  refine ⟨u, hu, fun env draw nthread trees trees' henv hstart hreach => ?_⟩
  have henv' : ∀ tid, (env tid).io =
      .ofMatrix M l.params.nsamples l.params.nfeatures colwise := fun tid => (henv tid).trans hview
  obtain ⟨hlen, hinv⟩ := trees_inv henv' hn hn' hstart hreach
  -- no tree has faulted
  obtain ⟨forest, hforest⟩ : ∃ forest : List (Heap (KdNode α)),
      trees'.map (fun tree => tree.training.heap) = forest.map .ok := by
    refine ⟨trees'.map fun tree => tree.training.heap.toOption.getD .empty, ?_⟩
    rw [List.map_map]
    refine List.map_congr_left fun tree htree => ?_
    obtain ⟨tid, htid⟩ := List.mem_iff_getElem?.mp htree
    obtain ⟨dim, r, -, hi⟩ := hinv tid tree htid
    obtain ⟨heap, hheap⟩ := hi.heap_ok
    show tree.training.heap = .ok (tree.training.heap.toOption.getD .empty)
    rw [hheap]
    rfl
  refine ⟨forest, hforest, fun hret euclidean dataMax qsample k times hq hk => ?_⟩
  have hsize : forest.length = l.params.ntree := by
    have hl := congrArg List.length hforest
    rw [List.length_map, List.length_map] at hl
    omega
  have hbuilt : ∀ heap ∈ forest, (∃ D dim,
      Built M l.params.nsamples l.params.nfeatures D dim heap) ∧ 0 < l.params.nfeatures := by
    intro heap hheap
    have hmem : .ok heap ∈ trees'.map fun tree => tree.training.heap :=
      hforest ▸ List.mem_map_of_mem hheap
    obtain ⟨tree, htree, hh⟩ := List.mem_map.mp hmem
    obtain ⟨tid, htid⟩ := List.mem_iff_getElem?.mp htree
    obtain ⟨dim, r, hdim, hi⟩ := hinv tid tree htid
    exact ⟨⟨_, dim, hi.built (hret tree htree) hh⟩, by omega⟩
  have hf : 0 < l.params.nfeatures := by
    obtain ⟨heap, hheap⟩ := List.exists_mem_of_length_pos (hsize ▸ ht)
    exact (hbuilt heap hheap).2
  have hasked : Asked euclidean M l.params.nfeatures k qsample forest.length (fun _ => [])
      (.new dataMax qsample k forest.length) := asked_new dataMax (hk.trans (by decide))
  obtain ⟨q, hq', h⟩ := hasked.queryTimes henv' hn' hq hf (fun heap hheap => (hbuilt heap hheap).1)
    times
  rw [hsize] at hq' h
  exact ⟨q, hq', h.agree⟩

/-- A number below 256, padded to the size of a value. -/
def smallCodec : Codec (Fin 256) dtypeSize where
  encode x := [UInt8.ofNat x, 0, 0, 0]
  decode bs := Fin.ofNat 256 (bs.headD 0).toNat
  length_encode _ := rfl
  decode_encode x := Fin.ext (by simp)

/-- The values of two samples of two features. -/
def twoRows (i j : Nat) : Fin 256 :=
  if i = 0 then if j = 0 then 7 else 1 else if j = 0 then 3 else 9

/-- A forest of two trees, on a raw file of the two samples. -/
def twoLaunch : Launch :=
  ⟨⟨2, 2, "a.bin", 2, .row⟩, fun _ => some [7, 0, 0, 0, 1, 0, 0, 0, 3, 0, 0, 0, 9, 0, 0, 0],
    (ComputeEngine.launchOn "a.bin").junk⟩

/-- The unit of the engine. -/
def twoUnit : MemoryUnit (Fin 256) :=
  ⟨"a.bin", some (smallCodec.elem ([7, 0, 0, 0, 1, 0, 0, 0, 3, 0, 0, 0, 9, 0, 0, 0].map some)),
    .row, (2, 2), true⟩

def twoEnv : KdEnv (Fin 256) where
  io := twoUnit.view
  sorter :=
    { sort _ _ xs := xs.insertionSort fun a b => a.val ≤ b.val
      perm _ _ xs := xs.perm_insertionSort _
      sorted _ _ xs :=
        have : Std.Total fun a b : IndexVal (Fin 256) => a.val ≤ b.val :=
          ⟨fun a b => le_total a.val b.val⟩
        have : IsTrans (IndexVal (Fin 256)) fun a b => a.val ≤ b.val :=
          ⟨fun _ _ _ => le_trans⟩
        List.pairwise_insertionSort _ xs }
  maxDepth := 1
  uninit _ := 0
  dataMax := 255
  dataMin := 0

/-- Each tree splits its root by a feature of its own, trains its children and is done. -/
def twoTrees : List (Nat × BuildLabel) := twoSamples.map (0, ·) ++ twoSamples.map (1, ·)

/-- How far the first features of two samples are apart. -/
def firstGap (x y : List (Fin 256)) : Fin 256 :=
  max (x.headD 0) (y.headD 0) - min (x.headD 0) (y.headD 0)

/-- Of the samples at the distances 1 and 3 both trees find the first, also when they are asked
    twice. -/
theorem forest_answers_two :
    ∃ forest q, Returns (queryTimes (fun _ => twoEnv) firstGap forest 2
        (.new 255 [6, 8] (1 : Nat) 2)) q ∧
      Agree (fun i => firstGap [6, 8] (row twoRows 2 i)) [0, 1, 0, 1] 1 2 q := by
  have hstores : twoLaunch.Stores smallCodec twoRows false :=
    ⟨by decide, rfl, [], .inr ⟨by decide, rfl⟩⟩
  obtain ⟨u, hu, hall⟩ := forest_answers smallCodec hstores (by decide) (by decide) (by decide)
  have hunit : ComputeEngine.createTrees smallCodec twoLaunch none = .ok (some twoUnit) := rfl
  cases hunit.symm.trans hu
  have hstart : startTrain (fun _ => twoEnv) (0 : Draw 2) 2 2 =
      .ok [.start twoEnv 1 0, .start twoEnv 1 1] := rfl
  have hrun : (run (trainStep fun _ => twoEnv) twoTrees
      [.start twoEnv 1 0, .start twoEnv 1 1]).map (fun trees => trees.map BuildRun.pc) =
        some [.returned, .returned] := by
    decide +kernel
  obtain ⟨trees', hrun, hpcs⟩ := Option.map_eq_some_iff.mp hrun
  obtain ⟨forest, -, hq⟩ := hall (fun _ => twoEnv) 0 2 _ trees' (fun _ => rfl) hstart
    ⟨twoTrees, hrun⟩
  have hret : ∀ tree ∈ trees', tree.pc = .returned := fun tree htree => by
    have hmem := List.mem_map_of_mem (f := BuildRun.pc) htree
    rw [hpcs] at hmem
    simpa using hmem
  obtain ⟨q, hret, hagree⟩ := hq hret firstGap 255 [6, 8] 1 2 rfl (by decide)
  exact ⟨forest, q, hret, hagree⟩

end Answers

end KdTree

end Monya
