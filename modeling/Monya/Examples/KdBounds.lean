/-
  The bounds of a node (`kdnode::compute_bounds` in `examples/kdtree.cpp`).

  Each bound is a running extremum. The lower ones start at the largest `float` there is, so they
  end at the minimum. The upper ones start at `std::numeric_limits<float>::min()`, which is the
  smallest positive `float` and not the lowest, so a feature that is below it at all samples of the
  node keeps it as its upper bound (`run_bounds_iff`).
-/
import Monya.Examples.KdNode

namespace Monya.KdNode

open Monya.Lib

/-! ## An extremum with a start value -/

section Extremum

variable {α : Type} [LinearOrder α] {s : Set α} {a b : α}

/-- The start value makes no difference if it is not above everything else. -/
theorem isGreatest_iff_of_insert (h : IsGreatest (insert a s) b) :
    IsGreatest s b ↔ ∃ x ∈ s, a ≤ x := by
  constructor
  · intro hs
    exact ⟨b, hs.1, h.2 (Set.mem_insert a s)⟩
  · rintro ⟨x, hx, hax⟩
    have hxb : x ≤ b := h.2 (Set.mem_insert_of_mem a hx)
    refine ⟨?_, fun y hy => h.2 (Set.mem_insert_of_mem a hy)⟩
    rcases h.1 with rfl | hb
    · rwa [le_antisymm hax hxb]
    · exact hb

theorem isLeast_iff_of_insert (h : IsLeast (insert a s) b) : IsLeast s b ↔ ∃ x ∈ s, x ≤ a :=
  isGreatest_iff_of_insert (α := αᵒᵈ) h

end Extremum

/-! ## The loops -/

variable {α : Type} [LinearOrder α] {env : KdEnv α} {M : Nat → Nat → α} {n f : Nat}
  {colwise : Bool}

/-- The values of feature `j` at the samples `ids`. -/
def featureVals (M : Nat → Nat → α) (ids : List Nat) (j : Nat) : Set α := {x | ∃ i ∈ ids, M i j = x}

omit [LinearOrder α] in
theorem featureVals_append (ids : List Nat) (i j : Nat) :
    featureVals M (ids ++ [i]) j = insert (M i j) (featureVals M ids j) := by
  ext x
  simp only [featureVals, Set.mem_ofPred_eq, Set.mem_insert_iff, List.mem_append,
    List.mem_singleton]
  constructor
  · rintro ⟨i', hi' | rfl, rfl⟩
    · exact Or.inr ⟨i', hi', rfl⟩
    · exact Or.inl rfl
  · rintro (rfl | ⟨i', hi', rfl⟩)
    · exact ⟨i, Or.inr rfl, rfl⟩
    · exact ⟨i', Or.inl hi', rfl⟩

/-- The bounds with the samples `ids` behind them. -/
structure BoundsOf (env : KdEnv α) (M : Nat → Nat → α) (f : Nat) (ids : List Nat)
    (lo hi : Nat → α) : Prop where
  lower : ∀ j, IsLeast (insert env.dataMax (featureVals M ids j)) (lo j)
  upper : ∀ j, IsGreatest (insert env.dataMin (featureVals M ids j)) (hi j)

theorem widen_map (lo hi s : Nat → α) :
    widen ((List.range f).map lo, (List.range f).map hi) ((List.range f).map s) =
      ((List.range f).map fun j => min (s j) (lo j),
        (List.range f).map fun j => max (s j) (hi j)) := by
  unfold widen
  simp only [List.zipWith_map, List.zipWith_self, min_def_lt, max_comm (s _), max_def_lt]

theorem BoundsOf.widen {ids : List Nat} {lo hi : Nat → α} (h : BoundsOf env M f ids lo hi)
    (i : Nat) :
    BoundsOf env M f (ids ++ [i]) (fun j => min (M i j) (lo j)) fun j => max (M i j) (hi j) := by
  constructor
  · intro j
    rw [featureVals_append, Set.insert_comm]
    exact (h.lower j).insert (M i j)
  · intro j
    rw [featureVals_append, Set.insert_comm]
    exact (h.upper j).insert (M i j)

/-- `compute_bounds` leaves the extrema of the samples and the two start values. -/
theorem computeBounds_bounds (henv : env.io = .ofMatrix M n f colwise) (k : KdNode α)
    (hids : ∀ i ∈ k.ids, i < n) :
    ∃ lo hi, computeBounds env k = .ok { k with
        lowerBounds := (List.range f).map lo
        upperBounds := (List.range f).map hi } ∧ BoundsOf env M f k.ids lo hi := by
  obtain ⟨b, hrun, lo, hi, rfl, hb⟩ := foldlM_history (boundsStep env) k.dataIndex.items
    (fun pre b => ∃ lo hi, b = ((List.range f).map lo, (List.range f).map hi) ∧
      BoundsOf env M f (pre.map IndexVal.index) lo hi)
    (s := (List.replicate env.io.nfeatures env.dataMax,
      List.replicate env.io.nfeatures env.dataMin))
    (fun pre iv post b hitems hb => by
      obtain ⟨lo, hi, rfl, hb⟩ := hb
      have hiv : iv.index < n := hids iv.index (List.mem_map_of_mem (by rw [hitems]; simp))
      refine ⟨_, boundsStep_ok henv hiv _, _, _, widen_map lo hi (M iv.index), ?_⟩
      rw [List.map_append]
      exact hb.widen iv.index)
    ⟨fun _ => env.dataMax, fun _ => env.dataMin, by simp [henv, MemoryIO.ofMatrix],
      fun j => by simp [featureVals], fun j => by simp [featureVals]⟩
  refine ⟨lo, hi, ?_, hb⟩
  unfold computeBounds
  rw [hrun]
  rfl

/-! ## The bounding box -/

/-- The bounds are the bounding box of the node's samples. -/
structure ExactBounds (M : Nat → Nat → α) (f : Nat) (k : KdNode α) : Prop where
  lower : ∀ j, j < f → ∃ b, k.lowerBounds[j]? = some b ∧ IsLeast (featureVals M k.ids j) b
  upper : ∀ j, j < f → ∃ b, k.upperBounds[j]? = some b ∧ IsGreatest (featureVals M k.ids j) b

theorem BoundsOf.exact_iff {k : KdNode α} {lo hi : Nat → α} (h : BoundsOf env M f k.ids lo hi)
    (hlo : k.lowerBounds = (List.range f).map lo) (hhi : k.upperBounds = (List.range f).map hi)
    (hne : k.ids ≠ []) (hmax : ∀ i ∈ k.ids, ∀ j, j < f → M i j ≤ env.dataMax) :
    ExactBounds M f k ↔ ∀ j, j < f → ∃ i ∈ k.ids, env.dataMin ≤ M i j := by
  have hget : ∀ (g : Nat → α) j, j < f → ((List.range f).map g)[j]? = some (g j) := by
    intro g j hj
    rw [List.getElem?_map, List.getElem?_range hj, Option.map_some]
  constructor
  · intro hx j hj
    obtain ⟨b, hb, hgr⟩ := hx.upper j hj
    rw [hhi, hget hi j hj] at hb
    obtain rfl := Option.some.inj hb
    obtain ⟨x, ⟨i, hi, rfl⟩, hle⟩ := (isGreatest_iff_of_insert (h.upper j)).mp hgr
    exact ⟨i, hi, hle⟩
  · intro hx
    constructor
    · intro j hj
      obtain ⟨i, hi⟩ := List.exists_mem_of_ne_nil _ hne
      refine ⟨lo j, by rw [hlo, hget lo j hj], (isLeast_iff_of_insert (h.lower j)).mpr ?_⟩
      exact ⟨M i j, ⟨i, hi, rfl⟩, hmax i hi j hj⟩
    · intro j hj
      obtain ⟨i, hmem, hle⟩ := hx j hj
      refine ⟨hi j, by rw [hhi, hget hi j hj], (isGreatest_iff_of_insert (h.upper j)).mpr ?_⟩
      exact ⟨M i j, ⟨i, hmem, rfl⟩, hle⟩

variable (env) in
/-- `run`, with the sorted entries of the node as `items`. -/
theorem run_eq (this : Nat) (k : KdNode α) :
    ∃ items : List (IndexVal α), items.Perm k.dataIndex.items ∧ run env this k = (do
      let iv ← (⟨items, k.dataIndex.sorted⟩ : IndexVector α).get (k.size / 2)
      computeBounds env { k with
        dataIndex := ⟨items, k.dataIndex.sorted⟩
        comparator := iv.val }) := by
  have hperm := env.sorter.perm (decide (k.depth < 3)) this k.dataIndex.items
  refine ⟨_, hperm, ?_⟩
  unfold run
  simp only [IndexVector.size, hperm.length_eq]
  rfl

/-- A node with so many samples that the index of the median is negative as an `int`. -/
theorem run_raises (this : Nat) {k : KdNode α} (hint : ¬ (k.size / 2) % 2 ^ 32 < 2 ^ 31) :
    run env this k = .error .outOfBounds := by
  obtain ⟨items, -, hrun⟩ := run_eq env this k
  rw [hrun]
  simp only [IndexVector.get, intIndex, if_neg hint]
  rfl

theorem run_bounds_ok (henv : env.io = .ofMatrix M n f colwise) (this : Nat) {k : KdNode α}
    (hpos : 0 < k.size) (hint : (k.size / 2) % 2 ^ 32 < 2 ^ 31) (hids : ∀ i ∈ k.ids, i < n) :
    ∃ k' lo hi, run env this k = .ok k' ∧ k'.ids.Perm k.ids ∧
      k'.lowerBounds = (List.range f).map lo ∧ k'.upperBounds = (List.range f).map hi ∧
      BoundsOf env M f k'.ids lo hi := by
  obtain ⟨items, hperm, hrun⟩ := run_eq env this k
  have hlen : items.length = k.size := hperm.length_eq
  have hlt : (k.size / 2) % 2 ^ 32 < items.length := by
    have := Nat.mod_le (k.size / 2) (2 ^ 32)
    omega
  have hget : (⟨items, k.dataIndex.sorted⟩ : IndexVector α).get (k.size / 2) =
      .ok items[(k.size / 2) % 2 ^ 32] := by
    simp only [IndexVector.get, intIndex, if_pos hint]
    refine Buf.get_ok ?_
    rw [Buf.ofList, Nat.zero_add, List.getElem?_eq_getElem hlt]
  obtain ⟨lo, hi, hb, hbounds⟩ := computeBounds_bounds henv
    { k with
      dataIndex := ⟨items, k.dataIndex.sorted⟩
      comparator := items[(k.size / 2) % 2 ^ 32].val }
    fun i hi => hids i ((hperm.map _).mem_iff.mp hi)
  rw [hget, ok_bind, hb] at hrun
  exact ⟨_, lo, hi, hrun, hperm.map _, rfl, rfl, hbounds⟩

/-- After `run` the bounds of a node are the bounding box of its samples exactly if every feature
    has a sample of the node where it is at least the start value `dataMin` (the node being small
    enough for `run` to find its median). -/
theorem run_bounds_iff (henv : env.io = .ofMatrix M n f colwise) (this : Nat) {k : KdNode α}
    (hpos : 0 < k.size) (hids : ∀ i ∈ k.ids, i < n)
    (hmax : ∀ i, i < n → ∀ j, j < f → M i j ≤ env.dataMax) :
    (∃ k', run env this k = .ok k' ∧ k'.ids.Perm k.ids ∧ ExactBounds M f k') ↔
      (k.size / 2) % 2 ^ 32 < 2 ^ 31 ∧ ∀ j, j < f → ∃ i ∈ k.ids, env.dataMin ≤ M i j := by
  by_cases hint : (k.size / 2) % 2 ^ 32 < 2 ^ 31
  · obtain ⟨k₁, lo, hi, hrun, hperm, hlo, hhi, hb⟩ := run_bounds_ok henv this hpos hint hids
    have hne : k₁.ids ≠ [] := by
      intro h0
      have := hperm.length_eq
      rw [h0, List.length_nil, length_ids] at this
      omega
    have hiff := hb.exact_iff hlo hhi hne fun i hi => hmax i (hids i (hperm.mem_iff.mp hi))
    simp only [hperm.mem_iff] at hiff
    constructor
    · rintro ⟨k', hk', -, hx⟩
      obtain rfl := Except.ok.inj (hrun.symm.trans hk')
      exact ⟨hint, hiff.mp hx⟩
    · rintro ⟨-, hx⟩
      exact ⟨k₁, hrun, hperm, hiff.mpr hx⟩
  · constructor
    · rintro ⟨k', hk', -⟩
      rw [run_raises this hint] at hk'
      cases hk'
    · rintro ⟨h, -⟩
      exact absurd h hint

/-! ## Small nodes -/

/-- One sample with one feature. The start values are those of a type with the values `-9, …, 9`,
    of which 1 is the smallest positive one. -/
def pointEnv (x : Int) : KdEnv Int where
  io := .ofMatrix (fun _ _ => x) 1 1 false
  sorter := stableSorter
  maxDepth := 0
  uninit _ := 0
  dataMax := 9
  dataMin := 1

/-- A node that holds the sample. -/
def pointNode (x : Int) : KdNode Int := { new 0 with dataIndex := ⟨[⟨0, x⟩], false⟩ }

/-- Two samples with one feature, the first below the smallest positive value. -/
def mixed (i _ : Nat) : Int := if i = 0 then -3 else 5

def mixedEnv : KdEnv Int := { pointEnv 0 with io := .ofMatrix mixed 2 1 false }

def mixedNode : KdNode Int := { new 0 with dataIndex := ⟨[⟨0, -3⟩, ⟨1, 5⟩], false⟩ }

/-- The positive value is enough for the box of both. -/
theorem run_bounds_mixed :
    ∃ k', run mixedEnv 0 mixedNode = .ok k' ∧ k'.ids.Perm mixedNode.ids ∧
      ExactBounds mixed 1 k' :=
  have henv : mixedEnv.io = .ofMatrix mixed 2 1 false := rfl
  (run_bounds_iff henv 0 (by decide) (by decide) (by decide)).mpr
    ⟨by decide, fun _ _ => ⟨1, by decide, show (1 : Int) ≤ 5 by decide⟩⟩

/-- A negative value leaves its node with the upper bound 1. -/
theorem run_bounds_negative :
    ¬ ∃ k', run (pointEnv (-3)) 0 (pointNode (-3)) = .ok k' ∧
      k'.ids.Perm (pointNode (-3)).ids ∧ ExactBounds (fun _ _ => (-3 : Int)) 1 k' := by
  rintro ⟨k', hk', -, hx⟩
  have henv : (pointEnv (-3)).io = .ofMatrix (fun _ _ => (-3 : Int)) 1 1 false := rfl
  have hpos : 0 < (pointNode (-3)).size := by decide
  obtain ⟨k₁, lo, hi, hrun, hperm, hlo, hhi, hb⟩ :=
    run_bounds_ok henv 0 hpos (by decide) (by decide)
  obtain rfl := Except.ok.inj (hrun.symm.trans hk')
  -- the start value is above the only sample, so it is the greatest of the two
  obtain ⟨b, hget, ⟨i, -, rfl⟩, -⟩ := hx.upper 0 (by decide)
  have hle : (1 : Int) ≤ hi 0 := (hb.upper 0).2 (Set.mem_insert _ _)
  rw [hhi] at hget
  have hval : hi 0 = -3 := Option.some.inj hget
  omega

end Monya.KdNode
