/-
  The roots of the forest, as `main` of `examples/kdtree.cpp` makes them.

  The split dimension of the first tree is drawn by `RandomSplit`, and each further tree gets the
  next one, in a cycle (`cunsigned`). The distribution is made with the limits 0 and `nfeatures`,
  both inclusive, so it can return `nfeatures`, which the constructor of `cunsigned` refuses. Both
  arguments of that constructor are `unsigned`, the draw and `nfeatures` are `size_t`.

  `initRoots_distinct_iff`: the trees get distinct valid dimensions exactly if the draw is below
  `nfeatures` (as `unsigned`s), and there are not more trees than dimensions left by the conversion.
-/
import Monya.Examples.KdBuild

namespace Monya.KdTree

open Monya.Lib Monya.Structures

variable {α : Type} [LinearOrder α]

/-- What `RandomSplit(nfeatures)::generate()` can return. -/
abbrev Draw (nfeatures : Nat) := Fin (nfeatures + 1)

/-- One pass of the loop over the forest: tree `tid` gets its root. -/
def initRoot (env : Nat → KdEnv α) (s : CUnsigned × List (Scheduler × TreeState α)) (tid : Nat) :
    CUnsigned × List (Scheduler × TreeState α) :=
  (s.1.inc, s.2 ++ [init (env tid) s.1.val])

/-- The tree programs of the forest after the root initialisation. -/
def initRoots (env : Nat → KdEnv α) {nfeatures : Nat} (draw : Draw nfeatures) (ntree : Nat) :
    Except Fault (List (Scheduler × TreeState α)) := do
  let splitDim ← CUnsigned.newAt (draw % 2 ^ 32) (nfeatures % 2 ^ 32)
  return ((List.range ntree).foldl (initRoot env) (splitDim, [])).2

/-- The split dimension of the root of a tree. -/
def rootDim (s : Scheduler × TreeState α) : Option Nat := (s.2.heap.cell 0).map KdNode.splitDim

theorem rootDim_init (env : KdEnv α) (splitDim : Nat) :
    rootDim (init env splitDim) = some splitDim := rfl

/-- Every tree has a split dimension below `nfeatures`, and no two have the same. -/
structure DistinctRoots (nfeatures ntree : Nat) (trees : List (Scheduler × TreeState α)) :
    Prop where
  size : trees.length = ntree
  valid : ∀ tree ∈ trees, ∃ d, rootDim tree = some d ∧ d < nfeatures
  distinct : (trees.map rootDim).Nodup

/-- The loop counts on from the drawn dimension. -/
theorem initRoot_fold (env : Nat → KdEnv α) (c : CUnsigned) (ntree : Nat) :
    ((List.range ntree).foldl (initRoot env) (c, [])).1.max = c.max ∧
    ((List.range ntree).foldl (initRoot env) (c, [])).1.val = (c.val + ntree) % c.max ∧
    ((List.range ntree).foldl (initRoot env) (c, [])).2 =
      (List.range ntree).map fun tid => init (env tid) ((c.val + tid) % c.max) := by
  induction ntree with
  | zero => exact ⟨rfl, (Nat.mod_eq_of_lt c.lt).symm, rfl⟩
  | succ ntree ih =>
    obtain ⟨hmax, hval, htrees⟩ := ih
    rw [List.range_succ, List.foldl_append, List.map_append]
    simp only [List.foldl_cons, List.foldl_nil, initRoot]
    refine ⟨(CUnsigned.inc_max _).trans hmax, ?_, ?_⟩
    · rw [CUnsigned.inc_val, hval, hmax, Nat.mod_add_mod, Nat.add_assoc]
    · rw [htrees, hval]
      rfl

/-- Dimensions counted in a cycle repeat exactly when there are more trees than dimensions. -/
theorem nodup_cycle_iff {v max ntree : Nat} (hv : v < max) :
    ((List.range ntree).map fun tid => some ((v + tid) % max)).Nodup ↔ ntree ≤ max := by
  constructor
  · intro h
    by_contra hlt
    -- tree `max` is back at the dimension of tree 0
    have hinj := List.inj_on_of_nodup_map h (List.mem_range.mpr (show 0 < ntree by omega))
      (List.mem_range.mpr (show max < ntree by omega))
    have hzero : 0 = max := hinj (by rw [Nat.add_zero, Nat.add_mod_right])
    omega
  · intro hle
    refine List.Nodup.map_on (fun i hi j hj hij => ?_) List.nodup_range
    have hi' := List.mem_range.mp hi
    have hj' := List.mem_range.mp hj
    have hmod : i % max = j % max := Nat.ModEq.add_left_cancel' v (Option.some.inj hij)
    rwa [Nat.mod_eq_of_lt (by omega), Nat.mod_eq_of_lt (by omega)] at hmod

/-- The root initialisation gives every tree a valid dimension of its own exactly if the draw is
    below `nfeatures` as `unsigned`s, and so many dimensions are enough for the trees. Below
    `2 ^ 32` features, and with fewer trees than features, the draw decides. -/
theorem initRoots_distinct_iff (env : Nat → KdEnv α) {nfeatures : Nat} (draw : Draw nfeatures)
    (ntree : Nat) :
    (∃ trees, initRoots env draw ntree = .ok trees ∧ DistinctRoots nfeatures ntree trees) ↔
      draw.val % 2 ^ 32 < nfeatures % 2 ^ 32 ∧ ntree ≤ nfeatures % 2 ^ 32 := by
  by_cases hlt : draw.val % 2 ^ 32 < nfeatures % 2 ^ 32
  · obtain ⟨-, -, htrees⟩ := initRoot_fold env ⟨draw % 2 ^ 32, nfeatures % 2 ^ 32, hlt⟩ ntree
    have hok : initRoots env draw ntree = .ok ((List.range ntree).map fun tid =>
        init (env tid) ((draw % 2 ^ 32 + tid) % (nfeatures % 2 ^ 32))) := by
      unfold initRoots CUnsigned.newAt
      rw [if_neg (by omega), dif_pos hlt, ok_bind, htrees]
      rfl
    have hdims : ((List.range ntree).map fun tid =>
        init (env tid) ((draw % 2 ^ 32 + tid) % (nfeatures % 2 ^ 32))).map rootDim =
        (List.range ntree).map fun tid =>
          some ((draw % 2 ^ 32 + tid) % (nfeatures % 2 ^ 32)) := by
      rw [List.map_map]
      rfl
    rw [and_iff_right hlt, ← nodup_cycle_iff hlt, ← hdims]
    constructor
    · rintro ⟨trees, htrees, h⟩
      obtain rfl := Except.ok.inj (hok.symm.trans htrees)
      exact h.distinct
    · intro h
      refine ⟨_, hok, by simp, fun tree htree => ?_, h⟩
      obtain ⟨tid, -, rfl⟩ := List.mem_map.mp htree
      refine ⟨_, rootDim_init _ _, lt_of_lt_of_le (Nat.mod_lt _ (by omega)) (Nat.mod_le _ _)⟩
  · refine iff_of_false ?_ fun h => hlt h.1
    rintro ⟨trees, htrees, -⟩
    unfold initRoots CUnsigned.newAt at htrees
    split at htrees
    · cases htrees
    · cases htrees

/-- Three features, one tree, and the draw 3: the constructor of `cunsigned` throws. -/
theorem initRoots_draw_three :
    initRoots (fun _ => rampEnv 1 0) (3 : Draw 3) 1 = .error (.thrown "val must be < max") := rfl

end Monya.KdTree
