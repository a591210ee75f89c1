/-
  `BinaryTreeProgram::build` (`BinaryTreeProgram.hpp`) with `kdnode` nodes.

  `build` schedules the root and then goes round: it spawns the nodes of the last level that was
  run, and schedules their children, until a round has spawned nothing or has reached the depth
  limit. Scheduling a node may run a level, so a round reads each node again for its right child.

  The state is the heap of nodes and a log of what has been done to them. The log is not in the
  source; it is there to say how often a node has been spawned or trained.
-/
import Mathlib.Data.List.Sort
import Monya.Examples.KdNode
import Monya.Structures.Scheduler

namespace Monya

open Monya.Lib Monya.Structures

/-- What happens to a node, for the statements about whole builds. -/
inductive Event where
  | spawn (node : Nat)
  | prep (node : Nat)
  | run (node : Nat)
  deriving DecidableEq, Repr

/-- The nodes of a tree, and what has been done to them. -/
structure TreeState (α : Type) where
  heap : Heap (KdNode α)
  log : List Event

namespace KdTree

variable {α : Type} [LinearOrder α] [Zero α] (env : KdEnv α)

/-- What a worker does with a node it has dequeued: `prep`, then `run`. -/
def train (x : Nat) (st : TreeState α) : Except Fault (TreeState α) := do
  let k ← KdNode.prep env (← st.heap.read x)
  let k ← KdNode.run env x k
  return ⟨← st.heap.modify x fun _ => k, st.log ++ [.prep x, .run x]⟩

/-- The body of the first loop of `build`, with `one_spawned`. -/
def spawnStep (acc : TreeState α × Bool) (x : Nat) : Except Fault (TreeState α × Bool) := do
  let k ← acc.1.heap.read x
  if k.depth < env.maxDepth ∧ 1 < k.size then
    return (⟨← KdNode.spawn env x acc.1.heap, acc.1.log ++ [.spawn x]⟩, true)
  else return acc

/-- `if (p) scheduler->schedule(p)`. -/
def scheduleChild (p : Ptr) (s : Scheduler × TreeState α) :
    Except Fault (Scheduler × TreeState α) :=
  match p with
  | none => return s
  | some a => Scheduler.schedule (train env) a s

/-- The body of the second loop of `build`. -/
def scheduleChildren (s : Scheduler × TreeState α) (x : Nat) :
    Except Fault (Scheduler × TreeState α) := do
  let s ← scheduleChild env (← s.2.heap.read x).left s
  scheduleChild env (← s.2.heap.read x).right s

/-- One round of `build`. -/
def buildStep : Scheduler × TreeState α →
    Except Fault (Pass (Scheduler × TreeState α) (Scheduler × TreeState α))
  | (sched, st) => do
      let procdLevel := sched.currentLevel - 1
      if ¬ procdLevel ≤ env.maxDepth then .error .assertion
      else
        let procdNodes ← sched.getNodes procdLevel
        let (st, oneSpawned) ← procdNodes.foldlM (spawnStep env) (st, false)
        if procdLevel = env.maxDepth ∨ oneSpawned = false then return .done (sched, st)
        else
          let s ← procdNodes.foldlM (scheduleChildren env) (sched, st)
          return .next s

def build (fuel : Nat) (root : Nat) (s : Scheduler × TreeState α) :
    Except Fault (Scheduler × TreeState α) := do
  let s ← Scheduler.schedule (train env) root s
  loop (buildStep env) fuel s

/-- The tree program before `build`: `main` has made the root, at address 0, and set its split
    dimension. -/
def init (splitDim : Nat) : Scheduler × TreeState α :=
  (.new 2, ⟨Heap.empty.alloc (((KdNode.new (env.uninit 0)).setSplitDim splitDim).setIndex splitDim),
    []⟩)

end KdTree

/-! ## A small input -/

/-- Insertion sort, as a library's sort. -/
def insertionSorter : Sorter Nat where
  sort _ _ xs := xs.insertionSort fun a b => a.val ≤ b.val
  perm _ _ xs := List.perm_insertionSort _ xs
  sorted _ _ xs :=
    have : Std.Total fun a b : IndexVal Nat => a.val ≤ b.val :=
      ⟨fun a b => Nat.le_total a.val b.val⟩
    have : IsTrans (IndexVal Nat) fun a b => a.val ≤ b.val := ⟨fun _ _ _ => Nat.le_trans⟩
    List.pairwise_insertionSort _ xs

/-- One feature, and the samples `0, 1, …, n - 1`. -/
def rampEnv (n maxDepth : Nat) : KdEnv Nat where
  io := .ofMatrix (fun i _ => i) n 1 false
  sorter := insertionSorter
  maxDepth := maxDepth
  uninit _ := 0
  dataMax := n
  dataMin := 0

end Monya
