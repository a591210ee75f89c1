/-
  The level lists of `Scheduler` (`structures/Scheduler.cpp`): `schedule` collects nodes level by
  level and runs a level when it is full.

  What the worker threads do with a level between `wake4run` and `wait4completion` is `train`, on
  each node of the level: each node is trained by one worker, and workers share nothing but the
  read-only data. `std::pow(fanout, level)` is exact for every level that can fill up.

  `At s full pend` is the state of the lists: `full` are the levels that have been run, and `pend`
  is the level being filled. `scheduleAll_pend` and `scheduleAll_full` say what a sequence of calls
  does to it, up to and across the end of a level.
-/
import Monya.Lib.Heap

namespace Monya.Structures

open Monya.Lib

structure Scheduler where
  fanout : Nat
  currentLevel : Nat
  nodes : List (List Nat)
  deriving DecidableEq, Repr

namespace Scheduler

def new (fanout : Nat) : Scheduler := ⟨fanout, 0, []⟩

variable {σ : Type} (train : Nat → σ → Except Fault σ)

def getNodes (s : Scheduler) (level : Nat) : Except Fault (List Nat) :=
  match s.nodes[level]? with
  | some xs => .ok xs
  | none => .error .outOfBounds

/-- The first half of `schedule`: `node` goes to the current level. -/
def push (s : Scheduler) (node : Nat) : Scheduler :=
  if s.currentLevel + 1 > s.nodes.length then { s with nodes := s.nodes ++ [[node]] }
  else { s with nodes := s.nodes.modify s.currentLevel (· ++ [node]) }

def runLevel (level : List Nat) (st : σ) : Except Fault σ :=
  if level.length = 0 then .error .assertion else level.foldlM (fun st x => train x st) st

def schedule (node : Nat) (s : Scheduler × σ) : Except Fault (Scheduler × σ) := do
  let sched := s.1.push node
  let level ← sched.getNodes sched.currentLevel
  if sched.fanout ^ sched.currentLevel = level.length then
    let st ← runLevel train level s.2
    return ({ sched with currentLevel := sched.currentLevel + 1 }, st)
  else return (sched, s.2)

/-! ## The level lists -/

/-- The levels `full` have been run, and `pend` is waiting to be filled. -/
structure At (s : Scheduler) (full : List (List Nat)) (pend : List Nat) : Prop where
  level : s.currentLevel = full.length
  nodes : s.nodes = full ++ (if pend = [] then [] else [pend])

section

variable {s : Scheduler} {full : List (List Nat)} {pend : List Nat}

theorem at_new (fanout : Nat) : At (new fanout) [] [] := ⟨rfl, rfl⟩

theorem At.getNodes (h : At s full pend) {i : Nat} (hi : i < full.length) :
    s.getNodes i = .ok full[i] := by
  simp only [Scheduler.getNodes, h.nodes]
  rw [List.getElem?_append_left hi, List.getElem?_eq_getElem hi]

theorem push_fanout (s : Scheduler) (x : Nat) : (s.push x).fanout = s.fanout := by
  unfold push
  split <;> rfl

theorem At.push (h : At s full pend) (x : Nat) : At (s.push x) full (pend ++ [x]) := by
  have hne : ¬ pend ++ [x] = [] := by simp
  by_cases hp : pend = []
  · have hn : s.nodes = full := by rw [h.nodes, if_pos hp, List.append_nil]
    have hgt : s.currentLevel + 1 > s.nodes.length := by rw [h.level, hn]; omega
    rw [Scheduler.push, if_pos hgt]
    exact ⟨h.level, by rw [if_neg hne, hp, List.nil_append, hn]⟩
  · have hn : s.nodes = full ++ [pend] := by rw [h.nodes, if_neg hp]
    have hgt : ¬ s.currentLevel + 1 > s.nodes.length := by rw [h.level, hn]; simp
    rw [Scheduler.push, if_neg hgt]
    refine ⟨h.level, ?_⟩
    have hlt : full.length < (full ++ [pend]).length := by simp
    simp only [hn, h.level, if_neg hne, List.modify_eq_take_cons_drop hlt]
    simp

/-- The level being filled, once it has a node. -/
theorem At.getNodes_pend (h : At s full pend) (hp : pend ≠ []) :
    s.getNodes s.currentLevel = .ok pend := by
  rw [Scheduler.getNodes, h.nodes, h.level, if_neg hp, List.getElem?_append_right (le_refl _)]
  simp

/-- A call that does not fill the level. -/
theorem schedule_pend (h : At s full pend) {x : Nat}
    (hlt : pend.length + 1 < s.fanout ^ full.length) (st : σ) :
    ∃ s', schedule train x (s, st) = .ok (s', st) ∧ s'.fanout = s.fanout ∧
      At s' full (pend ++ [x]) := by
  have hp := h.push x
  refine ⟨s.push x, ?_, push_fanout s x, hp⟩
  have hne : ¬ (s.push x).fanout ^ (s.push x).currentLevel = (pend ++ [x]).length := by
    rw [push_fanout, hp.level, List.length_append]
    simp only [List.length_singleton]
    omega
  rw [schedule, hp.getNodes_pend (by simp), ok_bind, if_neg hne]
  rfl

/-- A call that fills the level, and so runs it. -/
theorem schedule_full (h : At s full pend) (x : Nat)
    (heq : pend.length + 1 = s.fanout ^ full.length) (st : σ) {st' : σ}
    (hrun : (pend ++ [x]).foldlM (fun st x => train x st) st = .ok st') :
    ∃ s', schedule train x (s, st) = .ok (s', st') ∧ s'.fanout = s.fanout ∧
      At s' (full ++ [pend ++ [x]]) [] := by
  have hp := h.push x
  refine ⟨{ s.push x with currentLevel := (s.push x).currentLevel + 1 }, ?_,
    push_fanout s x, ?_, ?_⟩
  · have hfull : (s.push x).fanout ^ (s.push x).currentLevel = (pend ++ [x]).length := by
      rw [push_fanout, hp.level, List.length_append]
      exact heq.symm
    have hlen : ¬ (pend ++ [x]).length = 0 := by simp
    rw [schedule, hp.getNodes_pend (by simp), ok_bind, if_pos hfull, runLevel, if_neg hlen, hrun]
    rfl
  · simp [hp.level]
  · simp [hp.nodes]

/-- Calls that do not fill the level. -/
theorem scheduleAll_pend (h : At s full pend) (xs : List Nat)
    (hlt : pend.length + xs.length < s.fanout ^ full.length) (st : σ) :
    ∃ s', xs.foldlM (fun s x => schedule train x s) (s, st) = .ok (s', st) ∧
      s'.fanout = s.fanout ∧ At s' full (pend ++ xs) := by
  induction xs generalizing s pend with
  | nil => exact ⟨s, rfl, rfl, by rwa [List.append_nil]⟩
  | cons x xs ih =>
    rw [List.length_cons] at hlt
    obtain ⟨s₁, h₁, hf₁, hat₁⟩ := schedule_pend train h (x := x) (by omega) st
    obtain ⟨s₂, h₂, hf₂, hat₂⟩ := ih hat₁ (by
      rw [hf₁, List.length_append, List.length_singleton]
      omega)
    refine ⟨s₂, ?_, hf₂.trans hf₁, by simpa using hat₂⟩
    rw [List.foldlM_cons, h₁, ok_bind, h₂]

/-- Calls across the end of a level: it is run when `ys` has filled it, and `zs` starts the next
    one. -/
theorem scheduleAll_full (h : At s full pend) (ys zs : List Nat) (hys : ys ≠ [])
    (heq : pend.length + ys.length = s.fanout ^ full.length)
    (hlt : zs.length < s.fanout ^ (full.length + 1)) {st st' : σ}
    (hrun : (pend ++ ys).foldlM (fun st x => train x st) st = .ok st') :
    ∃ s', (ys ++ zs).foldlM (fun s x => schedule train x s) (s, st) = .ok (s', st') ∧
      s'.fanout = s.fanout ∧ At s' (full ++ [pend ++ ys]) zs := by
  obtain ⟨ys, y, rfl⟩ : ∃ ys' y, ys = ys' ++ [y] :=
    ⟨ys.dropLast, ys.getLast hys, (List.dropLast_append_getLast hys).symm⟩
  rw [List.length_append, List.length_singleton] at heq
  obtain ⟨s₁, h₁, hf₁, hat₁⟩ := scheduleAll_pend train h ys (by omega) st
  have heq₁ : (pend ++ ys).length + 1 = s₁.fanout ^ full.length := by
    rw [hf₁, List.length_append]
    omega
  rw [← List.append_assoc] at hrun
  obtain ⟨s₂, h₂, hf₂, hat₂⟩ := schedule_full train hat₁ y heq₁ st hrun
  obtain ⟨s₃, h₃, hf₃, hat₃⟩ := scheduleAll_pend train hat₂ zs (by
    rw [hf₂, hf₁, List.length_append, List.length_singleton, List.length_nil]
    omega) st'
  refine ⟨s₃, ?_, hf₃.trans (hf₂.trans hf₁), by simpa using hat₃⟩
  rw [List.append_assoc, List.foldlM_append, h₁, ok_bind, List.foldlM_append, List.foldlM_cons, h₂,
    ok_bind, List.foldlM_nil, pure_ok, ok_bind, h₃]

end

end Scheduler

end Monya.Structures
