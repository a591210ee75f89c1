/-
  A `Scheduler` and its worker threads (`structures/Scheduler.cpp`).

  The thread that owns the tree constructs the `Scheduler`, which starts the workers and waits for
  them to initialise, and then calls `schedule`, once per `Label.call`. A call that fills a level
  runs it: `run_level` hands the nodes out to the queues of the workers, `wake4run` wakes the
  workers one after the other, and `wait4completion` waits until none is pending. As for a worker,
  one step is one access to what threads share, and `thrown` is an exception, a failed assertion
  or an index outside its vector.

  `pending_threads` is unsigned, so `incPpt` and `decPpt` are modulo `2 ^ 32`. The results of the
  mutex calls in `schedule` and of `pthread_cond_wait` in `wait4completion` are not looked at, so
  an error there lets the call go on. Each condition variable has one thread that waits on it, and
  a signal wakes that one if it is asleep; `Label.spurious` is a wake-up without a signal.

  `log` is not in the source: it lists what the workers did, each entry with the level being run.
-/
import Monya.Common.Types
import Monya.Structures.Scheduler
import Monya.Structures.WorkerThread

namespace Monya.Structures

open Monya.Lib

/-! ## Where the scheduling thread is -/

/-- The steps of `wait4completion`. -/
inductive CompletionPc where
  | lock
  | test
  | enter
  | asleep
  | reacquire
  | unlock
  deriving DecidableEq, Repr

/-- Where `wait4completion` was called. -/
inductive CompletionCaller where
  | ctor
  | runLevel (level : Nat)
  deriving DecidableEq, Repr

/-- The steps of `enqueue`, for a batch; `push i` is its loop. -/
inductive EnqueuePc where
  | acquire
  | push (i : Nat)
  | release
  deriving DecidableEq, Repr

/-- The steps of `wake`. -/
inductive WakePc where
  | acquire
  | setState
  | incPpt
  | release
  | signal
  deriving DecidableEq, Repr

inductive SchedulerPc where
  | create
  | wait4completion (p : CompletionPc) (caller : CompletionCaller)
  | idle
  | scheduleLock (node : Nat)
  | schedulePush (node : Nat)
  | scheduleUnlock (full : Bool)
  | runLevel (level : Nat)
  | enqueue (p : EnqueuePc) (level : Nat) (levelNodes : List Nat) (taskIndex : Nat)
      (tid : CUnsigned)
  | wake (p : WakePc) (tid level : Nat)
  | returned (level : Nat)
  | thrown
  deriving DecidableEq, Repr

/-- Worker `tid` did `task` while `level` was being run. -/
structure Entry where
  level : Nat
  tid : Nat
  task : Task
  deriving DecidableEq, Repr

structure Pool where
  nthread : Nat
  lists : Scheduler
  mutex : Mutex Thread
  pendingThreads : Nat
  threads : List WorkerThread
  pc : SchedulerPc
  log : List Entry
  deriving DecidableEq, Repr

/-- Which step is next: one of the scheduling thread, its next call of `schedule`, one of a worker,
    or a wake-up without a signal. -/
inductive Label where
  | scheduler
  | call (node : Nat)
  | worker (tid : Nat)
  | spurious (thread : Thread)
  deriving DecidableEq, Repr

/-! ## The steps -/

def minTasksPt : Nat := 8

/-- The size of the batch that starts at `taskIndex`. -/
def ntasks (levelNodes : List Nat) (taskIndex : Nat) : Nat :=
  if taskIndex + minTasksPt < levelNodes.length + 1 then minTasksPt
  else levelNodes.length - taskIndex

@[irreducible] def incPpt (pending : Nat) : Nat := (pending + 1) % 2 ^ 32

@[irreducible] def decPpt (pending : Nat) : Nat := (pending + 2 ^ 32 - 1) % 2 ^ 32

theorem incPpt_of_lt {p : Nat} (h : p + 1 < 2 ^ 32) : incPpt p = p + 1 := by
  unfold incPpt
  exact Nat.mod_eq_of_lt h

theorem decPpt_of_pos {p : Nat} (h : 0 < p) (hp : p < 2 ^ 32) : decPpt p = p - 1 := by
  unfold decPpt
  omega

namespace Pool

/-- The constructor of `Scheduler`, up to its loop. -/
def new (nthread fanout : Nat) : Pool := ⟨nthread, .new fanout, .new, nthread, [], .create, []⟩

def goto (s : Pool) (pc : SchedulerPc) : Option Pool := some { s with pc := pc }

/-- The pool with worker `tid` changed to `w`, and the scheduling thread at `pc`. -/
def setThread (s : Pool) (tid : Nat) (w : WorkerThread) (pc : SchedulerPc) : Option Pool :=
  some { s with threads := s.threads.set tid w, pc := pc }

def completionStep (s : Pool) (caller : CompletionCaller) : CompletionPc → Option Pool
  | .lock =>
      s.mutex.lock .scheduler
        (fun m => some { s with mutex := m, pc := .wait4completion .test caller })
        (s.goto .thrown)
  | .test =>
      s.goto (.wait4completion (if s.pendingThreads ≠ 0 then .enter else .unlock) caller)
  | .enter =>
      s.mutex.unlock .scheduler
        (fun m => some { s with mutex := m, pc := .wait4completion .asleep caller })
        (s.goto (.wait4completion .test caller))
  | .asleep => none
  | .reacquire =>
      s.mutex.lock .scheduler
        (fun m => some { s with mutex := m, pc := .wait4completion .test caller })
        (s.goto (.wait4completion .test caller))
  | .unlock =>
      s.mutex.unlock .scheduler
        (fun m => some { s with mutex := m, pc := match caller with
          | .ctor => .idle
          | .runLevel level => .returned level })
        (s.goto .thrown)

/-- `schedule`, between its `lock` and its `unlock`. -/
def schedulePush (s : Pool) (node : Nat) : Option Pool :=
  let lists := s.lists.push node
  match lists.getNodes lists.currentLevel with
  | .error _ => s.goto .thrown
  | .ok level =>
      if lists.fanout ^ lists.currentLevel = level.length then
        some { s with
          lists := { lists with currentLevel := lists.currentLevel + 1 }
          pc := .scheduleUnlock true }
      else some { s with lists := lists, pc := .scheduleUnlock false }

/-- `run_level`, up to its loop. -/
def runLevelStep (s : Pool) (level : Nat) : Option Pool :=
  match s.lists.getNodes level with
  | .error _ => s.goto .thrown
  | .ok levelNodes =>
      if levelNodes.length = 0 then s.goto .thrown
      else
        match CUnsigned.new s.threads.length with
        | .error _ => s.goto .thrown
        | .ok tid => s.goto (.enqueue .acquire level levelNodes 0 tid)

/-- A pass of the loop of `run_level`: a batch for the queue of the next worker. -/
def enqueueStep (s : Pool) (level : Nat) (levelNodes : List Nat) (taskIndex : Nat)
    (tid : CUnsigned) (p : EnqueuePc) : Option Pool :=
  match s.threads[tid.val]? with
  | none => s.goto .thrown
  | some w =>
      match p with
      | .acquire =>
          w.taskQueue.mutex.lock .scheduler
            (fun m => s.setThread tid.val { w with taskQueue.mutex := m }
              (.enqueue (.push 0) level levelNodes taskIndex tid))
            (s.goto .thrown)
      | .push i =>
          if i < ntasks levelNodes taskIndex then
            match levelNodes[taskIndex + i]? with
            | none => s.goto .thrown
            | some x =>
                s.setThread tid.val { w with taskQueue.tasks := w.taskQueue.tasks ++ [x] }
                  (.enqueue (.push (i + 1)) level levelNodes taskIndex tid)
          else s.goto (.enqueue .release level levelNodes taskIndex tid)
      | .release =>
          w.taskQueue.mutex.unlock .scheduler
            (fun m => s.setThread tid.val { w with taskQueue.mutex := m }
              (if taskIndex + ntasks levelNodes taskIndex = levelNodes.length then
                .wake .acquire 0 level
              else
                .enqueue .acquire level levelNodes (taskIndex + ntasks levelNodes taskIndex)
                  tid.inc))
            (s.goto .thrown)

/-- `wake4run(BUILD)` at thread `tid`; after the last one, `wait4completion`. -/
def wakeStep (s : Pool) (tid level : Nat) (p : WakePc) : Option Pool :=
  match s.threads[tid]? with
  | none => s.goto (.wait4completion .lock (.runLevel level))
  | some w =>
      match p with
      | .acquire =>
          w.stateLock.lock .scheduler
            (fun m => s.setThread tid { w with stateLock := m } (.wake .setState tid level))
            (s.goto .thrown)
      | .setState => s.setThread tid { w with state := .build } (.wake .incPpt tid level)
      | .incPpt =>
          some { s with
            pendingThreads := incPpt s.pendingThreads
            pc := .wake .release tid level }
      | .release =>
          w.stateLock.unlock .scheduler
            (fun m => s.setThread tid { w with stateLock := m } (.wake .signal tid level))
            (s.goto .thrown)
      | .signal => s.setThread tid w.signal (.wake .acquire (tid + 1) level)

/-- A step of the scheduling thread. -/
def schedulerStep (s : Pool) : Option Pool :=
  match s.pc with
  | .create =>
      if s.threads.length < s.nthread then some { s with threads := s.threads ++ [.new] }
      else s.goto (.wait4completion .lock .ctor)
  | .wait4completion p caller => s.completionStep caller p
  | .idle => none
  | .scheduleLock x =>
      s.mutex.lock .scheduler (fun m => some { s with mutex := m, pc := .schedulePush x })
        (s.goto (.schedulePush x))
  | .schedulePush x => s.schedulePush x
  | .scheduleUnlock full =>
      let pc := if full then .runLevel (s.lists.currentLevel - 1) else .idle
      s.mutex.unlock .scheduler (fun m => some { s with mutex := m, pc := pc }) (s.goto pc)
  | .runLevel level => s.runLevelStep level
  | .enqueue p level levelNodes taskIndex tid =>
      s.enqueueStep level levelNodes taskIndex tid p
  | .wake p tid level => s.wakeStep tid level p
  | .returned _ => s.goto .idle
  | .thrown => none

/-- The end of a sleep on the scheduler's `cond`. -/
def wakeUp (s : Pool) : Option Pool :=
  match s.pc with
  | .wait4completion .asleep caller => s.goto (.wait4completion .reacquire caller)
  | _ => none

/-- What a step of worker `tid` does outside the worker. -/
def apply (s : Pool) (tid : Nat) : Effect → Pool
  | .silent => s
  | .decPpt => { s with pendingThreads := decPpt s.pendingThreads }
  | .signalParent => s.wakeUp.getD s
  | .task t => { s with log := s.log ++ [⟨s.lists.currentLevel - 1, tid, t⟩] }

def step : Label → Pool → Option Pool
  | .scheduler, s => s.schedulerStep
  | .call x, s => if s.pc = .idle then s.goto (.scheduleLock x) else none
  | .worker tid, s => do
      let w ← s.threads[tid]?
      let (w', e) ← w.step tid s.pendingThreads
      return { s with threads := s.threads.set tid w' }.apply tid e
  | .spurious .scheduler, s => s.wakeUp
  | .spurious (.worker tid), s => do
      let w ← s.threads[tid]?
      let w' ← w.wakeUp
      return { s with threads := s.threads.set tid w' }

end Pool

end Monya.Structures
