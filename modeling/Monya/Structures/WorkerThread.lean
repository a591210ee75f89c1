/-
  One worker of a tree's thread pool (`structures/WorkerThread.cpp`, `structures/TaskQueue.cpp`).

  `WorkerThread.step` is one step of the thread that runs `callback`: a test of a shared variable, a
  write to one, a call into pthreads, or one `prep` or `run` of a node. So other threads may act
  between the emptiness test of `dequeue` and its locked section, between the decrement of
  `wait` and its test, and between that test and the signal. `get_state` and `tasks.empty()` read
  without a lock, as in the source. What a step does outside the worker is its `Effect`.

  Waiting on `cond` is `enter` (release the lock and fall asleep, at once), `asleep` and
  `reacquire`; `wakeUp` ends the sleep, by a signal or for no reason. An exception in a worker is
  not caught, so it ends the program: this is `thrown`, as is a `front` of an empty queue.

  `step_moves` says what a step can do, for the invariants of the pool.
-/
import Monya.Lib.Threads

namespace Monya.Structures

open Monya.Lib

/-- `ThreadState_t`. -/
inductive ThreadState where
  | test
  | build
  | query
  | wait
  | exit
  deriving DecidableEq, Repr

/-- The threads of one tree: the one that schedules, and the workers. -/
inductive Thread where
  | scheduler
  | worker (tid : Nat)
  deriving DecidableEq, Repr

structure BuildTaskQueue where
  tasks : List Nat
  mutex : Mutex Thread
  deriving DecidableEq, Repr

/-- What a worker does with a node. -/
inductive Task where
  | prep (node : Nat)
  | run (node : Nat)
  deriving DecidableEq, Repr

/-- The node of a task. -/
def Task.node : Task → Nat
  | .prep x => x
  | .run x => x

/-! ## Where a worker is -/

/-- The steps of `dequeue`. -/
inductive DequeuePc where
  | testEmpty
  | acquire
  | pop
  | release (node : Nat)
  deriving DecidableEq, Repr

/-- The steps of `wait`. -/
inductive WaitPc where
  | acquire
  | setWait
  | decPpt
  | testPpt
  | signal
  | testState
  | enter
  | asleep
  | reacquire
  | release
  deriving DecidableEq, Repr

/-- Where `wait` was called. -/
inductive WaitCaller where
  | callback
  | run
  deriving DecidableEq, Repr

inductive WorkerPc where
  | testWait
  | testExit
  | run
  | dequeue (p : DequeuePc)
  | prep (node : Nat)
  | runNode (node : Nat)
  | wait (p : WaitPc) (caller : WaitCaller)
  | exited
  | thrown
  deriving DecidableEq, Repr

structure WorkerThread where
  state : ThreadState
  stateLock : Mutex Thread
  taskQueue : BuildTaskQueue
  pc : WorkerPc
  deriving DecidableEq, Repr

/-- What a step does outside the worker. -/
inductive Effect where
  | silent
  | decPpt
  | signalParent
  | task (t : Task)
  deriving DecidableEq, Repr

/-! ## The steps of a worker -/

namespace WorkerThread

/-- The constructor, and `init`. -/
def new : WorkerThread := ⟨.wait, .new, ⟨[], .new⟩, .testWait⟩

def goto (w : WorkerThread) (pc : WorkerPc) : Option (WorkerThread × Effect) :=
  some ({ w with pc := pc }, .silent)

/-- `BuildTaskQueue::dequeue`, called by `request_task`. Without a node the loop of `run` ends. -/
def dequeueStep (w : WorkerThread) (tid : Nat) : DequeuePc → Option (WorkerThread × Effect)
  | .testEmpty =>
      w.goto (if w.taskQueue.tasks = [] then .wait .acquire .run else .dequeue .acquire)
  | .acquire =>
      w.taskQueue.mutex.lock (.worker tid)
        (fun m => some ({ w with taskQueue.mutex := m, pc := .dequeue .pop }, .silent))
        (w.goto .thrown)
  | .pop =>
      match w.taskQueue.tasks with
      | [] => w.goto .thrown
      | x :: xs => some ({ w with taskQueue.tasks := xs, pc := .dequeue (.release x) }, .silent)
  | .release x =>
      w.taskQueue.mutex.unlock (.worker tid)
        (fun m => some ({ w with taskQueue.mutex := m, pc := .prep x }, .silent))
        (w.goto .thrown)

/-- `wait`, with `pending` the value of `*parent_pending_threads`. -/
def waitStep (w : WorkerThread) (tid pending : Nat) (caller : WaitCaller) :
    WaitPc → Option (WorkerThread × Effect)
  | .acquire =>
      w.stateLock.lock (.worker tid)
        (fun m => some ({ w with stateLock := m, pc := .wait .setWait caller }, .silent))
        (w.goto .thrown)
  | .setWait => some ({ w with state := .wait, pc := .wait .decPpt caller }, .silent)
  | .decPpt => some ({ w with pc := .wait .testPpt caller }, .decPpt)
  | .testPpt => w.goto (.wait (if pending = 0 then .signal else .testState) caller)
  | .signal => some ({ w with pc := .wait .testState caller }, .signalParent)
  | .testState => w.goto (.wait (if w.state = .wait then .enter else .release) caller)
  | .enter =>
      w.stateLock.unlock (.worker tid)
        (fun m => some ({ w with stateLock := m, pc := .wait .asleep caller }, .silent))
        (w.goto .thrown)
  | .asleep => none
  | .reacquire =>
      w.stateLock.lock (.worker tid)
        (fun m => some ({ w with stateLock := m, pc := .wait .testState caller }, .silent))
        (w.goto .thrown)
  | .release =>
      w.stateLock.unlock (.worker tid)
        (fun m => some ({ w with stateLock := m, pc := match caller with
          | .callback => .testExit
          | .run => .testWait }, .silent))
        (w.goto .thrown)

/-- One step of `callback`, `run` and what they call. -/
def step (w : WorkerThread) (tid pending : Nat) : Option (WorkerThread × Effect) :=
  match w.pc with
  | .testWait => w.goto (if w.state = .wait then .wait .acquire .callback else .testExit)
  | .testExit => w.goto (if w.state = .exit then .exited else .run)
  | .run =>
      match w.state with
      | .test => w.goto (.wait .acquire .run)
      | .build => w.goto (.dequeue .testEmpty)
      | _ => w.goto .thrown
  | .dequeue p => w.dequeueStep tid p
  | .prep x => some ({ w with pc := .runNode x }, .task (.prep x))
  | .runNode x => some ({ w with pc := .dequeue .testEmpty }, .task (.run x))
  | .wait p caller => w.waitStep tid pending caller p
  | .exited => none
  | .thrown => none

/-- The end of a sleep on `cond`. -/
def wakeUp (w : WorkerThread) : Option WorkerThread :=
  match w.pc with
  | .wait .asleep caller => some { w with pc := .wait .reacquire caller }
  | _ => none

/-- `pthread_cond_signal(&cond)`: the worker is the only thread that waits on its `cond`. -/
def signal (w : WorkerThread) : WorkerThread := w.wakeUp.getD w

end WorkerThread

/-! ## What holds of a worker at each place -/

/-- The worker owns its state lock here. -/
@[simp] def WorkerPc.holdsState : WorkerPc → Bool
  | .wait .setWait _ | .wait .decPpt _ | .wait .testPpt _ | .wait .signal _ | .wait .testState _
  | .wait .enter _ | .wait .release _ => true
  | _ => false

/-- The worker owns the lock of its queue here. -/
@[simp] def WorkerPc.holdsQueue : WorkerPc → Bool
  | .dequeue .pop | .dequeue (.release _) => true
  | _ => false

/-- `wait` has decremented the number of pending threads and has not returned. -/
@[simp] def WorkerPc.decremented : WorkerPc → Bool
  | .wait .testPpt _ | .wait .signal _ | .wait .testState _ | .wait .enter _ | .wait .asleep _
  | .wait .reacquire _ => true
  | _ => false

/-- The states a worker can be in here; none where an exception or the end of the thread is. -/
@[simp] def WorkerPc.StateOk : WorkerPc → ThreadState → Prop
  | .testWait, s => s = .wait ∨ s = .build
  | .testExit, s | .run, s | .dequeue _, s | .prep _, s | .runNode _, s => s = .build
  | .wait .decPpt _, s | .wait .testPpt _, s | .wait .signal _, s | .wait .enter _, s => s = .wait
  | .wait .release _, s => s = .build
  | .wait _ _, s => s = .wait ∨ s = .build
  | .exited, _ | .thrown, _ => False

/-- What the emptiness tests say of the queue. -/
@[simp] def WorkerPc.TasksOk : WorkerPc → ThreadState → List Nat → Prop
  | .testWait, .wait, q => q = []
  | .dequeue .acquire, _, q | .dequeue .pop, _, q => q ≠ []
  | .wait .acquire _, _, q | .wait .setWait _, _, q | .wait .decPpt _, _, q => q = []
  | _, _, _ => True

structure WorkerOk (tid : Nat) (w : WorkerThread) : Prop where
  stateLock : w.stateLock.owner = some (.worker tid) ↔ w.pc.holdsState = true
  queueLock : w.taskQueue.mutex.owner = some (.worker tid) ↔ w.pc.holdsQueue = true
  state : w.pc.StateOk w.state
  tasks : w.pc.TasksOk w.state w.taskQueue.tasks

theorem workerOk_new (tid : Nat) : WorkerOk tid .new where
  stateLock := ⟨fun h => (by cases h), fun h => (by cases h)⟩
  queueLock := ⟨fun h => (by cases h), fun h => (by cases h)⟩
  state := .inl rfl
  tasks := rfl

/-- The worker has decremented, and has not been woken since. -/
def WorkerThread.resting (w : WorkerThread) : Bool := w.pc.decremented && w.state = .wait

/-- The tasks that training `xs` is made of. -/
def trained (xs : List Nat) : List Task := xs.flatMap fun x => [.prep x, .run x]

/-- What a worker at `pc` has still to do, with `tasks` in its queue. -/
@[simp] def WorkerPc.todo : WorkerPc → List Nat → List Task
  | .dequeue (.release x), tasks | .prep x, tasks => .prep x :: .run x :: trained tasks
  | .runNode x, tasks => .run x :: trained tasks
  | _, tasks => trained tasks

def WorkerThread.todo (w : WorkerThread) : List Task := w.pc.todo w.taskQueue.tasks

@[simp] def Effect.tasks : Effect → List Task
  | .task t => [t]
  | _ => []

/-! ## What a step can do -/

/-- A step of worker `tid` from `w` to `w'`. A worker at rest stays at rest and leaves its tasks
    alone, and one that works comes to rest by its decrement, with no task left. -/
structure Moves (tid : Nat) (w w' : WorkerThread) (e : Effect) : Prop where
  ok : WorkerOk tid w'
  rest : w.resting = true → w'.resting = true ∧ w'.taskQueue.tasks = w.taskQueue.tasks ∧
    e.tasks = [] ∧ e ≠ .decPpt
  busy : w.resting = false → (e = .decPpt ∧ w'.resting = true ∧ w'.taskQueue.tasks = []) ∨
    (e ≠ .decPpt ∧ w'.resting = false)
  todo : e.tasks ++ w'.todo = w.todo
  state : w'.state = w.state ∨ w'.state = .wait
  work : e.tasks ≠ [] → w.state = .build
  dec : e = .decPpt → w.stateLock.owner = some (.worker tid)
  stateLock : w'.stateLock.owner = some .scheduler ↔ w.stateLock.owner = some .scheduler
  queueLock : w'.taskQueue.mutex.owner = some .scheduler ↔
    w.taskQueue.mutex.owner = some .scheduler

/-- A step that changes the place and the owners of the locks, and nothing that others count. -/
theorem Moves.quiet {tid : Nat} {w : WorkerThread} {sl qm : Mutex Thread} {pc : WorkerPc}
    {e : Effect} (he : e.tasks = [] ∧ e ≠ .decPpt)
    (hsl : sl.owner = some (.worker tid) ↔ pc.holdsState = true)
    (hql : qm.owner = some (.worker tid) ↔ pc.holdsQueue = true)
    (hsl' : sl.owner = some .scheduler ↔ w.stateLock.owner = some .scheduler)
    (hql' : qm.owner = some .scheduler ↔ w.taskQueue.mutex.owner = some .scheduler)
    (hdec : w.state = .build ∨ pc.decremented = w.pc.decremented)
    (hst : pc.StateOk w.state) (hta : pc.TasksOk w.state w.taskQueue.tasks)
    (htodo : pc.todo w.taskQueue.tasks = w.todo) :
    Moves tid w ⟨w.state, sl, ⟨w.taskQueue.tasks, qm⟩, pc⟩ e := by
  have hrest : WorkerThread.resting ⟨w.state, sl, ⟨w.taskQueue.tasks, qm⟩, pc⟩ = w.resting := by
    unfold WorkerThread.resting
    rcases hdec with hb | hd
    · simp [hb]
    · rw [hd]
  exact {
    ok := ⟨hsl, hql, hst, hta⟩
    rest := fun hr => ⟨hrest.trans hr, rfl, he⟩
    busy := fun hb => .inr ⟨he.2, hrest.trans hb⟩
    todo := by rw [he.1, List.nil_append]; exact htodo
    state := .inl rfl
    work := fun hne => absurd he.1 hne
    dec := fun hd => absurd hd he.2
    stateLock := hsl'
    queueLock := hql' }

section Moves

open WorkerThread

variable {tid pending : Nat} {w w' : WorkerThread} {e : Effect}

/-- The worker goes to `pc` and changes nothing else. -/
theorem Moves.goto (h : WorkerOk tid w) {pc : WorkerPc} (hs : w.goto pc = some (w', e))
    (hsl : pc.holdsState = w.pc.holdsState) (hql : pc.holdsQueue = w.pc.holdsQueue)
    (hdec : w.state = .build ∨ pc.decremented = w.pc.decremented)
    (hst : pc.StateOk w.state) (hta : pc.TasksOk w.state w.taskQueue.tasks)
    (htodo : pc.todo w.taskQueue.tasks = w.todo) : Moves tid w w' e := by
  cases hs
  exact .quiet ⟨rfl, nofun⟩ (hsl ▸ h.stateLock) (hql ▸ h.queueLock) Iff.rfl Iff.rfl hdec
    hst hta htodo

theorem dequeue_moves {p : DequeuePc}
    (h : WorkerOk tid w) (hp : w.pc = .dequeue p) (hs : w.dequeueStep tid p = some (w', e)) :
    Moves tid w w' e := by
  obtain ⟨state, sl, ⟨tasks, qm⟩, pc⟩ := w
  obtain rfl : pc = .dequeue p := hp
  obtain rfl : state = .build := h.state
  cases p with
  | testEmpty =>
    by_cases ht : tasks = []
    · rw [dequeueStep, if_pos ht] at hs
      exact .goto h hs rfl rfl (.inl rfl) (.inr rfl) ht rfl
    · rw [dequeueStep, if_neg ht] at hs
      exact .goto h hs rfl rfl (.inl rfl) rfl ht rfl
  | acquire =>
    have hfree : qm.owner ≠ some (.worker tid) := fun ho => by simpa using h.queueLock.mp ho
    rw [dequeueStep] at hs
    obtain ⟨ho, hs⟩ := Mutex.lock_eq_some hfree hs
    cases hs
    exact .quiet ⟨rfl, nofun⟩ h.stateLock (by simp) Iff.rfl (by simp [ho]) (.inl rfl)
      rfl h.tasks rfl
  | pop =>
    cases tasks with
    | nil => exact absurd rfl h.tasks
    | cons x xs =>
      cases hs
      exact ⟨⟨h.stateLock, h.queueLock, rfl, trivial⟩, nofun, fun _ => .inr ⟨nofun, rfl⟩, rfl,
        .inl rfl, fun hne => absurd rfl hne, nofun, Iff.rfl, Iff.rfl⟩
  | release x =>
    have hown : qm.owner = some (.worker tid) := h.queueLock.mpr rfl
    rw [dequeueStep, Mutex.unlock_owner hown] at hs
    cases hs
    exact .quiet ⟨rfl, nofun⟩ h.stateLock (by simp) Iff.rfl (by simp [hown]) (.inl rfl)
      rfl trivial rfl

theorem wait_moves {p : WaitPc} {caller : WaitCaller} (h : WorkerOk tid w)
    (hp : w.pc = .wait p caller) (hs : w.waitStep tid pending caller p = some (w', e)) :
    Moves tid w w' e := by
  obtain ⟨state, sl, ⟨tasks, qm⟩, pc⟩ := w
  obtain rfl : pc = .wait p caller := hp
  have hfree : (WorkerPc.wait p caller).holdsState = false → sl.owner ≠ some (.worker tid) :=
    fun hf ho => by rw [h.stateLock.mp ho] at hf; cases hf
  have hown : (WorkerPc.wait p caller).holdsState = true → sl.owner = some (.worker tid) :=
    h.stateLock.mpr
  cases p with
  | acquire =>
    rw [waitStep] at hs
    obtain ⟨ho, hs⟩ := Mutex.lock_eq_some (hfree rfl) hs
    cases hs
    exact .quiet ⟨rfl, nofun⟩ (by simp) h.queueLock (by simp [ho]) Iff.rfl (.inr rfl)
      h.state h.tasks
      rfl
  | setWait =>
    cases hs
    exact ⟨⟨h.stateLock, h.queueLock, rfl, h.tasks⟩, nofun, fun _ => .inr ⟨nofun, rfl⟩, rfl,
      .inr rfl, fun hne => absurd rfl hne, nofun, Iff.rfl, Iff.rfl⟩
  | decPpt =>
    obtain rfl : state = .wait := h.state
    cases hs
    exact ⟨⟨h.stateLock, h.queueLock, rfl, trivial⟩, nofun, fun _ => .inl ⟨rfl, rfl, h.tasks⟩, rfl,
      .inl rfl, fun hne => absurd rfl hne, fun _ => hown rfl, Iff.rfl, Iff.rfl⟩
  | testPpt =>
    by_cases hz : pending = 0
    · rw [waitStep, if_pos hz] at hs
      exact .goto h hs rfl rfl (.inr rfl) h.state trivial rfl
    · rw [waitStep, if_neg hz] at hs
      exact .goto h hs rfl rfl (.inr rfl) (.inl h.state) trivial rfl
  | signal =>
    cases hs
    exact .quiet ⟨rfl, nofun⟩ h.stateLock h.queueLock Iff.rfl Iff.rfl (.inr rfl) (.inl h.state)
      trivial rfl
  | testState =>
    by_cases hw : state = .wait
    · rw [waitStep, if_pos hw] at hs
      exact .goto h hs rfl rfl (.inr rfl) hw trivial rfl
    · have hb : state = .build := h.state.resolve_left hw
      rw [waitStep, if_neg hw] at hs
      exact .goto h hs rfl rfl (.inl hb) hb trivial rfl
  | enter =>
    rw [waitStep, Mutex.unlock_owner (hown rfl)] at hs
    cases hs
    exact .quiet ⟨rfl, nofun⟩ (by simp) h.queueLock (by simp [hown rfl]) Iff.rfl (.inr rfl)
      (.inl h.state) trivial rfl
  | asleep => cases hs
  | reacquire =>
    rw [waitStep] at hs
    obtain ⟨ho, hs⟩ := Mutex.lock_eq_some (hfree rfl) hs
    cases hs
    exact .quiet ⟨rfl, nofun⟩ (by simp) h.queueLock (by simp [ho]) Iff.rfl (.inr rfl)
      h.state trivial
      rfl
  | release =>
    obtain rfl : state = .build := h.state
    cases caller with
    | callback =>
      rw [waitStep, Mutex.unlock_owner (hown rfl)] at hs
      cases hs
      exact .quiet ⟨rfl, nofun⟩ (by simp) h.queueLock (by simp [hown rfl]) Iff.rfl (.inl rfl) rfl
        trivial rfl
    | run =>
      rw [waitStep, Mutex.unlock_owner (hown rfl)] at hs
      cases hs
      exact .quiet ⟨rfl, nofun⟩ (by simp) h.queueLock (by simp [hown rfl]) Iff.rfl (.inl rfl)
        (.inr rfl) trivial rfl

/-- What a step of a worker can do. -/
theorem step_moves (h : WorkerOk tid w) (hs : w.step tid pending = some (w', e)) :
    Moves tid w w' e := by
  obtain ⟨state, sl, ⟨tasks, qm⟩, pc⟩ := w
  cases pc with
  | testWait =>
    by_cases hw : state = .wait
    · subst hw
      exact .goto h hs rfl rfl (.inr rfl) (.inl rfl) h.tasks rfl
    · obtain rfl : state = .build := h.state.resolve_left hw
      exact .goto h hs rfl rfl (.inl rfl) rfl trivial rfl
  | testExit =>
    obtain rfl : state = .build := h.state
    exact .goto h hs rfl rfl (.inl rfl) rfl trivial rfl
  | run =>
    obtain rfl : state = .build := h.state
    exact .goto h hs rfl rfl (.inl rfl) rfl trivial rfl
  | dequeue p => exact dequeue_moves h rfl hs
  | prep x =>
    cases hs
    exact ⟨⟨h.stateLock, h.queueLock, h.state, trivial⟩, nofun, fun _ => .inr ⟨nofun, rfl⟩, rfl,
      .inl rfl, fun _ => h.state, nofun, Iff.rfl, Iff.rfl⟩
  | runNode x =>
    cases hs
    exact ⟨⟨h.stateLock, h.queueLock, h.state, trivial⟩, nofun, fun _ => .inr ⟨nofun, rfl⟩, rfl,
      .inl rfl, fun _ => h.state, nofun, Iff.rfl, Iff.rfl⟩
  | wait p caller => exact wait_moves h rfl hs
  | exited => exact absurd h.state id
  | thrown => exact absurd h.state id

/-- The end of a sleep is a step like the worker's own. -/
theorem wakeUp_moves (h : WorkerOk tid w) (hw : w.wakeUp = some w') : Moves tid w w' .silent := by
  unfold wakeUp at hw
  split at hw
  · rename_i caller hp
    have hst := h.state
    have hsl := h.stateLock
    have hql := h.queueLock
    rw [hp] at hst hsl hql
    cases hw
    exact .quiet ⟨rfl, nofun⟩ hsl hql Iff.rfl Iff.rfl (.inr (by rw [hp]; rfl)) hst trivial
      (by rw [todo, hp]; rfl)
  · cases hw

theorem signal_moves (h : WorkerOk tid w) : Moves tid w w.signal .silent := by
  unfold WorkerThread.signal
  cases hw : w.wakeUp with
  | some w' => exact wakeUp_moves h hw
  | none =>
    exact .quiet ⟨rfl, nofun⟩ h.stateLock h.queueLock Iff.rfl Iff.rfl (.inr rfl) h.state h.tasks rfl

end Moves

end Monya.Structures
