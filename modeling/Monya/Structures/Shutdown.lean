/-
  `Scheduler::~Scheduler`, run beside the worker threads (`structures/Scheduler.cpp`,
  `structures/WorkerThread.cpp`).

  The destructor destroys the synchronisation objects of the scheduler, wakes each worker with the
  state `EXIT` and deletes the `WorkerThread` objects one after the other. It does not join the
  threads: a worker has then still to wake up, to lock and unlock its state lock, to test its state
  and to leave the loop of `callback`, all of it in its object. A step of a worker whose object is
  gone is undefined behaviour; here it is a step on the fields as they were, so that it can be seen.

  `asleep_of_idle` gives the states from which the destructor starts. `Inv` says where each worker
  is while the destructor goes on; `ShutdownOrder` draws the consequences.
-/
import Monya.Structures.Barrier

namespace Monya.Structures

open Monya.Lib

/-! ## The destructor -/

/-- `wake(state)`, of the scheduling thread. It goes on with `next`, with `inc` for `inc_ppt`, and
    ends with `done`. -/
def WorkerThread.wakeStep {σ : Type} (w : WorkerThread) (state : ThreadState)
    (next : WorkerThread → WakePc → Option σ) (inc : Option σ) (done : WorkerThread → Option σ)
    (error : Option σ) : WakePc → Option σ
  | .acquire =>
      w.stateLock.lock .scheduler (fun m => next { w with stateLock := m } .setState) error
  | .setState => next { w with state := state } .incPpt
  | .incPpt => inc
  | .release =>
      w.stateLock.unlock .scheduler (fun m => next { w with stateLock := m } .signal) error
  | .signal => done w.signal

/-- `run_level` wakes with the same function. -/
theorem wakeStep_build {s : Pool} {tid level : Nat} {w : WorkerThread}
    (hw : s.threads[tid]? = some w) (p : WakePc) :
    s.wakeStep tid level p = w.wakeStep .build (fun w p => s.setThread tid w (.wake p tid level))
      (some { s with pendingThreads := incPpt s.pendingThreads, pc := .wake .release tid level })
      (fun w => s.setThread tid w (.wake .acquire (tid + 1) level)) (s.goto .thrown) p := by
  unfold Pool.wakeStep
  rw [hw]
  cases p <;> rfl

/-- The steps of `~WorkerThread`. -/
inductive DeletePc where
  | condDestroy
  | stateLockDestroy
  | mutexAttrDestroy
  | deleteTaskQueue
  deriving DecidableEq, Repr

/-- The steps of `~Scheduler`, with `destroy_threads`. -/
inductive ShutdownPc where
  | mutexDestroy
  | mutexAttrDestroy
  | condDestroy
  | wake (p : WakePc) (tid : Nat)
  | delete (p : DeletePc) (tid : Nat)
  | done
  | thrown
  deriving DecidableEq, Repr

/-- `begun` is not in the source: it lists the workers whose destructor has started. -/
structure Shutdown where
  threads : List WorkerThread
  pendingThreads : Nat
  pc : ShutdownPc
  begun : List Nat
  deriving DecidableEq, Repr

inductive ShutdownLabel where
  | destructor
  | worker (tid : Nat)
  | spurious (tid : Nat)
  deriving DecidableEq, Repr

namespace Shutdown

def start (threads : List WorkerThread) (pendingThreads : Nat) : Shutdown :=
  ⟨threads, pendingThreads, .mutexDestroy, []⟩

def goto (s : Shutdown) (pc : ShutdownPc) : Option Shutdown := some { s with pc := pc }

def setThread (s : Shutdown) (tid : Nat) (w : WorkerThread) (pc : ShutdownPc) : Option Shutdown :=
  some { s with threads := s.threads.set tid w, pc := pc }

/-- `wake4run(EXIT)` at thread `tid`; after the last one, the loop of `delete`. -/
def wakeStep (s : Shutdown) (tid : Nat) (p : WakePc) : Option Shutdown :=
  match s.threads[tid]? with
  | none => s.goto (.delete .condDestroy 0)
  | some w =>
      w.wakeStep .exit (fun w p => s.setThread tid w (.wake p tid))
        (some { s with pendingThreads := incPpt s.pendingThreads, pc := .wake .release tid })
        (fun w => s.setThread tid w (.wake .acquire (tid + 1))) (s.goto .thrown) p

/-- `delete(threads[tid])`. -/
def deleteStep (s : Shutdown) (tid : Nat) (p : DeletePc) : Option Shutdown :=
  if tid < s.threads.length then
    match p with
    | .condDestroy =>
        some { s with begun := s.begun ++ [tid], pc := .delete .stateLockDestroy tid }
    | .stateLockDestroy => s.goto (.delete .mutexAttrDestroy tid)
    | .mutexAttrDestroy => s.goto (.delete .deleteTaskQueue tid)
    | .deleteTaskQueue => s.goto (.delete .condDestroy (tid + 1))
  else s.goto .done

def destructorStep (s : Shutdown) : Option Shutdown :=
  match s.pc with
  | .mutexDestroy => s.goto .mutexAttrDestroy
  | .mutexAttrDestroy => s.goto .condDestroy
  | .condDestroy => s.goto (.wake .acquire 0)
  | .wake p tid => s.wakeStep tid p
  | .delete p tid => s.deleteStep tid p
  | .done => none
  | .thrown => none

/-- What a step of a worker does outside it. Nobody waits for the signal to the parent. -/
def apply (s : Shutdown) : Effect → Shutdown
  | .decPpt => { s with pendingThreads := decPpt s.pendingThreads }
  | _ => s

def step : ShutdownLabel → Shutdown → Option Shutdown
  | .destructor, s => s.destructorStep
  | .worker tid, s => do
      let w ← s.threads[tid]?
      let (w', e) ← w.step tid s.pendingThreads
      return { s with threads := s.threads.set tid w' }.apply e
  | .spurious tid, s => do
      let w ← s.threads[tid]?
      let w' ← w.wakeUp
      return { s with threads := s.threads.set tid w' }

end Shutdown

/-! ## Where the destructor starts -/

/-- The worker sleeps in `wait`. It has given up its lock. -/
structure Asleep (tid : Nat) (w : WorkerThread) : Prop where
  place : ∃ caller, w.pc = .wait .asleep caller
  state : w.state = .wait
  lock : w.stateLock.owner ≠ some .scheduler ∧ w.stateLock.owner ≠ some (.worker tid)

/-- Between two calls of `schedule`, when the workers have fallen asleep. -/
theorem asleep_of_idle {T fanout : Nat} (hT : 1 ≤ T) (hT' : T < 2 ^ 32) {s : Pool}
    (h : Reachable Pool.step (.new T fanout) s) (hpc : s.pc = .idle) {tid : Nat} {w : WorkerThread}
    (hw : s.threads[tid]? = some w) (hp : ∃ caller, w.pc = .wait .asleep caller) :
    Asleep tid w := by
  have hat := (Inv.of_reachable hT hT' h).threads tid w hw
  rw [hpc] at hat
  have hrest := hat.rest rfl
  obtain ⟨caller, hp⟩ := hp
  refine ⟨⟨caller, hp⟩, ?_, fun ho => ?_, fun ho => ?_⟩
  · simpa [WorkerThread.resting, hp] using hrest
  · simpa using hat.stateLock.mp ho
  · have hholds := hat.ok.stateLock.mp ho
    rw [hp] at hholds
    cases hholds

/-! ## A worker from its sleep to its exit -/

/-- How far the destructor is with a worker. -/
inductive WakeStage where
  | before
  | locked
  | told
  | unlocked
  | woken
  deriving DecidableEq, Repr

namespace WakeStage

/-- The destructor owns the state lock. -/
@[simp] def holds : WakeStage → Bool
  | .locked | .told => true
  | _ => false

@[simp] def state : WakeStage → ThreadState
  | .before | .locked => .wait
  | _ => .exit

/-- Where the worker can be. Before it is told, a spurious wake-up takes it once round the loop of
    `wait`; after the signal it does not sleep any more. -/
@[simp] def PlaceOk : WakeStage → WorkerPc → Prop
  | .woken, .wait .asleep _ => False
  | _, .wait .asleep _ | _, .wait .reacquire _ => True
  | .before, .wait .testState _ | .before, .wait .enter _ => True
  | .unlocked, pc | .woken, pc =>
      match pc with
      | .wait .testState _ | .wait .release _ | .testWait | .testExit | .exited => True
      | _ => False
  | _, _ => False

/-- The worker has been told to exit, and the lock is its own to take. -/
@[simp] def released : WakeStage → Bool
  | .unlocked | .woken => true
  | _ => false

variable {g : WakeStage} {pc : WorkerPc}

/-- While the destructor owns the lock, the worker sleeps or waits for the lock. It may do so at
    every stage before the signal. -/
theorem place_of_holds (hg : g.holds = true) (hp : g.PlaceOk pc) {g' : WakeStage}
    (hg' : g' ≠ .woken) : g'.PlaceOk pc := by
  have hwait : ∃ caller, pc = .wait .asleep caller ∨ pc = .wait .reacquire caller := by
    cases g with
    | before | unlocked | woken => cases hg
    | locked | told =>
      cases pc with
      | wait p caller =>
        cases p with
        | asleep => exact ⟨caller, .inl rfl⟩
        | reacquire => exact ⟨caller, .inr rfl⟩
        | _ => exact absurd hp id
      | _ => exact absurd hp id
  obtain ⟨caller, rfl | rfl⟩ := hwait
  · cases g' with
    | woken => exact absurd rfl hg'
    | _ => trivial
  · cases g' <;> trivial

/-- Only when it has been told is the worker on its way out. -/
theorem released_of_place (hp : g.PlaceOk pc) (hb : ¬ before.PlaceOk pc) : g.released = true := by
  cases g with
  | before => exact absurd hp hb
  | unlocked | woken => rfl
  | locked | told => exact absurd (place_of_holds rfl hp (by simp)) hb

theorem state_released (hg : g.released = true) : g.state = .exit := by
  cases g <;> first | rfl | cases hg

theorem place_released (hg : g.released = true) (hp : woken.PlaceOk pc) : g.PlaceOk pc := by
  cases g with
  | woken => exact hp
  | unlocked =>
    cases pc with
    | wait p caller => cases p <;> trivial
    | _ => trivial
  | before | locked | told => cases hg

end WakeStage

/-- The stage of the worker that is being woken. -/
@[simp] def WakePc.stage : WakePc → WakeStage
  | .acquire => .before
  | .setState => .locked
  | .incPpt | .release => .told
  | .signal => .unlocked

/-- The stage of worker `tid`. -/
def ShutdownPc.stage : ShutdownPc → Nat → WakeStage
  | .wake p t, tid => if tid < t then .woken else if t < tid then .before else p.stage
  | .delete _ _, _ | .done, _ => .woken
  | _, _ => .before

/-- Worker `tid` at a stage of the shutdown. -/
structure Closing (g : WakeStage) (tid : Nat) (w : WorkerThread) : Prop where
  place : g.PlaceOk w.pc
  state : w.state = g.state
  scheduler : w.stateLock.owner = some .scheduler ↔ g.holds = true
  worker : w.stateLock.owner = some (.worker tid) ↔ w.pc.holdsState = true
  free : g.released = true → w.pc.holdsState = false → w.stateLock.owner = none

namespace Closing

variable {g : WakeStage} {tid pending : Nat} {w w' : WorkerThread} {e : Effect}

theorem of_asleep (h : Asleep tid w) : Closing .before tid w := by
  obtain ⟨caller, hp⟩ := h.place
  exact {
    place := by rw [hp]; trivial
    state := h.state
    scheduler := ⟨fun ho => absurd ho h.lock.1, nofun⟩
    worker := ⟨fun ho => absurd ho h.lock.2, fun hh => by rw [hp] at hh; cases hh⟩
    free := nofun }

/-- The worker goes on and the lock stays as it is. -/
theorem move (h : Closing g tid w) {pc : WorkerPc} (hp : g.PlaceOk pc)
    (hh : pc.holdsState = w.pc.holdsState) : Closing g tid { w with pc := pc } where
  place := hp
  state := h.state
  scheduler := h.scheduler
  worker := h.worker.trans (by rw [hh])
  free hg hf := h.free hg (hh ▸ hf)

theorem acquire (h : Closing g tid w) (ho : w.stateLock.owner = none) {pc : WorkerPc}
    (hp : g.PlaceOk pc) (hh : pc.holdsState = true) :
    Closing g tid { w with stateLock := ⟨some (.worker tid)⟩, pc := pc } where
  place := hp
  state := h.state
  scheduler := ⟨nofun, fun hg => by rw [h.scheduler.mpr hg] at ho; cases ho⟩
  worker := ⟨fun _ => hh, fun _ => rfl⟩
  free _ hf := by rw [hh] at hf; cases hf

theorem release (h : Closing g tid w) (ho : w.stateLock.owner = some (.worker tid))
    {pc : WorkerPc} (hp : g.PlaceOk pc) (hh : pc.holdsState = false) :
    Closing g tid { w with stateLock := ⟨none⟩, pc := pc } where
  place := hp
  state := h.state
  scheduler := ⟨nofun, fun hg => by rw [h.scheduler.mpr hg] at ho; cases ho⟩
  worker := ⟨nofun, fun hf => by rw [hh] at hf; cases hf⟩
  free _ _ := rfl

/-- What a step of the worker can be, at a stage of the shutdown. -/
inductive Goes (g : WakeStage) (tid : Nat) (w : WorkerThread) : WorkerThread → Prop
  | reacquire (caller : WaitCaller) : w.pc = .wait .reacquire caller →
      w.stateLock.owner = none →
      Goes g tid w { w with stateLock := ⟨some (.worker tid)⟩, pc := .wait .testState caller }
  -- it sees `WAIT`, so it has not been told
  | sleepOn (caller : WaitCaller) : w.pc = .wait .testState caller → g = .before →
      Goes g tid w { w with pc := .wait .enter caller }
  | enter (caller : WaitCaller) : w.pc = .wait .enter caller →
      w.stateLock.owner = some (.worker tid) →
      Goes g tid w { w with stateLock := ⟨none⟩, pc := .wait .asleep caller }
  | leave (caller : WaitCaller) : w.pc = .wait .testState caller → g.released = true →
      Goes g tid w { w with pc := .wait .release caller }
  | release (caller : WaitCaller) : w.pc = .wait .release caller → g.released = true →
      w.stateLock.owner = some (.worker tid) →
      Goes g tid w { w with stateLock := ⟨none⟩, pc := match caller with
        | .callback => .testExit
        | .run => .testWait }
  | testWait : w.pc = .testWait → g.released = true → Goes g tid w { w with pc := .testExit }
  | testExit : w.pc = .testExit → g.released = true → Goes g tid w { w with pc := .exited }

theorem waitStep_goes {state : ThreadState} {sl : Mutex Thread} {q : BuildTaskQueue} {p : WaitPc}
    {caller : WaitCaller} (h : Closing g tid ⟨state, sl, q, .wait p caller⟩)
    (hs : WorkerThread.waitStep ⟨state, sl, q, .wait p caller⟩ tid pending caller p =
      some (w', e)) : Goes g tid ⟨state, sl, q, .wait p caller⟩ w' := by
  have hplace : g.PlaceOk (.wait p caller) := h.place
  have hstate : state = g.state := h.state
  have hown : (WorkerPc.wait p caller).holdsState = true → sl.owner = some (.worker tid) :=
    h.worker.mpr
  cases p with
  | acquire | setWait | decPpt | testPpt | signal => cases g <;> exact absurd hplace id
  | asleep => cases hs
  | testState =>
    by_cases hw : state = .wait
    · rw [WorkerThread.waitStep, if_pos hw] at hs
      cases hs
      refine .sleepOn caller rfl ?_
      cases g with
      | before => rfl
      | locked | told => exact absurd hplace id
      | unlocked | woken => rw [hw] at hstate; cases hstate
    · rw [WorkerThread.waitStep, if_neg hw] at hs
      cases hs
      refine .leave caller rfl ?_
      cases g with
      | before => exact absurd hstate hw
      | locked | told => exact absurd hplace id
      | unlocked | woken => rfl
  | enter =>
    rw [WorkerThread.waitStep, Mutex.unlock_owner (hown rfl)] at hs
    cases hs
    exact .enter caller rfl (hown rfl)
  | reacquire =>
    have hfree : sl.owner ≠ some (.worker tid) := fun ho => by cases h.worker.mp ho
    rw [WorkerThread.waitStep] at hs
    obtain ⟨ho, hs⟩ := Mutex.lock_eq_some hfree hs
    cases hs
    exact .reacquire caller rfl ho
  | release =>
    simp only [WorkerThread.waitStep] at hs
    rw [Mutex.unlock_owner (hown rfl)] at hs
    cases hs
    exact .release caller rfl (WakeStage.released_of_place hplace id) (hown rfl)

theorem step_goes (h : Closing g tid w) (hs : w.step tid pending = some (w', e)) :
    Goes g tid w w' := by
  obtain ⟨state, sl, q, pc⟩ := w
  have hplace : g.PlaceOk pc := h.place
  have hstate : state = g.state := h.state
  cases pc with
  | run | dequeue | prep | runNode | thrown => cases g <;> exact absurd hplace id
  | exited => cases hs
  | testWait =>
    have hg := WakeStage.released_of_place hplace id
    obtain rfl : state = .exit := hstate.trans (WakeStage.state_released hg)
    cases hs
    exact .testWait rfl hg
  | testExit =>
    have hg := WakeStage.released_of_place hplace id
    obtain rfl : state = .exit := hstate.trans (WakeStage.state_released hg)
    cases hs
    exact .testExit rfl hg
  | wait p caller => exact h.waitStep_goes hs

/-- A step of the worker. -/
theorem step (h : Closing g tid w) (hs : w.step tid pending = some (w', e)) : Closing g tid w' := by
  have hplace := h.place
  cases h.step_goes hs with
  | reacquire caller hp ho =>
    refine h.acquire ho ?_ rfl
    cases g with
    | before | unlocked | woken => trivial
    | locked | told => rw [h.scheduler.mpr rfl] at ho; cases ho
  | sleepOn caller hp hg => exact h.move (by rw [hg]; trivial) (by rw [hp]; rfl)
  | enter caller hp ho =>
    refine h.release ho ?_ rfl
    rw [hp] at hplace
    cases g <;> trivial
  | leave caller hp hg =>
    exact h.move (WakeStage.place_released hg trivial) (by rw [hp]; rfl)
  | release caller hp hg ho =>
    refine h.release ho (WakeStage.place_released hg ?_) ?_
    · cases caller <;> trivial
    · cases caller <;> rfl
  | testWait hp hg => exact h.move (WakeStage.place_released hg trivial) (by rw [hp]; rfl)
  | testExit hp hg => exact h.move (WakeStage.place_released hg trivial) (by rw [hp]; rfl)

theorem wakeUp (h : Closing g tid w) (hw : w.wakeUp = some w') : Closing g tid w' := by
  obtain ⟨state, sl, q, pc⟩ := w
  unfold WorkerThread.wakeUp at hw
  split at hw
  · next caller hp =>
    obtain rfl : pc = .wait .asleep caller := hp
    cases hw
    exact h.move (by cases g <;> trivial) rfl
  · cases hw

/-- After the signal a worker that has not left the loop can go on. -/
theorem exists_step (h : Closing .woken tid w) (hp : w.pc ≠ .exited) (pending : Nat) :
    ∃ w' e, w.step tid pending = some (w', e) := by
  obtain ⟨state, sl, q, pc⟩ := w
  have hplace : WakeStage.woken.PlaceOk pc := h.place
  cases pc with
  | run | dequeue | prep | runNode | thrown => exact absurd hplace id
  | exited => exact absurd rfl hp
  | testWait => exact ⟨_, _, rfl⟩
  | testExit => exact ⟨_, _, rfl⟩
  | wait p caller =>
    cases p with
    | acquire | setWait | decPpt | testPpt | signal | enter | asleep => exact absurd hplace id
    | testState => exact ⟨_, _, rfl⟩
    | reacquire =>
      have hfree : sl.owner = none := h.free rfl rfl
      simp only [WorkerThread.step, WorkerThread.waitStep, Mutex.lock_free hfree]
      exact ⟨_, _, rfl⟩
    | release =>
      have hown : sl.owner = some (.worker tid) := h.worker.mpr rfl
      simp only [WorkerThread.step, WorkerThread.waitStep, Mutex.unlock_owner hown]
      exact ⟨_, _, rfl⟩

/-! The steps of `wake(EXIT)`. -/

theorem not_holding (h : Closing g tid w) (ho : w.stateLock.owner ≠ some (.worker tid)) :
    w.pc.holdsState = false := by
  rw [Bool.eq_false_iff]
  exact fun hh => ho (h.worker.mpr hh)

theorem lock (h : Closing .before tid w) (ho : w.stateLock.owner = none) :
    Closing .locked tid { w with stateLock := ⟨some .scheduler⟩ } := by
  have hholds : w.pc.holdsState = false := h.not_holding (by rw [ho]; simp)
  have hplace := h.place
  refine ⟨?_, h.state, by simp, iff_of_false (by simp) (ne_true_of_eq_false hholds), nofun⟩
  show WakeStage.locked.PlaceOk w.pc
  cases hpc : w.pc with
  | wait p caller =>
    -- the other places of `before` own the lock
    rw [hpc] at hplace hholds
    cases p <;> trivial
  | _ => rw [hpc] at hplace; exact absurd hplace id

theorem tell (h : Closing .locked tid w) : Closing .told tid { w with state := .exit } where
  place := WakeStage.place_of_holds rfl h.place (by simp)
  state := rfl
  scheduler := h.scheduler
  worker := h.worker
  free := nofun

theorem unlock (h : Closing .told tid w) :
    Closing .unlocked tid { w with stateLock := ⟨none⟩ } := by
  have hown : w.stateLock.owner = some .scheduler := h.scheduler.mpr rfl
  have hholds : w.pc.holdsState = false := h.not_holding (by rw [hown]; simp)
  exact {
    place := WakeStage.place_of_holds rfl h.place (by simp)
    state := h.state
    scheduler := by simp
    worker := iff_of_false (by simp) (ne_true_of_eq_false hholds)
    free := fun _ _ => rfl }

/-- The signal ends the sleep, if there is one. -/
theorem signal (h : Closing .unlocked tid w) : Closing .woken tid w.signal := by
  have hsig : Closing .unlocked tid w.signal ∧ WakeStage.woken.PlaceOk w.signal.pc := by
    unfold WorkerThread.signal
    cases hw : w.wakeUp with
    | some w' =>
      refine ⟨h.wakeUp hw, ?_⟩
      unfold WorkerThread.wakeUp at hw
      split at hw
      · cases hw
        trivial
      · cases hw
    | none =>
      refine ⟨h, ?_⟩
      have hplace := h.place
      show WakeStage.woken.PlaceOk w.pc
      cases hpc : w.pc with
      | wait p caller =>
        rw [hpc] at hplace
        cases p with
        | asleep => simp [WorkerThread.wakeUp, hpc] at hw
        | _ => exact hplace
      | _ => rw [hpc] at hplace; exact hplace
  exact ⟨hsig.2, hsig.1.state, hsig.1.scheduler, hsig.1.worker, fun _ => hsig.1.free rfl⟩

end Closing

namespace ShutdownPc

variable {t tid : Nat}

theorem stage_wake (p : WakePc) (tid : Nat) : (wake p tid).stage tid = p.stage := by
  simp only [stage, Nat.lt_irrefl, if_false]

theorem stage_wake_lt (p : WakePc) (h : t < tid) : (wake p tid).stage t = .woken := by
  simp only [stage, if_pos h]

theorem stage_wake_gt (p : WakePc) (h : tid < t) : (wake p tid).stage t = .before := by
  simp only [stage, if_neg (Nat.lt_asymm h), if_pos h]

theorem stage_wake_other (p p' : WakePc) (h : t ≠ tid) :
    (wake p tid).stage t = (wake p' tid).stage t := by
  rcases Nat.lt_or_gt_of_ne h with hlt | hgt
  · rw [stage_wake_lt p hlt, stage_wake_lt p' hlt]
  · rw [stage_wake_gt p hgt, stage_wake_gt p' hgt]

/-- `wake4run` goes on to the next worker. -/
theorem stage_wake_next (p : WakePc) (h : t ≠ tid) :
    (wake .acquire (tid + 1)).stage t = (wake p tid).stage t := by
  rcases Nat.lt_or_gt_of_ne h with hlt | hgt
  · rw [stage_wake_lt p hlt, stage_wake_lt _ (Nat.lt_succ_of_lt hlt)]
  · rw [stage_wake_gt p hgt]
    rcases Nat.eq_or_lt_of_le hgt with heq | hgt
    · rw [← heq]
      exact stage_wake _ _
    · exact stage_wake_gt _ hgt

end ShutdownPc

namespace Shutdown

variable {s s' : Shutdown} {l : ShutdownLabel}

/-- Each worker is where the destructor has brought it. -/
def Inv (s : Shutdown) : Prop := ∀ t w, s.threads[t]? = some w → Closing (s.pc.stage t) t w

theorem Inv.goto (h : Inv s) {pc : ShutdownPc} (n : Nat) (b : List Nat)
    (hst : ∀ t, t < s.threads.length → pc.stage t = s.pc.stage t) :
    Inv ⟨s.threads, n, pc, b⟩ := by
  intro t w hw
  rw [show (Shutdown.mk s.threads n pc b).pc = pc from rfl,
    hst t (List.getElem?_eq_some_iff.mp hw).1]
  exact h t w hw

theorem Inv.setThread (h : Inv s) {tid : Nat} {w : WorkerThread} {pc : ShutdownPc} (n : Nat)
    (hst : ∀ t, t ≠ tid → pc.stage t = s.pc.stage t) (hw : Closing (pc.stage tid) tid w) :
    Inv ⟨s.threads.set tid w, n, pc, s.begun⟩ := by
  intro t w' hw'
  have hw' : (s.threads.set tid w)[t]? = some w' := hw'
  show Closing (pc.stage t) t w'
  by_cases ht : t = tid
  · subst ht
    obtain ⟨ht, hget⟩ := List.getElem?_eq_some_iff.mp hw'
    rw [List.getElem_set_self ht] at hget
    exact hget ▸ hw
  · rw [List.getElem?_set_ne (Ne.symm ht)] at hw'
    rw [hst t ht]
    exact h t w' hw'

/-- What a step of the destructor can be. With `Inv`, no call into pthreads fails. -/
inductive Destructs (s : Shutdown) : Shutdown → Prop
  | mutexDestroy : s.pc = .mutexDestroy → Destructs s { s with pc := .mutexAttrDestroy }
  | mutexAttrDestroy : s.pc = .mutexAttrDestroy → Destructs s { s with pc := .condDestroy }
  | condDestroy : s.pc = .condDestroy → Destructs s { s with pc := .wake .acquire 0 }
  | lock {tid : Nat} {w : WorkerThread} : s.pc = .wake .acquire tid →
      s.threads[tid]? = some w → w.stateLock.owner = none →
      Destructs s { s with
        threads := s.threads.set tid { w with stateLock := ⟨some .scheduler⟩ }
        pc := .wake .setState tid }
  | tell {tid : Nat} {w : WorkerThread} : s.pc = .wake .setState tid → s.threads[tid]? = some w →
      Destructs s { s with
        threads := s.threads.set tid { w with state := .exit }, pc := .wake .incPpt tid }
  | incPpt {tid : Nat} : s.pc = .wake .incPpt tid → tid < s.threads.length →
      Destructs s { s with
        pendingThreads := Structures.incPpt s.pendingThreads, pc := .wake .release tid }
  | unlock {tid : Nat} {w : WorkerThread} : s.pc = .wake .release tid → s.threads[tid]? = some w →
      Destructs s { s with
        threads := s.threads.set tid { w with stateLock := ⟨none⟩ }, pc := .wake .signal tid }
  | signal {tid : Nat} {w : WorkerThread} : s.pc = .wake .signal tid → s.threads[tid]? = some w →
      Destructs s { s with
        threads := s.threads.set tid w.signal, pc := .wake .acquire (tid + 1) }
  | woken {p : WakePc} {tid : Nat} : s.pc = .wake p tid → s.threads.length ≤ tid →
      Destructs s { s with pc := .delete .condDestroy 0 }
  | delete {tid : Nat} : s.pc = .delete .condDestroy tid → tid < s.threads.length →
      Destructs s { s with begun := s.begun ++ [tid], pc := .delete .stateLockDestroy tid }
  | stateLock {tid : Nat} : s.pc = .delete .stateLockDestroy tid → tid < s.threads.length →
      Destructs s { s with pc := .delete .mutexAttrDestroy tid }
  | mutexAttr {tid : Nat} : s.pc = .delete .mutexAttrDestroy tid → tid < s.threads.length →
      Destructs s { s with pc := .delete .deleteTaskQueue tid }
  | taskQueue {tid : Nat} : s.pc = .delete .deleteTaskQueue tid → tid < s.threads.length →
      Destructs s { s with pc := .delete .condDestroy (tid + 1) }
  | deleted {p : DeletePc} {tid : Nat} : s.pc = .delete p tid → s.threads.length ≤ tid →
      Destructs s { s with pc := .done }

theorem wakeStep_destructs (h : Inv s) {p : WakePc} {tid : Nat} (hpc : s.pc = .wake p tid)
    (hs : s.wakeStep tid p = some s') : Destructs s s' := by
  unfold Shutdown.wakeStep at hs
  split at hs
  · next hnone =>
    cases hs
    exact .woken hpc (List.getElem?_eq_none_iff.mp hnone)
  · next w hw =>
    have hat := h tid w hw
    rw [hpc, ShutdownPc.stage_wake] at hat
    cases p with
    | acquire =>
      have hfree : w.stateLock.owner ≠ some .scheduler := fun ho => by cases hat.scheduler.mp ho
      rw [WorkerThread.wakeStep] at hs
      obtain ⟨ho, hs⟩ := Mutex.lock_eq_some hfree hs
      cases hs
      exact .lock hpc hw ho
    | setState =>
      cases hs
      exact .tell hpc hw
    | incPpt =>
      cases hs
      exact .incPpt hpc (List.getElem?_eq_some_iff.mp hw).1
    | release =>
      have hown : w.stateLock.owner = some .scheduler := hat.scheduler.mpr rfl
      rw [WorkerThread.wakeStep, Mutex.unlock_owner hown] at hs
      cases hs
      exact .unlock hpc hw
    | signal =>
      cases hs
      exact .signal hpc hw

theorem deleteStep_destructs {p : DeletePc} {tid : Nat} (hpc : s.pc = .delete p tid)
    (hs : s.deleteStep tid p = some s') : Destructs s s' := by
  unfold deleteStep at hs
  split at hs
  · next ht =>
    cases p with
    | condDestroy => cases hs; exact .delete hpc ht
    | stateLockDestroy => cases hs; exact .stateLock hpc ht
    | mutexAttrDestroy => cases hs; exact .mutexAttr hpc ht
    | deleteTaskQueue => cases hs; exact .taskQueue hpc ht
  · next ht =>
    cases hs
    exact .deleted hpc (Nat.le_of_not_lt ht)

theorem step_destructs (h : Inv s) (hs : step .destructor s = some s') : Destructs s s' := by
  have hs : s.destructorStep = some s' := hs
  unfold destructorStep at hs
  split at hs
  · next hpc => cases hs; exact .mutexDestroy hpc
  · next hpc => cases hs; exact .mutexAttrDestroy hpc
  · next hpc => cases hs; exact .condDestroy hpc
  · next hpc => exact wakeStep_destructs h hpc hs
  · next hpc => exact deleteStep_destructs hpc hs
  · cases hs
  · cases hs

/-- What a step of a worker can be. -/
theorem step_worker {tid : Nat} (hs : step (.worker tid) s = some s') :
    ∃ w w' e n, s.threads[tid]? = some w ∧ w.step tid s.pendingThreads = some (w', e) ∧
      s' = { s with threads := s.threads.set tid w', pendingThreads := n } := by
  obtain ⟨w, hw, hs⟩ := Option.bind_eq_some_iff.mp hs
  obtain ⟨⟨w', e⟩, hw', hs⟩ := Option.bind_eq_some_iff.mp hs
  cases hs
  cases e <;> exact ⟨w, w', _, _, hw, hw', rfl⟩

theorem step_spurious {tid : Nat} (hs : step (.spurious tid) s = some s') :
    ∃ w w', s.threads[tid]? = some w ∧ w.wakeUp = some w' ∧
      s' = { s with threads := s.threads.set tid w' } := by
  obtain ⟨w, hw, hs⟩ := Option.bind_eq_some_iff.mp hs
  obtain ⟨w', hw', hs⟩ := Option.bind_eq_some_iff.mp hs
  cases hs
  exact ⟨w, w', hw, hw', rfl⟩

/-- A step of `wake(EXIT)` at a worker. -/
theorem Inv.wake (h : Inv s) {p p' : WakePc} {tid : Nat} (hpc : s.pc = .wake p tid)
    {w w' : WorkerThread} (hw : s.threads[tid]? = some w)
    (hw' : Closing p.stage tid w → Closing p'.stage tid w') :
    Inv { s with threads := s.threads.set tid w', pc := .wake p' tid } := by
  have hat := h tid w hw
  rw [hpc, ShutdownPc.stage_wake] at hat
  refine h.setThread _ (fun t ht => ?_) ?_
  · rw [hpc]
    exact ShutdownPc.stage_wake_other p' p ht
  · rw [ShutdownPc.stage_wake]
    exact hw' hat

theorem Inv.destructs (h : Inv s) (hs : Destructs s s') : Inv s' := by
  -- all workers have been woken
  have hwoken : ∀ {p : DeletePc} {tid : Nat} {pc : ShutdownPc}, s.pc = .delete p tid →
      (∀ t, pc.stage t = .woken) → ∀ t, t < s.threads.length → pc.stage t = s.pc.stage t := by
    intro p tid pc hpc hp t _
    rw [hp, hpc]
    rfl
  cases hs with
  | mutexDestroy hpc | mutexAttrDestroy hpc => exact h.goto _ _ fun t _ => by rw [hpc]; rfl
  | condDestroy hpc =>
    refine h.goto _ _ fun t _ => ?_
    rw [hpc]
    rcases Nat.eq_zero_or_pos t with rfl | ht
    · exact ShutdownPc.stage_wake _ _
    · exact ShutdownPc.stage_wake_gt _ ht
  | lock hpc hw ho => exact h.wake hpc hw fun hat => hat.lock ho
  | tell hpc hw => exact h.wake hpc hw Closing.tell
  | @incPpt tid hpc ht =>
    refine h.goto _ _ fun t _ => ?_
    rw [hpc]
    by_cases ht : t = tid
    · rw [ht, ShutdownPc.stage_wake, ShutdownPc.stage_wake]
      rfl
    · exact ShutdownPc.stage_wake_other _ _ ht
  | unlock hpc hw => exact h.wake hpc hw Closing.unlock
  | @signal tid w hpc hw =>
    have hat := h tid w hw
    rw [hpc, ShutdownPc.stage_wake] at hat
    refine h.setThread _ (fun t ht => ?_) ?_
    · rw [hpc]
      exact ShutdownPc.stage_wake_next _ ht
    · rw [ShutdownPc.stage_wake_lt _ (Nat.lt_succ_self tid)]
      exact hat.signal
  | @woken p tid hpc hle =>
    refine h.goto _ _ fun t ht => ?_
    rw [hpc, ShutdownPc.stage_wake_lt p (Nat.lt_of_lt_of_le ht hle)]
    rfl
  | delete hpc | stateLock hpc | mutexAttr hpc | taskQueue hpc | deleted hpc =>
    exact h.goto _ _ (hwoken hpc fun _ => rfl)

theorem Inv.step (h : Inv s) (hs : step l s = some s') : Inv s' := by
  cases l with
  | destructor => exact h.destructs (step_destructs h hs)
  | worker tid =>
    obtain ⟨w, w', e, n, hw, hw', rfl⟩ := step_worker hs
    exact h.setThread _ (fun _ _ => rfl) ((h tid w hw).step hw')
  | spurious tid =>
    obtain ⟨w, w', hw, hw', rfl⟩ := step_spurious hs
    exact h.setThread _ (fun _ _ => rfl) ((h tid w hw).wakeUp hw')

theorem inv_start {threads : List WorkerThread} (n : Nat)
    (h : ∀ t w, threads[t]? = some w → Asleep t w) : Inv (start threads n) :=
  fun t w hw => .of_asleep (h t w hw)

end Shutdown

end Monya.Structures
