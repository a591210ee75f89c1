/-
  What a step of a thread can do.

  In a pool with the invariant every lock is where it should be and nothing throws, so the step
  functions of `ThreadPool` and `WorkerThread` have few outcomes: `SchedulerMove s s'` lists those
  of the scheduling thread, each with its guard, and `WorkerMove` those of a worker. Steps that only
  move the thread on, and perhaps lock or unlock a mutex, are `SchedulerPc.Next` and
  `WorkerPc.Next`. `Inv.schedulerMove` and `workerMove` say that there are no others, and results
  about whole runs go through these cases rather than through the step functions.
-/
import Monya.Structures.Barrier

namespace Monya.Structures

open Monya.Lib

/-! ## The lists after a call -/

namespace Scheduler

/-- The call `schedule(x)` fills the current level. -/
def fills (s : Scheduler) (x : Nat) : Bool :=
  match (s.push x).getNodes (s.push x).currentLevel with
  | .ok level => (s.push x).fanout ^ (s.push x).currentLevel = level.length
  | .error _ => false

/-- The lists after the call `schedule(x)`. -/
def scheduled (s : Scheduler) (x : Nat) : Scheduler :=
  if s.fills x then { s.push x with currentLevel := (s.push x).currentLevel + 1 } else s.push x

variable {s : Scheduler} {full full' : List (List Nat)} {pend pend' : List Nat}

theorem push_currentLevel (s : Scheduler) (x : Nat) :
    (s.push x).currentLevel = s.currentLevel := by
  unfold push
  split <;> rfl

theorem At.fills_eq (h : s.At full pend) (x : Nat) :
    s.fills x = decide (s.fanout ^ full.length = (pend ++ [x]).length) := by
  unfold fills
  rw [(h.push x).getNodes_pend (by simp), push_fanout, (h.push x).level]

theorem At.scheduled_full (h : s.At full pend) {x : Nat} (hx : s.fills x = true) :
    (s.scheduled x).At (full ++ [pend ++ [x]]) [] := by
  have hp := h.push x
  rw [scheduled, if_pos hx]
  exact ⟨by simp [hp.level], by simp [hp.nodes]⟩

theorem At.unique (h : s.At full pend) (h' : s.At full' pend') : full' = full ∧ pend' = pend := by
  have hlen : full'.length = full.length := h'.level.symm.trans h.level
  have hnodes := h'.nodes.symm.trans h.nodes
  obtain ⟨hfull, hrest⟩ := List.append_inj hnodes hlen
  refine ⟨hfull, ?_⟩
  by_cases hp : pend = [] <;> by_cases hp' : pend' = []
  · rw [hp, hp']
  · rw [if_neg hp', if_pos hp] at hrest
    cases hrest
  · rw [if_pos hp', if_neg hp] at hrest
    cases hrest
  · rw [if_neg hp', if_neg hp] at hrest
    exact List.singleton_inj.mp hrest

/-- A call of `schedule`, by whether it fills the level. -/
theorem At.schedule_eq {σ : Type} (train : Nat → σ → Except Fault σ) (h : s.At full pend) (x : Nat)
    (st : σ) :
    schedule train x (s, st) =
      if s.fills x then do
        let st ← (pend ++ [x]).foldlM (fun st x => train x st) st
        return (s.scheduled x, st)
      else .ok (s.scheduled x, st) := by
  have hget := (h.push x).getNodes_pend (by simp)
  have hne : ¬ (pend ++ [x]).length = 0 := by simp
  unfold schedule scheduled fills
  dsimp only
  rw [hget, ok_bind]
  by_cases hfull : (s.push x).fanout ^ (s.push x).currentLevel = (pend ++ [x]).length
  · simp only [hfull, if_true, decide_true]
    rw [runLevel, if_neg hne]
  · simp only [hfull, if_false, decide_false, Bool.false_eq_true]
    rfl

end Scheduler

/-! ## The moves -/

/-- The steps that only move the scheduling thread on. -/
inductive SchedulerPc.Next (s : Pool) : SchedulerPc → SchedulerPc → Prop
  | started (h : s.nthread ≤ s.threads.length) : Next s .create (.wait4completion .lock .ctor)
  | lock (c : CompletionCaller) : Next s (.wait4completion .lock c) (.wait4completion .test c)
  | pending (c : CompletionCaller) (h : s.pendingThreads ≠ 0) :
      Next s (.wait4completion .test c) (.wait4completion .enter c)
  | complete (c : CompletionCaller) (h : s.pendingThreads = 0) :
      Next s (.wait4completion .test c) (.wait4completion .unlock c)
  | sleep (c : CompletionCaller) : Next s (.wait4completion .enter c) (.wait4completion .asleep c)
  | reacquire (c : CompletionCaller) :
      Next s (.wait4completion .reacquire c) (.wait4completion .test c)
  | initialised : Next s (.wait4completion .unlock .ctor) .idle
  | returned (level : Nat) : Next s (.wait4completion .unlock (.runLevel level)) (.returned level)
  | scheduleLock (x : Nat) : Next s (.scheduleLock x) (.schedulePush x)
  | unlockPending : Next s (.scheduleUnlock false) .idle
  | unlockFull : Next s (.scheduleUnlock true) (.runLevel (s.lists.currentLevel - 1))
  | runLevel {level : Nat} {nodes : List Nat} {tid : CUnsigned}
      (hnodes : s.lists.getNodes level = .ok nodes) (hne : nodes ≠ []) (hz : tid.val = 0) :
      Next s (.runLevel level) (.enqueue .acquire level nodes 0 tid)
  | pushed {i level k : Nat} {nodes : List Nat} {tid : CUnsigned} (h : ¬ i < ntasks nodes k) :
      Next s (.enqueue (.push i) level nodes k tid) (.enqueue .release level nodes k tid)
  | woken {p : WakePc} {tid level : Nat} (h : s.threads[tid]? = none) :
      Next s (.wake p tid level) (.wait4completion .lock (.runLevel level))
  | back (level : Nat) : Next s (.returned level) .idle

/-- The scheduling thread owns the lock, or no thread does. -/
def NotWorkers (m : Mutex Thread) : Prop := m.owner = none ∨ m.owner = some .scheduler

/-- A step of the scheduling thread. -/
inductive SchedulerMove (s : Pool) : Pool → Prop
  | goto {pc pc' : SchedulerPc} (m : Mutex Thread) (hp : s.pc = pc)
      (h : SchedulerPc.Next s pc pc') : SchedulerMove s { s with mutex := m, pc := pc' }
  | create (hp : s.pc = .create) (hlt : s.threads.length < s.nthread) :
      SchedulerMove s { s with threads := s.threads ++ [.new] }
  | push {x : Nat} (hp : s.pc = .schedulePush x) :
      SchedulerMove s { s with
        lists := s.lists.scheduled x, pc := .scheduleUnlock (s.lists.fills x) }
  | queueLock {level k : Nat} {nodes : List Nat} {tid : CUnsigned} {w : WorkerThread}
      (m : Mutex Thread) (hm : NotWorkers m) (hp : s.pc = .enqueue .acquire level nodes k tid)
      (hw : s.threads[tid.val]? = some w) :
      SchedulerMove s { s with
        threads := s.threads.set tid.val { w with taskQueue.mutex := m }
        pc := .enqueue (.push 0) level nodes k tid }
  | queuePush {i level k x : Nat} {nodes : List Nat} {tid : CUnsigned} {w : WorkerThread}
      (hp : s.pc = .enqueue (.push i) level nodes k tid) (hi : i < ntasks nodes k)
      (hx : nodes[k + i]? = some x) (hw : s.threads[tid.val]? = some w) :
      SchedulerMove s { s with
        threads := s.threads.set tid.val { w with taskQueue.tasks := w.taskQueue.tasks ++ [x] }
        pc := .enqueue (.push (i + 1)) level nodes k tid }
  | queueNext {level k : Nat} {nodes : List Nat} {tid : CUnsigned} {w : WorkerThread}
      (m : Mutex Thread) (hm : NotWorkers m) (hp : s.pc = .enqueue .release level nodes k tid)
      (hw : s.threads[tid.val]? = some w) (hne : k + ntasks nodes k ≠ nodes.length) :
      SchedulerMove s { s with
        threads := s.threads.set tid.val { w with taskQueue.mutex := m }
        pc := .enqueue .acquire level nodes (k + ntasks nodes k) tid.inc }
  | queueLast {level k : Nat} {nodes : List Nat} {tid : CUnsigned} {w : WorkerThread}
      (m : Mutex Thread) (hm : NotWorkers m) (hp : s.pc = .enqueue .release level nodes k tid)
      (hw : s.threads[tid.val]? = some w) (hend : k + ntasks nodes k = nodes.length) :
      SchedulerMove s { s with
        threads := s.threads.set tid.val { w with taskQueue.mutex := m }
        pc := .wake .acquire 0 level }
  | stateLock {tid level : Nat} {w : WorkerThread} (m : Mutex Thread) (hm : NotWorkers m)
      (hp : s.pc = .wake .acquire tid level) (hw : s.threads[tid]? = some w) :
      SchedulerMove s { s with
        threads := s.threads.set tid { w with stateLock := m }, pc := .wake .setState tid level }
  | setState {tid level : Nat} {w : WorkerThread} (hp : s.pc = .wake .setState tid level)
      (hw : s.threads[tid]? = some w) :
      SchedulerMove s { s with
        threads := s.threads.set tid { w with state := .build }, pc := .wake .incPpt tid level }
  | incPpt {tid level : Nat} {w : WorkerThread} (hp : s.pc = .wake .incPpt tid level)
      (hw : s.threads[tid]? = some w) :
      SchedulerMove s { s with
        pendingThreads := Structures.incPpt s.pendingThreads, pc := .wake .release tid level }
  | stateUnlock {tid level : Nat} {w : WorkerThread} (m : Mutex Thread) (hm : NotWorkers m)
      (hp : s.pc = .wake .release tid level) (hw : s.threads[tid]? = some w) :
      SchedulerMove s { s with
        threads := s.threads.set tid { w with stateLock := m }, pc := .wake .signal tid level }
  | signal {tid level : Nat} {w : WorkerThread} (hp : s.pc = .wake .signal tid level)
      (hw : s.threads[tid]? = some w) :
      SchedulerMove s { s with
        threads := s.threads.set tid w.signal, pc := .wake .acquire (tid + 1) level }

/-- The steps that only move a worker on. -/
inductive WorkerPc.Next (w : WorkerThread) : WorkerPc → WorkerPc → Prop
  | testWait (h : w.state = .wait) : Next w .testWait (.wait .acquire .callback)
  | testBuild (h : w.state = .build) : Next w .testWait .testExit
  | testExit : Next w .testExit .run
  | run : Next w .run (.dequeue .testEmpty)
  | empty (h : w.taskQueue.tasks = []) : Next w (.dequeue .testEmpty) (.wait .acquire .run)
  | nonempty : Next w (.dequeue .testEmpty) (.dequeue .acquire)
  | queueLock : Next w (.dequeue .acquire) (.dequeue .pop)
  | queueUnlock (x : Nat) : Next w (.dequeue (.release x)) (.prep x)
  | acquire (c : WaitCaller) : Next w (.wait .acquire c) (.wait .setWait c)
  | last (c : WaitCaller) : Next w (.wait .testPpt c) (.wait .signal c)
  | others (c : WaitCaller) (h : w.state = .wait) : Next w (.wait .testPpt c) (.wait .testState c)
  | stay (c : WaitCaller) (h : w.state = .wait) : Next w (.wait .testState c) (.wait .enter c)
  | build (c : WaitCaller) (h : w.state = .build) : Next w (.wait .testState c) (.wait .release c)
  | sleep (c : WaitCaller) (h : w.state = .wait) : Next w (.wait .enter c) (.wait .asleep c)
  | reacquire (c : WaitCaller) : Next w (.wait .reacquire c) (.wait .testState c)
  | callback : Next w (.wait .release .callback) .testExit
  | loop (h : w.state = .build) : Next w (.wait .release .run) .testWait

/-- Worker `tid` owns the lock, or no thread does. -/
def Mine (tid : Nat) (m : Mutex Thread) : Prop := m.owner = none ∨ m.owner = some (.worker tid)

/-- A step of worker `tid`. -/
inductive WorkerMove (tid : Nat) (w : WorkerThread) : WorkerThread → Effect → Prop
  | goto {pc pc' : WorkerPc} {sl qm : Mutex Thread} (hp : w.pc = pc) (h : WorkerPc.Next w pc pc')
      (hsl : sl = w.stateLock ∨ Mine tid sl) (hqm : qm = w.taskQueue.mutex ∨ Mine tid qm) :
      WorkerMove tid w ⟨w.state, sl, ⟨w.taskQueue.tasks, qm⟩, pc'⟩ .silent
  | pop {x : Nat} {xs : List Nat} (hp : w.pc = .dequeue .pop) (ht : w.taskQueue.tasks = x :: xs) :
      WorkerMove tid w { w with taskQueue.tasks := xs, pc := .dequeue (.release x) } .silent
  | prep {x : Nat} (hp : w.pc = .prep x) :
      WorkerMove tid w { w with pc := .runNode x } (.task (.prep x))
  | run {x : Nat} (hp : w.pc = .runNode x) :
      WorkerMove tid w { w with pc := .dequeue .testEmpty } (.task (.run x))
  | setWait {c : WaitCaller} (hp : w.pc = .wait .setWait c) :
      WorkerMove tid w { w with state := .wait, pc := .wait .decPpt c } .silent
  | decPpt {c : WaitCaller} (hp : w.pc = .wait .decPpt c) :
      WorkerMove tid w { w with pc := .wait .testPpt c } .decPpt
  | signal {c : WaitCaller} (hp : w.pc = .wait .signal c) (hs : w.state = .wait) :
      WorkerMove tid w { w with pc := .wait .testState c } .signalParent

/-! ## There are no others -/

variable {T : Nat} {s s' : Pool}

theorem Inv.completionMove (h : Inv T s) {p : CompletionPc} {caller : CompletionCaller}
    (hp : s.pc = .wait4completion p caller) (hs : s.completionStep caller p = some s') :
    SchedulerMove s s' := by
  have hm := h.mutex
  rw [hp] at hm
  cases p with
  | lock =>
    rw [Pool.completionStep] at hs
    obtain ⟨-, hs⟩ := Mutex.lock_eq_some (fun ho => by rw [hm] at ho; cases ho) hs
    cases hs
    exact .goto _ hp (.lock caller)
  | test =>
    by_cases h₀ : s.pendingThreads = 0
    · rw [Pool.completionStep, if_neg (not_not.mpr h₀)] at hs
      cases hs
      exact .goto s.mutex hp (.complete caller h₀)
    · rw [Pool.completionStep, if_pos h₀] at hs
      cases hs
      exact .goto s.mutex hp (.pending caller h₀)
  | enter =>
    rw [Pool.completionStep, Mutex.unlock_owner hm] at hs
    cases hs
    exact .goto _ hp (.sleep caller)
  | asleep => cases hs
  | reacquire =>
    rw [Pool.completionStep] at hs
    obtain ⟨-, hs⟩ := Mutex.lock_eq_some (fun ho => by rw [hm] at ho; cases ho) hs
    cases hs
    exact .goto _ hp (.reacquire caller)
  | unlock =>
    cases caller with
    | ctor =>
      rw [Pool.completionStep, Mutex.unlock_owner hm] at hs
      cases hs
      exact .goto _ hp .initialised
    | runLevel level =>
      rw [Pool.completionStep, Mutex.unlock_owner hm] at hs
      cases hs
      exact .goto _ hp (.returned level)

theorem Inv.pushMove (h : Inv T s) {x : Nat} (hp : s.pc = .schedulePush x)
    (hs : s.schedulePush x = some s') : SchedulerMove s s' := by
  obtain ⟨full, pend, hl⟩ := h.levels
  have hget := (hl.lists.push x).getNodes_pend (by simp)
  have hmove := SchedulerMove.push hp
  unfold Scheduler.scheduled Scheduler.fills at hmove
  rw [hget] at hmove
  unfold Pool.schedulePush at hs
  simp only [hget] at hs
  by_cases hfull : (s.lists.push x).fanout ^ (s.lists.push x).currentLevel = (pend ++ [x]).length
  · rw [if_pos hfull] at hs
    cases hs
    simpa only [hfull, decide_true, if_true] using hmove
  · rw [if_neg hfull] at hs
    cases hs
    simpa only [hfull, decide_false, Bool.false_eq_true, if_false] using hmove

theorem runLevelMove {level : Nat} (hp : s.pc = .runLevel level)
    (hs : s.runLevelStep level = some s') (hv : s'.pc ≠ .thrown) : SchedulerMove s s' := by
  unfold Pool.runLevelStep at hs
  split at hs
  · cases hs
    exact absurd rfl hv
  · next nodes hnodes =>
    split at hs
    · cases hs
      exact absurd rfl hv
    · next hne =>
      split at hs
      · cases hs
        exact absurd rfl hv
      · next tid htid =>
        cases hs
        unfold CUnsigned.new at htid
        split at htid
        · cases htid
          exact .goto s.mutex hp (.runLevel hnodes (fun hnil => hne (by rw [hnil]; rfl)) rfl)
        · cases htid

theorem enqueueMove {p : EnqueuePc} {level k : Nat} {nodes : List Nat}
    {tid : CUnsigned} (hp : s.pc = .enqueue p level nodes k tid)
    (hs : s.enqueueStep level nodes k tid p = some s') (hv : s'.pc ≠ .thrown) :
    SchedulerMove s s' := by
  unfold Pool.enqueueStep at hs
  cases hw : s.threads[tid.val]? with
  | none =>
    rw [hw] at hs
    cases hs
    exact absurd rfl hv
  | some w =>
    rw [hw] at hs
    cases p with
    | acquire =>
      rcases Mutex.lock_cases hs with hs | hs
      · cases hs
        exact .queueLock _ (.inr rfl) hp hw
      · cases hs
        exact absurd rfl hv
    | push i =>
      dsimp only at hs
      by_cases hi : i < ntasks nodes k
      · rw [if_pos hi] at hs
        cases hx : nodes[k + i]? with
        | none =>
          rw [hx] at hs
          cases hs
          exact absurd rfl hv
        | some x =>
          rw [hx] at hs
          cases hs
          exact .queuePush hp hi hx hw
      · rw [if_neg hi] at hs
        cases hs
        exact .goto s.mutex hp (.pushed hi)
    | release =>
      rcases Mutex.unlock_cases hs with hs | hs
      · by_cases hlast : k + ntasks nodes k = nodes.length
        · rw [if_pos hlast] at hs
          cases hs
          exact .queueLast _ (.inl rfl) hp hw hlast
        · rw [if_neg hlast] at hs
          cases hs
          exact .queueNext _ (.inl rfl) hp hw hlast
      · cases hs
        exact absurd rfl hv

theorem wakeMove {p : WakePc} {tid level : Nat} (hp : s.pc = .wake p tid level)
    (hs : s.wakeStep tid level p = some s') (hv : s'.pc ≠ .thrown) : SchedulerMove s s' := by
  unfold Pool.wakeStep at hs
  cases hw : s.threads[tid]? with
  | none =>
    rw [hw] at hs
    cases hs
    exact .goto s.mutex hp (.woken hw)
  | some w =>
    rw [hw] at hs
    cases p with
    | acquire =>
      rcases Mutex.lock_cases hs with hs | hs
      · cases hs
        exact .stateLock _ (.inr rfl) hp hw
      · cases hs
        exact absurd rfl hv
    | setState =>
      cases hs
      exact .setState hp hw
    | incPpt =>
      cases hs
      exact .incPpt hp hw
    | release =>
      rcases Mutex.unlock_cases hs with hs | hs
      · cases hs
        exact .stateUnlock _ (.inl rfl) hp hw
      · cases hs
        exact absurd rfl hv
    | signal =>
      cases hs
      exact .signal hp hw

/-- What a step of the scheduling thread can do. -/
theorem Inv.schedulerMove (h : Inv T s) (hT : 1 ≤ T) (hT' : T < 2 ^ 32)
    (hs : s.schedulerStep = some s') : SchedulerMove s s' := by
  have hv := (h.schedulerStep hT hT' hs).valid
  have hm := h.mutex
  unfold Pool.schedulerStep at hs
  cases hp : s.pc with
  | create =>
    rw [hp] at hs
    dsimp only at hs
    by_cases hlt : s.threads.length < s.nthread
    · rw [if_pos hlt] at hs
      cases hs
      have hmove := SchedulerMove.create hp hlt
      rwa [hp] at hmove
    · rw [if_neg hlt] at hs
      cases hs
      exact .goto s.mutex hp (.started (Nat.le_of_not_lt hlt))
  | wait4completion p caller =>
    rw [hp] at hs
    exact h.completionMove hp hs
  | idle =>
    rw [hp] at hs
    cases hs
  | scheduleLock x =>
    rw [hp] at hs
    rcases Mutex.lock_cases hs with hs | hs
    · cases hs
      exact .goto _ hp (.scheduleLock x)
    · cases hs
      exact .goto s.mutex hp (.scheduleLock x)
  | schedulePush x =>
    rw [hp] at hs
    exact h.pushMove hp hs
  | scheduleUnlock full =>
    rw [hp] at hs hm
    dsimp only at hs
    rw [Mutex.unlock_owner hm] at hs
    cases hs
    cases full with
    | false => exact .goto _ hp .unlockPending
    | true => exact .goto _ hp .unlockFull
  | runLevel level =>
    rw [hp] at hs
    exact runLevelMove hp hs hv
  | enqueue p level nodes k tid =>
    rw [hp] at hs
    exact enqueueMove hp hs hv
  | wake p tid level =>
    rw [hp] at hs
    exact wakeMove hp hs hv
  | returned level =>
    rw [hp] at hs
    cases hs
    exact .goto s.mutex hp (.back level)
  | thrown => exact absurd hp h.valid

section Worker

open WorkerThread

variable {tid pending : Nat} {w w' : WorkerThread} {e : Effect}

/-- A step that changes nothing but the place. -/
theorem WorkerMove.of_goto {pc : WorkerPc} (hn : WorkerPc.Next w w.pc pc)
    (hs : w.goto pc = some (w', e)) : WorkerMove tid w w' e := by
  cases hs
  exact .goto rfl hn (.inl rfl) (.inl rfl)

theorem dequeueMove {p : DequeuePc} (h : WorkerOk tid w) (hp : w.pc = .dequeue p)
    (hs : w.dequeueStep tid p = some (w', e)) : WorkerMove tid w w' e := by
  obtain ⟨state, sl, ⟨tasks, qm⟩, pc⟩ := w
  obtain rfl : pc = .dequeue p := hp
  cases p with
  | testEmpty =>
    by_cases ht : tasks = []
    · rw [dequeueStep, if_pos ht] at hs
      exact .of_goto (.empty ht) hs
    · rw [dequeueStep, if_neg ht] at hs
      exact .of_goto .nonempty hs
  | acquire =>
    have hfree : qm.owner ≠ some (.worker tid) := fun ho => by simpa using h.queueLock.mp ho
    rw [dequeueStep] at hs
    obtain ⟨-, hs⟩ := Mutex.lock_eq_some hfree hs
    cases hs
    exact .goto rfl .queueLock (.inl rfl) (.inr (.inr rfl))
  | pop =>
    cases tasks with
    | nil => exact absurd rfl h.tasks
    | cons x xs =>
      cases hs
      exact .pop rfl rfl
  | release x =>
    have hown : qm.owner = some (.worker tid) := h.queueLock.mpr rfl
    rw [dequeueStep, Mutex.unlock_owner hown] at hs
    cases hs
    exact .goto rfl (.queueUnlock x) (.inl rfl) (.inr (.inl rfl))

theorem waitMove {p : WaitPc} {caller : WaitCaller} (h : WorkerOk tid w)
    (hp : w.pc = .wait p caller) (hs : w.waitStep tid pending caller p = some (w', e)) :
    WorkerMove tid w w' e := by
  obtain ⟨state, sl, ⟨tasks, qm⟩, pc⟩ := w
  obtain rfl : pc = .wait p caller := hp
  have hfree : (WorkerPc.wait p caller).holdsState = false → sl.owner ≠ some (.worker tid) :=
    fun hf ho => by rw [h.stateLock.mp ho] at hf; cases hf
  have hown : (WorkerPc.wait p caller).holdsState = true → sl.owner = some (.worker tid) :=
    h.stateLock.mpr
  cases p with
  | acquire =>
    rw [waitStep] at hs
    obtain ⟨-, hs⟩ := Mutex.lock_eq_some (hfree rfl) hs
    cases hs
    exact .goto rfl (.acquire caller) (.inr (.inr rfl)) (.inl rfl)
  | setWait =>
    cases hs
    exact .setWait rfl
  | decPpt =>
    cases hs
    exact .decPpt rfl
  | testPpt =>
    by_cases hz : pending = 0
    · rw [waitStep, if_pos hz] at hs
      exact .of_goto (.last caller) hs
    · rw [waitStep, if_neg hz] at hs
      exact .of_goto (.others caller h.state) hs
  | signal =>
    cases hs
    exact .signal rfl h.state
  | testState =>
    by_cases hw : state = .wait
    · rw [waitStep, if_pos hw] at hs
      exact .of_goto (.stay caller hw) hs
    · rw [waitStep, if_neg hw] at hs
      exact .of_goto (.build caller (h.state.resolve_left hw)) hs
  | enter =>
    rw [waitStep, Mutex.unlock_owner (hown rfl)] at hs
    cases hs
    exact .goto rfl (.sleep caller h.state) (.inr (.inl rfl)) (.inl rfl)
  | asleep => cases hs
  | reacquire =>
    rw [waitStep] at hs
    obtain ⟨-, hs⟩ := Mutex.lock_eq_some (hfree rfl) hs
    cases hs
    exact .goto rfl (.reacquire caller) (.inr (.inr rfl)) (.inl rfl)
  | release =>
    cases caller with
    | callback =>
      rw [waitStep, Mutex.unlock_owner (hown rfl)] at hs
      cases hs
      exact .goto rfl .callback (.inr (.inl rfl)) (.inl rfl)
    | run =>
      rw [waitStep, Mutex.unlock_owner (hown rfl)] at hs
      cases hs
      exact .goto rfl (.loop h.state) (.inr (.inl rfl)) (.inl rfl)

/-- What a step of a worker can do. -/
theorem workerMove (h : WorkerOk tid w) (hs : w.step tid pending = some (w', e)) :
    WorkerMove tid w w' e := by
  obtain ⟨state, sl, ⟨tasks, qm⟩, pc⟩ := w
  cases pc with
  | testWait =>
    by_cases hw : state = .wait
    · subst hw
      exact .of_goto (.testWait rfl) hs
    · obtain rfl : state = .build := h.state.resolve_left hw
      exact .of_goto (.testBuild rfl) hs
  | testExit =>
    obtain rfl : state = .build := h.state
    exact .of_goto .testExit hs
  | run =>
    obtain rfl : state = .build := h.state
    exact .of_goto .run hs
  | dequeue p => exact dequeueMove h rfl hs
  | prep x =>
    cases hs
    exact .prep rfl
  | runNode x =>
    cases hs
    exact .run rfl
  | wait p caller => exact waitMove h rfl hs
  | exited => exact absurd h.state id
  | thrown => exact absurd h.state id

end Worker

end Monya.Structures
