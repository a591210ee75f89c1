/-
  A call of `schedule` returns.

  `Pool.rank` counts the steps that are left: those of the scheduling thread, the tasks it has still
  to hand out and the workers it has still to wake, and for each worker the steps until it sleeps
  again. Every step of the scheduling thread and of a worker lowers it, so without new calls and
  without spurious wake-ups there are at most `rank` of them (`Inv.rank_lt`).

  `Inv.exists_step` is the other half: a pool that is not idle can go on. A thread that waits for a
  lock waits for a thread that does not; a worker that has been told to build is not left asleep;
  and the scheduling thread does not sleep past the last signal unless one has been lost, which
  `Completion` shows the code does not rule out. So a step that loses no signal is always there.
-/
import Monya.Structures.Training

namespace Monya.Structures

open Monya.Lib

/-! ## The rank -/

/-- The steps that a worker at `pc` takes until it sleeps, with an empty queue. A signal is worth
    three more: it may send the scheduling thread round its loop. -/
def WorkerPc.rank : WorkerPc → ThreadState → Nat
  | .testWait, state => if state = .wait then 11 else 14
  | .testExit, _ => 13
  | .run, _ => 12
  | .dequeue .testEmpty, _ => 11
  | .dequeue .acquire, _ => 10
  | .dequeue .pop, _ => 9
  | .dequeue (.release _), _ => 14
  | .prep _, _ => 13
  | .runNode _, _ => 12
  | .wait .acquire _, _ => 10
  | .wait .setWait _, _ => 9
  | .wait .decPpt _, _ => 8
  | .wait .testPpt _, _ => 7
  | .wait .signal _, _ => 6
  | .wait .testState _, state => if state = .wait then 2 else 16
  | .wait .enter _, _ => 1
  | .wait .asleep _, state => if state = .wait then 0 else 17
  | .wait .reacquire _, state => if state = .wait then 3 else 17
  | .wait .release _, _ => 15
  | .exited, _ | .thrown, _ => 0

def WorkerThread.rank (w : WorkerThread) : Nat :=
  w.pc.rank w.state + 6 * w.taskQueue.tasks.length

/-- What is left of `wake` at a worker, of the thirty steps that waking one is worth. -/
def WakePc.spent : WakePc → Nat
  | .acquire => 0
  | .setState => 1
  | .incPpt => 20
  | .release => 21
  | .signal => 22

/-- The steps of the scheduling thread from `wake4run` on, for `n` workers. -/
def wakeRank (n : Nat) : Nat := 30 * n + 6

/-- Twelve for each node to hand out: six are the worker's. -/
def levelRank (n nodes : Nat) : Nat := 12 * nodes + wakeRank n

/-- The number of nodes of a level. -/
def Scheduler.width (s : Scheduler) (level : Nat) : Nat := (s.nodes[level]?.getD []).length

def SchedulerPc.rank (s : Pool) : SchedulerPc → Nat
  | .create => 12 * (s.nthread - s.threads.length) + 6
  | .wait4completion .lock _ | .wait4completion .reacquire _ => 5
  | .wait4completion .test _ => 4
  | .wait4completion .enter _ | .wait4completion .unlock _ => 3
  | .wait4completion .asleep _ => 2
  | .returned _ => 1
  | .idle | .thrown => 0
  | .scheduleLock _ => levelRank s.nthread (s.lists.fanout ^ s.lists.currentLevel) + 4
  | .schedulePush _ => levelRank s.nthread (s.lists.fanout ^ s.lists.currentLevel) + 3
  | .scheduleUnlock true => levelRank s.nthread (s.lists.width (s.lists.currentLevel - 1)) + 2
  | .scheduleUnlock false => 1
  | .runLevel level => levelRank s.nthread (s.lists.width level) + 1
  | .enqueue .acquire _ nodes k _ => levelRank s.nthread (nodes.length - k)
  | .enqueue (.push i) _ nodes k _ => levelRank s.nthread (nodes.length - k) - 1 - 7 * i
  | .enqueue .release _ nodes k _ =>
      levelRank s.nthread (nodes.length - k) - 2 - 7 * ntasks nodes k
  | .wake p tid _ => wakeRank (s.nthread - tid) - p.spent

def Pool.rank (s : Pool) : Nat := (s.threads.map WorkerThread.rank).sum + s.pc.rank s

/-! ## Every step lowers it -/

section Rank

variable {T tid : Nat} {w w' : WorkerThread} {e : Effect} {s s' : Pool}

/-- What a step of a worker may add to the rank of the scheduling thread. -/
def Effect.cost : Effect → Nat
  | .signalParent => 3
  | _ => 0

theorem WorkerPc.Next.rank_lt {pc pc' : WorkerPc} (h : WorkerPc.Next w pc pc') :
    pc'.rank w.state < pc.rank w.state := by
  cases h with
  | testWait h | testBuild h | others c h | stay c h | build c h | sleep c h | loop h =>
    simp [WorkerPc.rank, h]
  | reacquire c =>
    simp only [WorkerPc.rank]
    split <;> omega
  | _ => simp [WorkerPc.rank]

theorem WorkerMove.rank_lt (hm : WorkerMove tid w w' e) : w'.rank + e.cost < w.rank := by
  cases hm with
  | goto hp hn _ _ =>
    have hlt := hn.rank_lt
    simp only [WorkerThread.rank, hp, Effect.cost]
    omega
  | pop hp ht =>
    simp only [WorkerThread.rank, hp, ht, WorkerPc.rank, Effect.cost, List.length_cons]
    omega
  | prep hp =>
    simp only [WorkerThread.rank, hp, WorkerPc.rank, Effect.cost]
    omega
  | run hp =>
    simp only [WorkerThread.rank, hp, WorkerPc.rank, Effect.cost]
    omega
  | setWait hp =>
    simp only [WorkerThread.rank, hp, WorkerPc.rank, Effect.cost]
    omega
  | decPpt hp =>
    simp only [WorkerThread.rank, hp, WorkerPc.rank, Effect.cost]
    omega
  | signal hp hs =>
    simp only [WorkerThread.rank, hp, hs, WorkerPc.rank, Effect.cost, if_true]
    omega

/-- The rank of the scheduling thread, but for where it is. -/
theorem SchedulerPc.rank_congr {pc : SchedulerPc} (hn : s'.nthread = s.nthread)
    (ht : s'.threads.length = s.threads.length) (hl : s'.lists = s.lists) :
    pc.rank s' = pc.rank s := by
  unfold SchedulerPc.rank
  rw [hn, ht, hl]

/-- One worker has changed, and the place of the scheduling thread. -/
theorem Pool.rank_lt_of_set {t : Nat} (hw : s.threads[t]? = some w) (hn : s'.nthread = s.nthread)
    (hl : s'.lists = s.lists) (ht : s'.threads = s.threads.set t w')
    (h : w'.rank + s'.pc.rank s < w.rank + s.pc.rank s) : s'.rank < s.rank := by
  have hset := sum_map_set WorkerThread.rank w' hw
  have hpc : s'.pc.rank s' = s'.pc.rank s :=
    SchedulerPc.rank_congr hn (by rw [ht, List.length_set]) hl
  rw [← ht] at hset
  unfold Pool.rank
  omega

/-- A step of a worker. -/
theorem WorkerMove.pool_rank_lt {t : Nat} (hm : WorkerMove t w w' e) (hw : s.threads[t]? = some w) :
    (Pool.apply { s with threads := s.threads.set t w' } t e).rank < s.rank := by
  have hlt := hm.rank_lt
  cases e with
  | silent => exact Pool.rank_lt_of_set hw rfl rfl rfl (Nat.add_lt_add_right hlt _)
  | decPpt =>
    rw [Pool.apply]
    exact Pool.rank_lt_of_set hw rfl rfl rfl (Nat.add_lt_add_right hlt _)
  | task k =>
    rw [Pool.apply]
    exact Pool.rank_lt_of_set hw rfl rfl rfl (Nat.add_lt_add_right hlt _)
  | signalParent =>
    have hlt' : w'.rank + 3 < w.rank := hlt
    rw [Pool.apply]
    cases hu : Pool.wakeUp { s with threads := s.threads.set t w' } with
    | none =>
      exact Pool.rank_lt_of_set hw rfl rfl rfl (Nat.add_lt_add_right (by omega) _)
    | some s' =>
      obtain ⟨c, hpc, rfl⟩ := Pool.wakeUp_eq hu
      refine Pool.rank_lt_of_set hw rfl rfl rfl ?_
      have hasleep : s.pc = .wait4completion .asleep c := hpc
      show w'.rank + 5 < _
      rw [hasleep]
      show w'.rank + 5 < w.rank + 2
      omega

theorem signal_rank_le (w : WorkerThread) : w.signal.rank ≤ w.rank + 3 := by
  unfold WorkerThread.signal
  cases hw : w.wakeUp with
  | none => exact Nat.le_add_right _ _
  | some w' =>
    unfold WorkerThread.wakeUp at hw
    split at hw
    · next c hp =>
      cases hw
      simp only [Option.getD_some, WorkerThread.rank, hp, WorkerPc.rank]
      split <;> omega
    · cases hw

theorem SchedulerPc.Next.rank_lt {pc pc' : SchedulerPc} (h : SchedulerPc.Next s pc pc')
    (hok : pc.LoopOk s.nthread) (hlen : pc ≠ .create → s.threads.length = s.nthread) :
    pc'.rank s < pc.rank s := by
  cases h with
  | @runLevel level nodes tid hnodes hne =>
    have hwidth : s.lists.width level = nodes.length := by
      unfold Scheduler.getNodes at hnodes
      split at hnodes
      · next xs hxs =>
        cases hnodes
        rw [Scheduler.width, hxs]
        rfl
      · cases hnodes
    simp [SchedulerPc.rank, hwidth]
  | @pushed i level k nodes tid h =>
    obtain ⟨hk, -, hi⟩ := hok
    have hi' := hi i rfl
    have hb := ntasks_bounds hk
    simp only [SchedulerPc.rank, levelRank, wakeRank]
    omega
  | @woken p tid level h =>
    have hn : s.nthread ≤ tid := by
      rw [← hlen nofun]
      exact List.getElem?_eq_none_iff.mp h
    obtain rfl : p = .acquire := by
      by_contra hne
      have := hok hne
      omega
    simp only [SchedulerPc.rank, wakeRank, WakePc.spent]
    omega
  | _ => simp [SchedulerPc.rank]

/-- A worker that is told to build has been at rest. -/
theorem Inv.setState_rank (h : Inv T s) {level : Nat} (hp : s.pc = .wake .setState tid level)
    (hw : s.threads[tid]? = some w) :
    WorkerThread.rank { w with state := .build } ≤ w.rank + 17 := by
  have hat := h.threads tid w hw
  have hr : w.resting = true := hat.rest (by rw [hp]; simp)
  have hown : w.stateLock.owner = some .scheduler := hat.stateLock.mpr (by rw [hp]; simp)
  have hfree : w.pc.holdsState ≠ true := fun hh => by
    rw [hat.ok.stateLock.mpr hh] at hown
    cases hown
  have hdec := WorkerThread.decremented_of_resting hr
  unfold WorkerThread.rank
  revert hfree hdec
  cases w.pc with
  | wait p c =>
    cases p with
    | asleep | reacquire =>
      intro _ _
      simp only [WorkerPc.rank]
      split <;> simp <;> omega
    | acquire | setWait | decPpt | release => nofun
    | testPpt | signal | testState | enter => exact fun hfree => absurd rfl hfree
  | _ => nofun

/-- A level that has been filled has as many nodes as `schedule` has tested for. -/
theorem Scheduler.At.width_scheduled {l : Scheduler} {full : List (List Nat)} {pend : List Nat}
    (hat : l.At full pend) {x : Nat} (hx : l.fills x = true) :
    (l.scheduled x).width ((l.scheduled x).currentLevel - 1) = l.fanout ^ l.currentLevel := by
  have hat' := hat.scheduled_full hx
  have hlevel : (l.scheduled x).currentLevel - 1 = full.length := by
    rw [hat'.level]
    simp
  rw [hat.fills_eq, decide_eq_true_eq] at hx
  rw [Scheduler.width, hlevel, hat'.nodes, hat.level, hx]
  simp

theorem Inv.move_rank_lt (h : Inv T s) (hm : SchedulerMove s s') : s'.rank < s.rank := by
  have hok := h.loop
  have hlen := h.started
  cases hm with
  | @goto pc pc' m hp hn =>
    have hlt := hn.rank_lt (hp ▸ hok) (hp ▸ hlen)
    have hpc : pc'.rank { s with mutex := m, pc := pc' } = pc'.rank s :=
      SchedulerPc.rank_congr rfl rfl rfl
    unfold Pool.rank
    rw [hp, hpc]
    exact Nat.add_lt_add_left hlt _
  | create hp hlt =>
    unfold Pool.rank
    simp only [hp, SchedulerPc.rank, List.map_append, List.map_singleton, List.sum_append,
      List.sum_singleton, List.length_append, List.length_singleton]
    simp only [WorkerThread.rank, WorkerThread.new, WorkerPc.rank]
    simp
    omega
  | @push x hp =>
    obtain ⟨full, pend, hl⟩ := h.levels
    unfold Pool.rank
    rw [hp]
    refine Nat.add_lt_add_left ?_ _
    cases hx : s.lists.fills x with
    | false =>
      simp only [SchedulerPc.rank]
      omega
    | true =>
      simp only [SchedulerPc.rank, hl.lists.width_scheduled hx]
      omega
  | queueLock m _ hp hw =>
    refine Pool.rank_lt_of_set hw rfl rfl rfl ?_
    rw [hp]
    simp only [SchedulerPc.rank, levelRank, wakeRank, WorkerThread.rank]
    omega
  | queuePush hp hi _ hw =>
    rw [hp] at hok
    have hb := ntasks_bounds hok.1
    refine Pool.rank_lt_of_set hw rfl rfl rfl ?_
    rw [hp]
    simp only [SchedulerPc.rank, levelRank, wakeRank, WorkerThread.rank, List.length_append,
      List.length_singleton]
    omega
  | queueNext m _ hp hw hne =>
    rw [hp] at hok
    have hb := ntasks_bounds hok.1
    refine Pool.rank_lt_of_set hw rfl rfl rfl ?_
    rw [hp]
    simp only [SchedulerPc.rank, levelRank, wakeRank, WorkerThread.rank]
    omega
  | queueLast m _ hp hw _ =>
    rw [hp] at hok
    have hb := ntasks_bounds hok.1
    refine Pool.rank_lt_of_set hw rfl rfl rfl ?_
    rw [hp]
    simp only [SchedulerPc.rank, levelRank, wakeRank, WorkerThread.rank, WakePc.spent]
    omega
  | stateLock m _ hp hw =>
    refine Pool.rank_lt_of_set hw rfl rfl rfl ?_
    rw [hp]
    simp only [SchedulerPc.rank, wakeRank, WorkerThread.rank, WakePc.spent]
    omega
  | setState hp hw =>
    have hle := h.setState_rank hp hw
    have htid := h.lt_nthread hw
    refine Pool.rank_lt_of_set hw rfl rfl rfl ?_
    rw [hp]
    simp only [SchedulerPc.rank, wakeRank, WakePc.spent]
    omega
  | incPpt hp hw =>
    have htid := h.lt_nthread hw
    unfold Pool.rank
    rw [hp]
    refine Nat.add_lt_add_left ?_ _
    simp only [SchedulerPc.rank, wakeRank, WakePc.spent]
    omega
  | stateUnlock m _ hp hw =>
    have htid := h.lt_nthread hw
    refine Pool.rank_lt_of_set hw rfl rfl rfl ?_
    rw [hp]
    simp only [SchedulerPc.rank, wakeRank, WorkerThread.rank, WakePc.spent]
    omega
  | @signal tid level w hp hw =>
    have hle := signal_rank_le w
    have htid := h.lt_nthread hw
    refine Pool.rank_lt_of_set hw rfl rfl rfl ?_
    rw [hp]
    simp only [SchedulerPc.rank, wakeRank, WakePc.spent]
    omega

/-- The steps of the threads themselves: no new call, and no wake-up without a signal. -/
def Label.isThread : Label → Bool
  | .scheduler | .worker _ => true
  | _ => false

/-- Every step lowers the rank. -/
theorem Inv.rank_lt (h : Inv T s) (hT : 1 ≤ T) (hT' : T < 2 ^ 32) {l : Label}
    (hl : l.isThread = true) (hs : Pool.step l s = some s') : s'.rank < s.rank := by
  cases l with
  | scheduler => exact h.move_rank_lt (h.schedulerMove hT hT' hs)
  | worker tid =>
    obtain ⟨w, hw, hs⟩ := Option.bind_eq_some_iff.mp hs
    obtain ⟨⟨w', e⟩, hw', hs⟩ := Option.bind_eq_some_iff.mp hs
    cases hs
    exact (workerMove (h.threads tid w hw).ok hw').pool_rank_lt hw
  | call x => cases hl
  | spurious thread => cases hl

end Rank

/-! ## A pool that is not idle can go on -/

/-- The scheduling thread has told worker `tid` to build and has not signalled it yet. -/
def SchedulerPc.signalDue : SchedulerPc → Nat → Bool
  | .wake .incPpt t _, tid | .wake .release t _, tid | .wake .signal t _, tid => t = tid
  | _, _ => false

/-- Worker `tid` of a pool whose scheduling thread is at `pc` can get its locks, and is not left
    asleep. -/
structure Wakeful (pc : SchedulerPc) (tid : Nat) (w : WorkerThread) : Prop where
  stateLock : ∀ u, w.stateLock.owner = some (.worker u) → u = tid
  queueLock : ∀ u, w.taskQueue.mutex.owner = some (.worker u) → u = tid
  asleep : ∀ c, w.pc = .wait .asleep c → w.state = .build → pc.signalDue tid = true

def AllWakeful (s : Pool) : Prop := ∀ t w, s.threads[t]? = some w → Wakeful s.pc t w

section Wakeful

variable {T tid : Nat} {w w' : WorkerThread} {e : Effect} {s s' : Pool} {pc : SchedulerPc}

theorem Mine.owner_eq {m : Mutex Thread} (h : Mine tid m) {u : Nat}
    (ho : m.owner = some (.worker u)) : u = tid := by
  rcases h with h | h
  · rw [h] at ho
    cases ho
  · rw [h] at ho
    cases ho
    rfl

theorem WorkerPc.Next.asleep {p p' : WorkerPc} (h : WorkerPc.Next w p p') {c : WaitCaller}
    (hp : p' = .wait .asleep c) : w.state = .wait := by
  subst hp
  cases h with
  | sleep c h => exact h

theorem Wakeful.move (h : Wakeful pc tid w) (hm : WorkerMove tid w w' e) : Wakeful pc tid w' := by
  cases hm with
  | goto hp hn hsl hqm =>
    refine ⟨fun u hu => ?_, fun u hu => ?_, fun c hc hb => ?_⟩
    · rcases hsl with rfl | hsl
      · exact h.stateLock u hu
      · exact hsl.owner_eq hu
    · rcases hqm with rfl | hqm
      · exact h.queueLock u hu
      · exact hqm.owner_eq hu
    · have hwait := hn.asleep hc
      have hb' : w.state = .build := hb
      rw [hwait] at hb'
      cases hb'
  | pop => exact ⟨h.stateLock, h.queueLock, nofun⟩
  | prep => exact ⟨h.stateLock, h.queueLock, nofun⟩
  | run => exact ⟨h.stateLock, h.queueLock, nofun⟩
  | setWait => exact ⟨h.stateLock, h.queueLock, nofun⟩
  | decPpt => exact ⟨h.stateLock, h.queueLock, nofun⟩
  | signal => exact ⟨h.stateLock, h.queueLock, nofun⟩

theorem Wakeful.wakeUp (h : Wakeful pc tid w) (hw : w.wakeUp = some w') : Wakeful pc tid w' := by
  unfold WorkerThread.wakeUp at hw
  split at hw
  · cases hw
    exact ⟨h.stateLock, h.queueLock, nofun⟩
  · cases hw

theorem Wakeful.goto {pc' : SchedulerPc} (h : Wakeful pc tid w)
    (hd : pc.signalDue tid = true → pc'.signalDue tid = true) : Wakeful pc' tid w :=
  ⟨h.stateLock, h.queueLock, fun c hc hb => hd (h.asleep c hc hb)⟩

/-- One worker has changed, and the place of the scheduling thread. -/
theorem AllWakeful.set {t : Nat} (h : AllWakeful s) (ht : s'.threads = s.threads.set t w')
    (hw' : Wakeful s'.pc t w')
    (hd : ∀ u, u ≠ t → s.pc.signalDue u = true → s'.pc.signalDue u = true) : AllWakeful s' := by
  intro u x hx
  rw [ht] at hx
  rcases getElem?_set_cases hx with ⟨rfl, rfl⟩ | ⟨hu, hx⟩
  · exact hw'
  · exact (h u x hx).goto (hd u hu)

theorem NotWorkers.owner_eq {m : Mutex Thread} (h : NotWorkers m) {u : Nat}
    (ho : m.owner = some (.worker u)) : u = tid := by
  rcases h with h | h <;> rw [h] at ho <;> cases ho

theorem signal_not_asleep (w : WorkerThread) (c : WaitCaller) : w.signal.pc ≠ .wait .asleep c := by
  unfold WorkerThread.signal
  cases hw : w.wakeUp with
  | none =>
    intro hp
    have hp' : w.pc = .wait .asleep c := hp
    rw [WorkerThread.wakeUp, hp'] at hw
    cases hw
  | some w' =>
    unfold WorkerThread.wakeUp at hw
    split at hw
    · cases hw
      nofun
    · cases hw

theorem signal_locks (w : WorkerThread) :
    w.signal.stateLock = w.stateLock ∧ w.signal.taskQueue = w.taskQueue := by
  unfold WorkerThread.signal WorkerThread.wakeUp
  split <;> exact ⟨rfl, rfl⟩

theorem SchedulerPc.Next.signalDue {p p' : SchedulerPc} (h : SchedulerPc.Next s p p')
    (hw : s.threads[tid]? = some w) : p.signalDue tid = false := by
  cases h with
  | @woken q u level h =>
    have hne : u ≠ tid := fun he => by
      rw [he, hw] at h
      cases h
    cases q <;> simp [SchedulerPc.signalDue, hne]
  | _ => rfl

theorem AllWakeful.move (h : AllWakeful s) (hm : SchedulerMove s s') : AllWakeful s' := by
  cases hm with
  | goto m hp hn =>
    intro t w hw
    refine (h t w hw).goto fun hd => ?_
    rw [hp, hn.signalDue hw] at hd
    cases hd
  | create hp hlt =>
    intro t w hw
    by_cases ht : t < s.threads.length
    · rw [List.getElem?_append_left ht] at hw
      exact h t w hw
    · rw [List.getElem?_append_right (Nat.le_of_not_lt ht)] at hw
      rw [List.mem_singleton.mp (List.mem_of_getElem? hw)]
      exact ⟨nofun, nofun, nofun⟩
  | push hp =>
    intro t w hw
    refine (h t w hw).goto fun hd => ?_
    rw [hp] at hd
    cases hd
  | @queueLock level k nodes tid w m hm hp hw =>
    have hat := h tid.val w hw
    rw [hp] at hat
    refine h.set rfl ⟨hat.stateLock, fun u => hm.owner_eq, hat.asleep⟩ fun u _ hd => ?_
    rw [hp] at hd
    cases hd
  | @queuePush i level k x nodes tid w hp hi _ hw =>
    have hat := h tid.val w hw
    rw [hp] at hat
    refine h.set rfl ⟨hat.stateLock, hat.queueLock, hat.asleep⟩ fun u _ hd => ?_
    rw [hp] at hd
    cases hd
  | @queueNext level k nodes tid w m hm hp hw =>
    have hat := h tid.val w hw
    rw [hp] at hat
    refine h.set rfl ⟨hat.stateLock, fun u => hm.owner_eq, hat.asleep⟩ fun u _ hd => ?_
    rw [hp] at hd
    cases hd
  | @queueLast level k nodes tid w m hm hp hw _ =>
    have hat := h tid.val w hw
    rw [hp] at hat
    refine h.set rfl ⟨hat.stateLock, fun u => hm.owner_eq, hat.asleep⟩ fun u _ hd => ?_
    rw [hp] at hd
    cases hd
  | @stateLock tid level w m hm hp hw =>
    have hat := h tid w hw
    rw [hp] at hat
    refine h.set rfl ⟨fun u => hm.owner_eq, hat.queueLock, hat.asleep⟩ fun u _ hd => ?_
    rw [hp] at hd
    cases hd
  | @setState tid level w hp hw =>
    have hat := h tid w hw
    refine h.set rfl ⟨hat.stateLock, hat.queueLock, fun _ _ _ => decide_eq_true rfl⟩
      fun u _ hd => ?_
    rw [hp] at hd
    cases hd
  | incPpt hp hw =>
    intro t w hw
    refine (h t w hw).goto fun hd => ?_
    rw [hp] at hd
    exact hd
  | @stateUnlock tid level w m hm hp hw =>
    have hat := h tid w hw
    rw [hp] at hat
    refine h.set rfl ⟨fun u => hm.owner_eq, hat.queueLock, hat.asleep⟩ fun u _ hd => ?_
    rw [hp] at hd
    exact hd
  | @signal tid level w hp hw =>
    have hat := h tid w hw
    obtain ⟨hsl, hql⟩ := signal_locks w
    refine h.set rfl ⟨hsl ▸ hat.stateLock, hql ▸ hat.queueLock, fun c hc => ?_⟩ fun u hu hd => ?_
    · exact absurd hc (signal_not_asleep w c)
    · rw [hp] at hd
      exact absurd (of_decide_eq_true hd).symm hu

theorem AllWakeful.step (h : AllWakeful s) (hi : Inv T s) (hT : 1 ≤ T) (hT' : T < 2 ^ 32)
    {l : Label} (hs : Pool.step l s = some s') : AllWakeful s' := by
  have hwake : ∀ {s s' : Pool}, AllWakeful s → s.wakeUp = some s' → AllWakeful s' := by
    intro s s' h hs
    obtain ⟨c, hpc, rfl⟩ := Pool.wakeUp_eq hs
    refine fun t w hw => (h t w hw).goto fun hd => ?_
    rw [hpc] at hd
    cases hd
  cases l with
  | scheduler => exact h.move (hi.schedulerMove hT hT' hs)
  | call x =>
    rw [Pool.step] at hs
    split at hs
    · next hp =>
      cases hs
      refine fun t w hw => (h t w hw).goto fun hd => ?_
      rw [hp] at hd
      cases hd
    · cases hs
  | worker tid =>
    obtain ⟨w, hw, hs⟩ := Option.bind_eq_some_iff.mp hs
    obtain ⟨⟨w', e⟩, hw', hs⟩ := Option.bind_eq_some_iff.mp hs
    cases hs
    have hmove := (h tid w hw).move (workerMove (hi.threads tid w hw).ok hw')
    have h₁ : AllWakeful { s with threads := s.threads.set tid w' } :=
      h.set rfl hmove fun _ _ hd => hd
    cases e with
    | silent => exact h₁
    | decPpt =>
      rw [Pool.apply]
      exact fun t w hw => h₁ t w hw
    | task k =>
      rw [Pool.apply]
      exact fun t w hw => h₁ t w hw
    | signalParent =>
      rw [Pool.apply]
      cases hu : Pool.wakeUp { s with threads := s.threads.set tid w' } with
      | none => exact h₁
      | some s' => exact hwake h₁ hu
  | spurious thread =>
    cases thread with
    | scheduler => exact hwake h hs
    | worker tid =>
      obtain ⟨w, hw, hs⟩ := Option.bind_eq_some_iff.mp hs
      obtain ⟨w', hw', hs⟩ := Option.bind_eq_some_iff.mp hs
      cases hs
      exact h.set rfl ((h tid w hw).wakeUp hw') fun _ _ hd => hd

/-- A lock that neither the scheduling thread nor its worker owns is free. -/
theorem owner_none {m : Mutex Thread} (h : ∀ u, m.owner = some (.worker u) → u = tid)
    (hs : m.owner ≠ some .scheduler) (hw : m.owner ≠ some (.worker tid)) : m.owner = none := by
  cases ho : m.owner with
  | none => rfl
  | some t =>
    cases t with
    | scheduler => exact absurd ho hs
    | worker u => exact absurd (h u ho ▸ ho) hw

/-- A worker that is not asleep can go on, unless the scheduling thread has one of its locks. -/
theorem Wakeful.exists_step (h : Wakeful pc tid w) (hok : WorkerOk tid w)
    (hsl : w.stateLock.owner ≠ some .scheduler)
    (hql : w.taskQueue.mutex.owner ≠ some .scheduler) (hawake : ∀ c, w.pc ≠ .wait .asleep c)
    (pending : Nat) : ∃ r, w.step tid pending = some r := by
  have hfree : w.pc.holdsState = false → w.stateLock.owner = none := fun hh =>
    owner_none h.stateLock hsl fun ho => by
      rw [hok.stateLock.mp ho] at hh
      cases hh
  have hown : w.pc.holdsState = true → w.stateLock.owner = some (.worker tid) := hok.stateLock.mpr
  have hqfree : w.pc.holdsQueue = false → w.taskQueue.mutex.owner = none := fun hh =>
    owner_none h.queueLock hql fun ho => by
      rw [hok.queueLock.mp ho] at hh
      cases hh
  have hst := hok.state
  unfold WorkerThread.step
  cases hp : w.pc with
  | testWait => exact ⟨_, rfl⟩
  | testExit => exact ⟨_, rfl⟩
  | run =>
    rw [hp] at hst
    have hb : w.state = .build := hst
    rw [hb]
    exact ⟨_, rfl⟩
  | dequeue p =>
    rw [hp] at hqfree
    cases p with
    | testEmpty => exact ⟨_, rfl⟩
    | acquire =>
      dsimp only [WorkerThread.dequeueStep]
      rw [Mutex.lock_free (hqfree rfl)]
      exact ⟨_, rfl⟩
    | pop =>
      dsimp only [WorkerThread.dequeueStep]
      split <;> exact ⟨_, rfl⟩
    | release x =>
      dsimp only [WorkerThread.dequeueStep]
      unfold Mutex.unlock
      split <;> exact ⟨_, rfl⟩
  | prep x => exact ⟨_, rfl⟩
  | runNode x => exact ⟨_, rfl⟩
  | wait p c =>
    rw [hp] at hfree hown
    cases p with
    | acquire =>
      dsimp only [WorkerThread.waitStep]
      rw [Mutex.lock_free (hfree rfl)]
      exact ⟨_, rfl⟩
    | asleep => exact absurd hp (hawake c)
    | reacquire =>
      dsimp only [WorkerThread.waitStep]
      rw [Mutex.lock_free (hfree rfl)]
      exact ⟨_, rfl⟩
    | enter =>
      dsimp only [WorkerThread.waitStep]
      rw [Mutex.unlock_owner (hown rfl)]
      exact ⟨_, rfl⟩
    | release =>
      dsimp only [WorkerThread.waitStep]
      rw [Mutex.unlock_owner (hown rfl)]
      exact ⟨_, rfl⟩
    | _ => exact ⟨_, rfl⟩
  | exited =>
    rw [hp] at hst
    exact hst.elim
  | thrown =>
    rw [hp] at hst
    exact hst.elim

end Wakeful

section Steps

variable {T : Nat} {s : Pool}

/-- A thread can take a step, and loses no signal by it. -/
def CanGoOn (s : Pool) : Prop :=
  ∃ l s', l.isThread = true ∧ ¬ LosesSignal l s ∧ Pool.step l s = some s'

theorem CanGoOn.of_scheduler (h : s.schedulerStep ≠ none) : CanGoOn s := by
  obtain ⟨s', hs⟩ := Option.ne_none_iff_exists'.mp h
  refine ⟨.scheduler, s', rfl, ?_, hs⟩
  rintro ⟨_, _, _, _, hl, _⟩
  cases hl

theorem CanGoOn.of_worker {tid : Nat} {w : WorkerThread} {r : WorkerThread × Effect}
    (hw : s.threads[tid]? = some w) (h : w.step tid s.pendingThreads = some r)
    (hp : ∀ c, s.pc ≠ .wait4completion .enter c) : CanGoOn s := by
  refine ⟨.worker tid, Pool.apply { s with threads := s.threads.set tid r.1 } tid r.2, rfl,
    fun ⟨_, _, _, c, _, _, _, hc, _⟩ => hp c hc, ?_⟩
  rw [Pool.step, hw]
  simp only [Option.bind_eq_bind, Option.bind_some, h]
  rfl

/-- A worker that has a decrement to make can go on while the scheduling thread waits. -/
theorem Inv.worker_goes_on (hi : Inv T s) (hwake : AllWakeful s) {p : CompletionPc}
    {c : CompletionCaller} (hp : s.pc = .wait4completion p c) (hpe : p ≠ .enter) {tid : Nat}
    {w : WorkerThread} (hw : s.threads[tid]? = some w) (hbusy : w.resting = false) :
    CanGoOn s := by
  have hat := hi.threads tid w hw
  rw [hp] at hat
  have hawake : ∀ c, w.pc ≠ .wait .asleep c := by
    intro c' hc'
    have hst := hat.ok.state
    rw [hc'] at hst
    have hb : w.state = .build := by
      rcases hst with hst | hst
      · rw [WorkerThread.resting, hc', hst] at hbusy
        cases hbusy
      · exact hst
    have hdue := (hwake tid w hw).asleep c' hc' hb
    rw [hp] at hdue
    cases hdue
  obtain ⟨r, hr⟩ := (hwake tid w hw).exists_step hat.ok
    (fun ho => by cases hat.stateLock.mp ho) (fun ho => by cases hat.queueLock.mp ho) hawake
    s.pendingThreads
  refine .of_worker hw hr fun c' hc' => hpe ?_
  rw [hp] at hc'
  cases hc'
  rfl

/-- The scheduling thread is asleep in `wait4completion`, and some worker is not done. -/
theorem Inv.asleep_goes_on (hi : Inv T s) (hwake : AllWakeful s) (hsig : Signalled s)
    {c : CompletionCaller} (hp : s.pc = .wait4completion .asleep c) : CanGoOn s := by
  by_cases hz : s.pendingThreads = 0
  · obtain ⟨t, w, hw, hs⟩ := hsig (by rw [hp]; rfl) hz
    have hawake : ∀ c, w.pc ≠ .wait .asleep c := fun c' hc' => by
      rw [WorkerThread.signalling, hc'] at hs
      cases hs
    have hat := hi.threads t w hw
    rw [hp] at hat
    obtain ⟨r, hr⟩ := (hwake t w hw).exists_step hat.ok
      (fun ho => by cases hat.stateLock.mp ho) (fun ho => by cases hat.queueLock.mp ho) hawake
      s.pendingThreads
    refine .of_worker hw hr fun c' hc' => ?_
    rw [hp] at hc'
    cases hc'
  · have hlen := hi.started fun hc => by rw [hp] at hc; cases hc
    have howing : s.owing ≠ 0 := by
      have hc := hi.count
      omega
    obtain ⟨t, ht⟩ := Finset.card_ne_zero.mp howing
    have howes : s.owes t = true := (Finset.mem_filter.mp ht).2
    unfold Pool.owes at howes
    cases hw : s.threads[t]? with
    | none =>
      rw [hw] at howes
      cases howes
    | some w =>
      rw [hw] at howes
      have hbusy : w.resting = false := by
        simp only [Bool.and_eq_true, Bool.not_eq_true'] at howes
        exact howes.1
      exact hi.worker_goes_on hwake hp (fun he => by cases he) hw hbusy

theorem enqueue_ne_none (hi : Inv T s) (hwake : AllWakeful s) {p : EnqueuePc} {level k : Nat}
    {nodes : List Nat} {tid : CUnsigned} (hp : s.pc = .enqueue p level nodes k tid) :
    s.enqueueStep level nodes k tid p ≠ none := by
  unfold Pool.enqueueStep
  split
  · exact Option.some_ne_none _
  · next w hw =>
    cases p with
    | acquire =>
      have hat := hi.threads _ w hw
      rw [hp] at hat
      -- the worker is at rest, so it is not in `dequeue`
      have hidle : w.taskQueue.mutex.owner ≠ some (.worker tid.val) := fun ho => by
        have hdec := WorkerThread.decremented_of_resting (hat.rest rfl)
        have hq := hat.ok.queueLock.mp ho
        revert hdec hq
        cases w.pc with
        | dequeue q => nofun
        | wait q c => cases q <;> nofun
        | _ => nofun
      have hfree := owner_none (hwake _ w hw).queueLock
        (fun ho => by cases hat.queueLock.mp ho) hidle
      dsimp only
      rw [Mutex.lock_free hfree]
      exact Option.some_ne_none _
    | push i =>
      dsimp only
      split
      · split <;> exact Option.some_ne_none _
      · exact Option.some_ne_none _
    | release =>
      dsimp only
      unfold Mutex.unlock
      split <;> exact Option.some_ne_none _

/-- `wake` gets the state lock of its worker, or the worker is about to release it. -/
theorem Inv.wake_goes_on (hi : Inv T s) (hwake : AllWakeful s) {p : WakePc} {tid level : Nat}
    (hp : s.pc = .wake p tid level) : CanGoOn s := by
  have hstep : s.wakeStep tid level p ≠ none → CanGoOn s := fun h =>
    .of_scheduler (by rw [Pool.schedulerStep, hp]; exact h)
  cases hw : s.threads[tid]? with
  | none => exact hstep (by rw [Pool.wakeStep, hw]; exact Option.some_ne_none _)
  | some w =>
    have hat := hi.threads tid w hw
    rw [hp] at hat
    cases p with
    | acquire =>
      have hsl : w.stateLock.owner ≠ some .scheduler := fun ho => by cases hat.stateLock.mp ho
      by_cases hown : w.stateLock.owner = some (.worker tid)
      · have hholds := hat.ok.stateLock.mp hown
        have hawake : ∀ c, w.pc ≠ .wait .asleep c := fun c hc => by
          rw [hc] at hholds
          cases hholds
        obtain ⟨r, hr⟩ := (hwake tid w hw).exists_step hat.ok hsl
          (fun ho => by cases hat.queueLock.mp ho) hawake s.pendingThreads
        exact .of_worker hw hr fun c hc => by rw [hp] at hc; cases hc
      · have hfree := owner_none (hwake tid w hw).stateLock hsl hown
        refine hstep ?_
        rw [Pool.wakeStep, hw]
        dsimp only
        rw [Mutex.lock_free hfree]
        exact Option.some_ne_none _
    | release =>
      refine hstep ?_
      rw [Pool.wakeStep, hw]
      dsimp only
      unfold Mutex.unlock
      split <;> exact Option.some_ne_none _
    | _ => exact hstep (by rw [Pool.wakeStep, hw]; exact Option.some_ne_none _)

/-- A pool that is not idle can go on, as long as no signal has been lost. -/
theorem Inv.exists_step (hi : Inv T s) (hwake : AllWakeful s) (hsig : Signalled s)
    (hp : s.pc ≠ .idle) : CanGoOn s := by
  have hm := hi.mutex
  have hcompletion : ∀ p c, s.pc = .wait4completion p c → s.completionStep c p ≠ none →
      CanGoOn s := fun p c hpc h => .of_scheduler (by rw [Pool.schedulerStep, hpc]; exact h)
  cases hpc : s.pc with
  | create =>
    refine .of_scheduler ?_
    rw [Pool.schedulerStep, hpc]
    dsimp only
    split <;> exact Option.some_ne_none _
  | wait4completion p c =>
    rw [hpc] at hm
    cases p with
    | asleep => exact hi.asleep_goes_on hwake hsig hpc
    | test => exact hcompletion .test c hpc (Option.some_ne_none _)
    | lock | reacquire =>
      refine hcompletion _ c hpc ?_
      rw [Pool.completionStep, Mutex.lock_free hm]
      exact Option.some_ne_none _
    | enter =>
      refine hcompletion .enter c hpc ?_
      rw [Pool.completionStep, Mutex.unlock_owner hm]
      exact Option.some_ne_none _
    | unlock =>
      refine hcompletion .unlock c hpc ?_
      cases c <;> rw [Pool.completionStep, Mutex.unlock_owner hm] <;> exact Option.some_ne_none _
  | idle => exact absurd hpc hp
  | scheduleLock x =>
    rw [hpc] at hm
    refine .of_scheduler ?_
    rw [Pool.schedulerStep, hpc]
    dsimp only
    rw [Mutex.lock_free hm]
    exact Option.some_ne_none _
  | schedulePush x =>
    refine .of_scheduler ?_
    rw [Pool.schedulerStep, hpc]
    dsimp only [Pool.schedulePush]
    split
    · exact Option.some_ne_none _
    · split <;> exact Option.some_ne_none _
  | scheduleUnlock full =>
    refine .of_scheduler ?_
    rw [Pool.schedulerStep, hpc]
    dsimp only
    unfold Mutex.unlock
    split <;> exact Option.some_ne_none _
  | runLevel level =>
    refine .of_scheduler ?_
    rw [Pool.schedulerStep, hpc]
    dsimp only [Pool.runLevelStep]
    split
    · exact Option.some_ne_none _
    · split
      · exact Option.some_ne_none _
      · split <;> exact Option.some_ne_none _
  | enqueue p level nodes k tid =>
    refine .of_scheduler ?_
    rw [Pool.schedulerStep, hpc]
    exact enqueue_ne_none hi hwake hpc
  | wake p tid level => exact hi.wake_goes_on hwake hpc
  | returned level =>
    refine .of_scheduler ?_
    rw [Pool.schedulerStep, hpc]
    exact Option.some_ne_none _
  | thrown => exact absurd hpc hi.valid

end Steps

/-! ## Every call returns -/

/-- The steps that lose no signal. -/
def safeStep : Label → Pool → Option Pool := only (fun l s => ¬ LosesSignal l s) Pool.step

theorem live_of_reachable {T fanout : Nat} (hT : 1 ≤ T) (hT' : T < 2 ^ 32) {s : Pool}
    (h : Reachable safeStep (.new T fanout) s) : Inv T s ∧ AllWakeful s ∧ Signalled s := by
  refine h.invariant (I := fun s => Inv T s ∧ AllWakeful s ∧ Signalled s)
    ⟨inv_new T fanout, fun t w hw => by simp [Pool.new] at hw, fun hs => by cases hs⟩ ?_
  rintro l s s' ⟨hi, hw, hs⟩ hstep
  obtain ⟨hok, hstep⟩ := only_eq_some.mp hstep
  exact ⟨hi.step hT hT' hstep, hw.step hi hT hT' hstep, hs.step hok hstep⟩

/-- From every state of a run without a lost signal, however it was reached: the threads take at
    most `s.rank` steps before the next call, and when no step is left the call has returned. -/
theorem schedule_returns {T fanout : Nat} (hT : 1 ≤ T) (hT' : T < 2 ^ 32) {s : Pool}
    (h : Reachable safeStep (.new T fanout) s) {ls : List Label}
    (hls : ∀ l ∈ ls, l.isThread = true) {s' : Pool} (hrun : run safeStep ls s = some s') :
    ls.length ≤ s.rank ∧
      ((∀ l, l.isThread = true → safeStep l s' = none) → s'.pc = .idle) := by
  refine ⟨?_, fun hstop => ?_⟩
  · have hi := (live_of_reachable hT hT' h).1
    have hle := run_length_le (I := Inv T) Pool.rank hrun hi fun l hl s s' hi hs => by
      obtain ⟨-, hs⟩ := only_eq_some.mp hs
      exact ⟨hi.step hT hT' hs, hi.rank_lt hT hT' (hls l hl) hs⟩
    omega
  · obtain ⟨hi, hwake, hsig⟩ := live_of_reachable hT hT' (h.run_of hrun)
    by_contra hp
    obtain ⟨l, s'', hl, hsafe, hs⟩ := hi.exists_step hwake hsig hp
    have hnone := hstop l hl
    rw [safeStep, only_eq_some.mpr ⟨hsafe, hs⟩] at hnone
    cases hnone

/-- Two workers and the call that completes their second level, to its return. -/
theorem schedule_returns_two : ∃ s s', Reachable safeStep (.new 2 9) s ∧ s.pc = .scheduleLock 9 ∧
    run safeStep (runNine ++ [Label.scheduler]) s = some s' ∧ s'.pc = .idle ∧
    (runNine ++ [Label.scheduler]).length ≤ s.rank := by
  have hpc : (run safeStep (eightPending ++ [.call 9]) (.new 2 9)).map Pool.pc =
      some (.scheduleLock 9) := by
    decide +kernel
  have hend : ((run safeStep (eightPending ++ [.call 9]) (.new 2 9)).bind fun s =>
      (run safeStep (runNine ++ [Label.scheduler]) s).map Pool.pc) = some .idle := by
    decide +kernel
  obtain ⟨s, hs, hp⟩ := Option.map_eq_some_iff.mp hpc
  rw [hs] at hend
  obtain ⟨s', hs', hp'⟩ := Option.map_eq_some_iff.mp hend
  exact ⟨s, s', ⟨_, hs⟩, hp, hs', hp',
    (schedule_returns (by decide) (by decide) ⟨_, hs⟩ (by decide) hs').1⟩

end Monya.Structures
