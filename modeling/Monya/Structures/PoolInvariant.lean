/-
  What holds in every state of a pool, and that the workers' steps keep it.

  The invariant `Inv` follows the scheduling thread. From where it is one can read which locks it
  owns, which workers must be at rest (`atRest`), which workers have no task left once they are at
  rest (`drained`), and how far the current level is (`stage`). Between two levels all workers are
  at rest and all queues are empty; while a level is handed out the workers are at rest and the
  queues fill; `wake4run` lets them go one by one.

  `Inv.count` is the number of pending threads: the workers that have been started or woken and
  have not decremented since, and in the constructor those it has still to start. `Handed` is the
  conservation of work: what a worker did and what it has still to do is its share of the level.
-/
import Monya.Structures.LevelLog

namespace Monya.Structures

open Monya.Lib

/-! ## Reading the place of the scheduling thread -/

namespace SchedulerPc

@[simp] def holdsMutex : SchedulerPc → Bool
  | .wait4completion .test _ | .wait4completion .enter _ | .wait4completion .unlock _
  | .schedulePush _ | .scheduleUnlock _ => true
  | _ => false

/-- The state lock of worker `tid` is owned by the scheduling thread. -/
@[simp] def holdsState : SchedulerPc → Nat → Bool
  | .wake .setState t _, tid | .wake .incPpt t _, tid | .wake .release t _, tid => t = tid
  | _, _ => false

/-- The lock of the queue of worker `tid` is owned by the scheduling thread. -/
@[simp] def holdsQueue : SchedulerPc → Nat → Bool
  | .enqueue (.push _) _ _ _ c, tid | .enqueue .release _ _ _ c, tid => c.val = tid
  | _, _ => false

/-- `wake` has set the state of worker `tid` and has not counted it yet. -/
@[simp] def waking : SchedulerPc → Nat → Bool
  | .wake .incPpt t _, tid => t = tid
  | _, _ => false

@[simp] def inCtor : SchedulerPc → Bool
  | .create | .wait4completion _ .ctor => true
  | _ => false

/-- Worker `tid` is at rest. -/
@[simp] def atRest : SchedulerPc → Nat → Bool
  | .wait4completion .unlock _, _ | .idle, _ | .scheduleLock _, _ | .schedulePush _, _
  | .scheduleUnlock _, _ | .runLevel _, _ | .enqueue _ _ _ _ _, _ | .returned _, _ => true
  | .wake .acquire t _, tid | .wake .setState t _, tid => t ≤ tid
  | .wake _ t _, tid => t < tid
  | _, _ => false

/-- Worker `tid` is not at rest before it has done its tasks. -/
@[simp] def drained : SchedulerPc → Nat → Bool
  | .enqueue _ _ _ _ _, _ => false
  | .wake .acquire t _, tid | .wake .setState t _, tid => tid < t
  | .wake _ t _, tid => tid ≤ t
  | _, _ => true

end SchedulerPc

/-- How far the current level is. -/
inductive Stage where
  | between
  | filled
  | starting (level : Nat)
  | handing (level : Nat) (nodes : List Nat) (n : Nat)
  | running (level : Nat)
  | returned (level : Nat)

@[simp] def SchedulerPc.stage : SchedulerPc → Stage
  | .scheduleUnlock true => .filled
  | .runLevel level => .starting level
  | .enqueue .acquire level nodes taskIndex _ => .handing level nodes taskIndex
  | .enqueue (.push i) level nodes taskIndex _ => .handing level nodes (taskIndex + i)
  | .enqueue .release level nodes taskIndex _ =>
      .handing level nodes (taskIndex + ntasks nodes taskIndex)
  | .wake _ _ level | .wait4completion _ (.runLevel level) => .running level
  | .returned level => .returned level
  | _ => .between

/-- The loop variables of `run_level` and `wake4run`. -/
@[simp] def SchedulerPc.LoopOk : SchedulerPc → Nat → Prop
  | .enqueue p _ nodes taskIndex tid, nthread =>
      taskIndex < nodes.length ∧ tid.max = nthread ∧
        ∀ i, p = .push i → i ≤ ntasks nodes taskIndex
  | .wake p tid _, nthread => p ≠ .acquire → tid < nthread
  | _, _ => True

/-! ## The invariant -/

namespace Pool

/-- Worker `t` has been started or woken, and has not decremented since. -/
def owes (s : Pool) (t : Nat) : Bool :=
  match s.threads[t]? with
  | none => false
  | some w => !w.resting && !s.pc.waking t

/-- The number of workers that have been started or woken and have not decremented since. -/
def owing (s : Pool) : Nat := ((Finset.range s.nthread).filter fun t => s.owes t = true).card

def todoOf (s : Pool) (t : Nat) : List Task :=
  match s.threads[t]? with
  | none => []
  | some w => w.todo

/-- What the workers did while `level` was being run. -/
def levelLog (s : Pool) (level : Nat) : List Entry := s.log.filter fun e => e.level = level

/-- The first `n` nodes of a level have been handed out: what a worker did and what it has still to
    do is its share. -/
def Handed (s : Pool) (level : Nat) (nodes : List Nat) (n : Nat) : Prop :=
  ∃ owner : List Nat, owner.length = n ∧ (∀ t ∈ owner, t < s.nthread) ∧
    ∀ t, tasksOf (s.levelLog level) t ++ s.todoOf t = trained (share nodes owner t)

end Pool

/-- Worker `tid`, as seen by the scheduling thread at `pc`. -/
structure WorkerAt (pc : SchedulerPc) (tid : Nat) (w : WorkerThread) : Prop where
  ok : WorkerOk tid w
  stateLock : w.stateLock.owner = some .scheduler ↔ pc.holdsState tid = true
  queueLock : w.taskQueue.mutex.owner = some .scheduler ↔ pc.holdsQueue tid = true
  rest : pc.atRest tid = true → w.resting = true
  drained : pc.drained tid = true → w.resting = true → w.taskQueue.tasks = []
  ctor : pc.inCtor = true → w.state = .wait
  woken : pc.waking tid = true → w.resting = false

/-- The number of levels that have been run, of `n` levels that are full. -/
@[simp] def Stage.settled : Stage → Nat → Nat
  | .between, n | .returned _, n => n
  | _, n => n - 1

/-- The number of levels that the log may mention. -/
@[simp] def Stage.logged : Stage → Nat → Nat
  | .filled, n | .starting _, n => n - 1
  | _, n => n

@[simp] def Stage.Current : Stage → Pool → List (List Nat) → Prop
  | .between, _, _ => True
  | .filled, _, full => full ≠ []
  | .starting level, _, full | .returned level, _, full => full.length = level + 1
  | .handing level nodes n, s, full =>
      full.length = level + 1 ∧ full[level]? = some nodes ∧ s.Handed level nodes n
  | .running level, s, full =>
      full.length = level + 1 ∧
        ∃ nodes, full[level]? = some nodes ∧ s.Handed level nodes nodes.length

/-- The levels `full` are full, and those that have been run have been done. -/
structure LevelsAt (s : Pool) (stage : Stage) (full : List (List Nat)) (pend : List Nat) :
    Prop where
  lists : s.lists.At full pend
  nonempty : ∀ nodes ∈ full, nodes ≠ []
  done : ∀ level nodes, full[level]? = some nodes → level < stage.settled full.length →
    LevelDone s.nthread nodes (s.levelLog level)
  log : ∀ e ∈ s.log, e.level < stage.logged full.length
  current : stage.Current s full

/-- The invariant of a pool of `T` workers. -/
structure Inv (T : Nat) (s : Pool) : Prop where
  nthread : s.nthread = T
  valid : s.pc ≠ .thrown
  length : s.threads.length ≤ s.nthread
  started : s.pc ≠ .create → s.threads.length = s.nthread
  count : s.pendingThreads = s.owing + (s.nthread - s.threads.length)
  mutex : s.mutex.owner = if s.pc.holdsMutex = true then some .scheduler else none
  threads : ∀ t w, s.threads[t]? = some w → WorkerAt s.pc t w
  loop : s.pc.LoopOk s.nthread
  levels : ∃ full pend, LevelsAt s s.pc.stage full pend

/-! ## Changing one worker, or the place of the scheduling thread -/

theorem getElem?_set_some {l : List WorkerThread} {t : Nat} {w w' : WorkerThread}
    (hw : l[t]? = some w) : (l.set t w')[t]? = some w' := by
  rw [List.getElem?_set_self', hw]
  rfl

section Worker

variable {pc pc' : SchedulerPc} {tid : Nat} {w w' : WorkerThread} {e : Effect}

theorem Moves.resting_eq (h : Moves tid w w' e) (he : e ≠ .decPpt) : w'.resting = w.resting := by
  cases hr : w.resting with
  | true => exact (h.rest hr).1
  | false =>
    rcases h.busy hr with ⟨hd, -⟩ | ⟨-, hb⟩
    · exact absurd hd he
    · exact hb

theorem SchedulerPc.holdsState_of_waking (h : pc.waking tid = true) : pc.holdsState tid = true := by
  unfold SchedulerPc.waking at h
  split at h
  · exact h
  · cases h

/-- A worker that is being woken has not got its lock back, so it does not decrement. -/
theorem WorkerAt.not_waking (h : WorkerAt pc tid w) (hm : Moves tid w w' .decPpt) :
    pc.waking tid = false := by
  by_contra hne
  have hhold : pc.holdsState tid = true := SchedulerPc.holdsState_of_waking (by simpa using hne)
  have hown := h.stateLock.mpr hhold
  rw [hm.dec rfl] at hown
  cases hown

/-- A step of the worker. -/
theorem WorkerAt.moves (h : WorkerAt pc tid w) (hm : Moves tid w w' e) : WorkerAt pc tid w' where
  ok := hm.ok
  stateLock := hm.stateLock.trans h.stateLock
  queueLock := hm.queueLock.trans h.queueLock
  rest hr := (hm.rest (h.rest hr)).1
  drained hd hr' := by
    cases hr : w.resting with
    | true => exact (hm.rest hr).2.1.trans (h.drained hd hr)
    | false =>
      rcases hm.busy hr with ⟨-, -, ht⟩ | ⟨-, hb⟩
      · exact ht
      · rw [hb] at hr'
        cases hr'
  ctor hc := by
    rcases hm.state with hs | hs
    · exact hs.trans (h.ctor hc)
    · exact hs
  woken hk := by
    by_cases he : e = .decPpt
    · subst he
      rw [h.not_waking hm] at hk
      cases hk
    · exact (hm.resting_eq he).trans (h.woken hk)

/-- A step of the scheduling thread that leaves the worker alone. -/
theorem WorkerAt.goto (h : WorkerAt pc tid w) (hs : pc'.holdsState tid = pc.holdsState tid)
    (hq : pc'.holdsQueue tid = pc.holdsQueue tid)
    (hr : pc'.atRest tid = true → w.resting = true)
    (hd : pc'.drained tid = true → w.resting = true → w.taskQueue.tasks = [])
    (hc : pc'.inCtor = true → pc.inCtor = true)
    (hk : pc'.waking tid = true → pc.waking tid = true) :
    WorkerAt pc' tid w :=
  ⟨h.ok, hs ▸ h.stateLock, hq ▸ h.queueLock, hr, hd, fun hc' => h.ctor (hc hc'),
    fun hk' => h.woken (hk hk')⟩

end Worker

namespace Pool

theorem owes_some {s : Pool} {t : Nat} {w : WorkerThread} (h : s.threads[t]? = some w) :
    s.owes t = (!w.resting && !s.pc.waking t) := by
  unfold owes
  rw [h]

theorem todoOf_some {s : Pool} {t : Nat} {w : WorkerThread} (h : s.threads[t]? = some w) :
    s.todoOf t = w.todo := by
  unfold todoOf
  rw [h]

theorem owes_ne {s s' : Pool} {t u : Nat} {w : WorkerThread} (hu : u ≠ t)
    (hs : s'.threads = s.threads.set t w) (hpc : s'.pc.waking u = s.pc.waking u) :
    s'.owes u = s.owes u := by
  unfold owes
  rw [hs, List.getElem?_set_ne (Ne.symm hu), hpc]

theorem todoOf_ne {s s' : Pool} {t u : Nat} {w : WorkerThread} (hu : u ≠ t)
    (hs : s'.threads = s.threads.set t w) : s'.todoOf u = s.todoOf u := by
  unfold todoOf
  rw [hs, List.getElem?_set_ne (Ne.symm hu)]

/-- A worker is replaced by one with as much to do. -/
theorem todoOf_set {s s' : Pool} {t : Nat} {w w' : WorkerThread} (hw : s.threads[t]? = some w)
    (hs : s'.threads = s.threads.set t w') (h : w'.todo = w.todo) (u : Nat) :
    s'.todoOf u = s.todoOf u := by
  by_cases hu : u = t
  · subst hu
    have hget : s'.threads[u]? = some w' := by rw [hs]; exact getElem?_set_some hw
    rw [todoOf_some hw, todoOf_some hget, h]
  · exact todoOf_ne hu hs

theorem owing_same {s s' : Pool} (hn : s'.nthread = s.nthread) (h : ∀ t, s'.owes t = s.owes t) :
    s'.owing = s.owing := by
  unfold owing
  rw [hn]
  exact card_filter_same h

theorem owing_enter {s s' : Pool} (hn : s'.nthread = s.nthread) {t : Nat} (ht : t < s.nthread)
    (hs : s.owes t = false) (hs' : s'.owes t = true) (h : ∀ u, u ≠ t → s'.owes u = s.owes u) :
    s'.owing = s.owing + 1 := by
  unfold owing
  rw [hn]
  exact card_filter_enter ht hs hs' h

theorem owing_le (s : Pool) : s.owing ≤ s.threads.length := by
  have hsub : ((Finset.range s.nthread).filter fun t => s.owes t = true) ⊆
      Finset.range s.threads.length := by
    intro t ht
    have howes := (Finset.mem_filter.mp ht).2
    rw [Finset.mem_range]
    by_contra hge
    unfold owes at howes
    rw [List.getElem?_eq_none (by omega)] at howes
    cases howes
  exact (Finset.card_le_card hsub).trans (le_of_eq (Finset.card_range _))

end Pool

/-- The levels do not depend on the rest of the pool. -/
theorem LevelsAt.congr {s s' : Pool} {stage : Stage} {full : List (List Nat)} {pend : List Nat}
    (h : LevelsAt s stage full pend) (hn : s'.nthread = s.nthread) (hl : s'.lists = s.lists)
    (hlog : s'.log = s.log) (htodo : ∀ t, s'.todoOf t = s.todoOf t) :
    LevelsAt s' stage full pend := by
  have hlev : ∀ level, s'.levelLog level = s.levelLog level := fun level => by
    rw [Pool.levelLog, Pool.levelLog, hlog]
  have hand : ∀ level nodes n, s.Handed level nodes n → s'.Handed level nodes n := by
    rintro level nodes n ⟨owner, hlen, hlt, htasks⟩
    exact ⟨owner, hlen, hn ▸ hlt, fun t => by rw [hlev, htodo]; exact htasks t⟩
  refine ⟨hl ▸ h.lists, h.nonempty, fun level nodes hf hlt => ?_, hlog ▸ h.log, ?_⟩
  · rw [hn, hlev]
    exact h.done level nodes hf hlt
  · have hc := h.current
    cases stage with
    | between => trivial
    | filled => exact hc
    | starting level => exact hc
    | handing level nodes n => exact ⟨hc.1, hc.2.1, hand _ _ _ hc.2.2⟩
    | running level =>
      obtain ⟨hlen, nodes, hnodes, hh⟩ := hc
      exact ⟨hlen, nodes, hnodes, hand _ _ _ hh⟩
    | returned level => exact hc

/-! ## The workers' steps -/

section WorkerSteps

variable {T : Nat} {s : Pool} {t : Nat} {w w' : WorkerThread} {e : Effect}

theorem Inv.lt_nthread (h : Inv T s) (hw : s.threads[t]? = some w) : t < s.nthread := by
  obtain ⟨ht, -⟩ := List.getElem?_eq_some_iff.mp hw
  exact ht.trans_le h.length

theorem Inv.set_threads (h : Inv T s) (hw : s.threads[t]? = some w) (hm : Moves t w w' e) :
    ∀ u x, (s.threads.set t w')[u]? = some x → WorkerAt s.pc u x := by
  intro u x hx
  rcases getElem?_set_cases hx with ⟨rfl, rfl⟩ | ⟨-, hu⟩
  · exact (h.threads u w hw).moves hm
  · exact h.threads u x hu

/-- Only the decrement changes how many workers have one to make. -/
theorem Moves.owing_eq {s₁ : Pool} (hm : Moves t w w' e) (hw : s.threads[t]? = some w)
    (hd : e ≠ .decPpt) (hn : s₁.nthread = s.nthread) (hs : s₁.threads = s.threads.set t w')
    (hpc : s₁.pc = s.pc) : s₁.owing = s.owing := by
  have hget : s₁.threads[t]? = some w' := by
    rw [hs]
    exact getElem?_set_some hw
  refine Pool.owing_same hn fun u => ?_
  by_cases hu : u = t
  · subst hu
    rw [Pool.owes_some hw, Pool.owes_some hget, hm.resting_eq hd, hpc]
  · exact Pool.owes_ne hu hs (by rw [hpc])

/-- What is left to show for a step of a worker: the count, and what has been done. -/
theorem Inv.moves (h : Inv T s) (hw : s.threads[t]? = some w) (hm : Moves t w w' e)
    {pendingThreads : Nat} {log : List Entry} {s₁ : Pool}
    (hs : s₁ = { s with threads := s.threads.set t w', pendingThreads, log })
    (hcount : pendingThreads = s₁.owing + (s.nthread - s.threads.length))
    (hlevels : ∃ full pend, LevelsAt s₁ s.pc.stage full pend) : Inv T s₁ := by
  subst hs
  exact {
    nthread := h.nthread
    valid := h.valid
    length := by rw [List.length_set]; exact h.length
    started := by rw [List.length_set]; exact h.started
    count := by rw [List.length_set]; exact hcount
    mutex := h.mutex
    threads := h.set_threads hw hm
    loop := h.loop
    levels := hlevels }

/-- A step without effect on what the workers count and do. -/
theorem Inv.moves_quiet (h : Inv T s) (hw : s.threads[t]? = some w) (hm : Moves t w w' e)
    (he : e.tasks = []) (hd : e ≠ .decPpt) : Inv T { s with threads := s.threads.set t w' } := by
  let s₁ : Pool := { s with threads := s.threads.set t w' }
  have hcount : s₁.owing = s.owing := hm.owing_eq hw hd rfl rfl rfl
  have htodo : w'.todo = w.todo := by rw [← hm.todo, he, List.nil_append]
  obtain ⟨full, pend, hl⟩ := h.levels
  refine h.moves hw hm rfl (h.count.trans (by rw [← hcount])) ⟨full, pend, ?_⟩
  exact hl.congr rfl rfl rfl (Pool.todoOf_set hw rfl htodo)

theorem Inv.pending_le (h : Inv T s) : s.pendingThreads ≤ s.nthread := by
  have hle := s.owing_le
  have hlen := h.length
  rw [h.count]
  omega

/-- The decrement of `wait`. -/
theorem Inv.moves_dec (h : Inv T s) (hT : s.nthread < 2 ^ 32) (hw : s.threads[t]? = some w)
    (hm : Moves t w w' .decPpt) :
    0 < s.pendingThreads ∧
      Inv T { s with
        threads := s.threads.set t w', pendingThreads := decPpt s.pendingThreads } := by
  let s₁ : Pool :=
    { s with threads := s.threads.set t w', pendingThreads := decPpt s.pendingThreads }
  have hget : s₁.threads[t]? = some w' := getElem?_set_some hw
  have hbusy : w.resting = false := by
    by_contra hr
    exact (hm.rest (by simpa using hr)).2.2.2 rfl
  have hrest : w'.resting = true := by
    rcases hm.busy hbusy with ⟨-, hr, -⟩ | ⟨hne, -⟩
    · exact hr
    · exact absurd rfl hne
  have hbefore : s.owes t = true := by
    rw [Pool.owes_some hw, hbusy, (h.threads t w hw).not_waking hm]
    rfl
  have hafter : s₁.owes t = false := by rw [Pool.owes_some hget, hrest]; rfl
  have hothers : ∀ u, u ≠ t → s₁.owes u = s.owes u := fun u hu => Pool.owes_ne hu rfl rfl
  have hcount : s.owing = s₁.owing + 1 :=
    Pool.owing_enter rfl (h.lt_nthread hw) hafter hbefore fun u hu => (hothers u hu).symm
  have hpos : 0 < s.pendingThreads := by
    rw [h.count, hcount]
    exact Nat.add_pos_left (Nat.succ_pos _) _
  have htodo : w'.todo = w.todo := by rw [← hm.todo]; rfl
  obtain ⟨full, pend, hl⟩ := h.levels
  refine ⟨hpos, h.moves hw hm rfl ?_ ⟨full, pend, ?_⟩⟩
  · have hp := h.count
    have hle := h.pending_le
    show decPpt s.pendingThreads = s₁.owing + (s.nthread - s.threads.length)
    rw [decPpt_of_pos hpos (by omega)]
    omega
  · exact hl.congr rfl rfl rfl (Pool.todoOf_set hw rfl htodo)

/-- Only while a level is being run is a worker at work. -/
theorem Inv.running_of_work (h : Inv T s) (hw : s.threads[t]? = some w) (hb : w.state = .build)
    (hr : w.resting = false) : ∃ level, s.pc.stage = .running level := by
  have hat := h.threads t w hw
  have hrest : s.pc.atRest t ≠ true := fun ht => by rw [hat.rest ht] at hr; cases hr
  have hctor : s.pc.inCtor ≠ true := fun hc => by rw [hat.ctor hc] at hb; cases hb
  have hv := h.valid
  generalize s.pc = pc at hrest hctor hv ⊢
  cases pc with
  | wait4completion p caller =>
    cases caller with
    | ctor => exact absurd rfl hctor
    | runLevel level => exact ⟨level, rfl⟩
  | wake p tid level => exact ⟨level, rfl⟩
  | create => exact absurd rfl hctor
  | thrown => exact absurd rfl hv
  | _ => exact absurd rfl hrest

theorem levelLog_snoc_ne {s s' : Pool} {entry : Entry} (hs : s'.log = s.log ++ [entry])
    {level : Nat} (hne : entry.level ≠ level) : s'.levelLog level = s.levelLog level := by
  rw [Pool.levelLog, Pool.levelLog, hs, List.filter_append]
  simp [hne]

theorem levelLog_snoc {s s' : Pool} (entry : Entry) (hs : s'.log = s.log ++ [entry]) :
    s'.levelLog entry.level = s.levelLog entry.level ++ [entry] := by
  rw [Pool.levelLog, Pool.levelLog, hs, List.filter_append]
  simp

theorem tasksOf_snoc (log : List Entry) (entry : Entry) (u : Nat) :
    tasksOf (log ++ [entry]) u = tasksOf log u ++ if entry.tid = u then [entry.task] else [] := by
  rw [tasksOf, tasksOf, List.filter_append, List.map_append]
  by_cases hu : entry.tid = u <;> simp [hu]

/-- A `prep` or `run` of a node. -/
theorem Inv.moves_task (h : Inv T s) (hw : s.threads[t]? = some w) {k : Task}
    (hm : Moves t w w' (.task k)) :
    Inv T { s with
      threads := s.threads.set t w'
      log := s.log ++ [⟨s.lists.currentLevel - 1, t, k⟩] } := by
  have hbusy : w.resting = false := by
    by_contra hr
    have hnil := (hm.rest (by simpa using hr)).2.2.1
    cases hnil
  obtain ⟨level, hstage⟩ := h.running_of_work hw (hm.work nofun) hbusy
  obtain ⟨full, pend, hl⟩ := h.levels
  rw [hstage] at hl
  obtain ⟨hlen, nodes, hnodes, owner, hown, hlt, htasks⟩ := hl.current
  have hlevel : s.lists.currentLevel - 1 = level := by
    rw [hl.lists.level, hlen]
    omega
  rw [hlevel]
  let s₁ : Pool := { s with threads := s.threads.set t w', log := s.log ++ [⟨level, t, k⟩] }
  have hget : s₁.threads[t]? = some w' := getElem?_set_some hw
  have hcount : s₁.owing = s.owing := hm.owing_eq hw nofun rfl rfl rfl
  have hother : ∀ j, j ≠ level → s₁.levelLog j = s.levelLog j := fun j hj =>
    levelLog_snoc_ne rfl (Ne.symm hj)
  have hmine : s₁.levelLog level = s.levelLog level ++ [⟨level, t, k⟩] :=
    levelLog_snoc ⟨level, t, k⟩ rfl
  have hhanded : s₁.Handed level nodes nodes.length := by
    refine ⟨owner, hown, hlt, fun u => ?_⟩
    rw [hmine, tasksOf_snoc, ← htasks u]
    by_cases hu : u = t
    · subst hu
      rw [if_pos rfl, Pool.todoOf_some hw, Pool.todoOf_some hget, ← hm.todo, List.append_assoc]
      rfl
    · rw [if_neg (Ne.symm hu), List.append_nil, Pool.todoOf_ne hu rfl]
  refine h.moves hw hm rfl (h.count.trans (by rw [← hcount])) ⟨full, pend, ?_⟩
  show LevelsAt s₁ s.pc.stage full pend
  rw [hstage]
  refine ⟨hl.lists, hl.nonempty, fun j nodes' hj hlt' => ?_, fun e he => ?_,
    hlen, nodes, hnodes, hhanded⟩
  · have hne : j ≠ level := by
      simp only [Stage.settled] at hlt'
      omega
    rw [hother j hne]
    exact hl.done j nodes' hj hlt'
  · rcases List.mem_append.mp he with he | he
    · exact hl.log e he
    · rw [List.mem_singleton.mp he]
      simp only [Stage.logged]
      omega

end WorkerSteps

/-! ## Steps of the scheduling thread that leave the workers alone -/

theorem Inv.goto {T : Nat} {s : Pool} (h : Inv T s) {pc : SchedulerPc} {lists : Scheduler}
    {m : Mutex Thread}
    (hlen : s.threads.length = s.nthread) (hv : pc ≠ .thrown)
    (hm : m.owner = if pc.holdsMutex = true then some .scheduler else none)
    (hw : ∀ t, pc.waking t = s.pc.waking t)
    (hth : ∀ t w, s.threads[t]? = some w → WorkerAt pc t w) (he : pc.LoopOk s.nthread)
    (hl : ∃ full pend, LevelsAt { s with lists := lists } pc.stage full pend) :
    Inv T { s with lists := lists, mutex := m, pc := pc } := by
  let s₁ : Pool := { s with lists := lists, mutex := m, pc := pc }
  have howes : ∀ t, s₁.owes t = s.owes t := by
    intro t
    unfold Pool.owes
    rw [hw t]
  have hcount : s₁.owing = s.owing := Pool.owing_same rfl howes
  obtain ⟨full, pend, hl⟩ := hl
  exact {
    nthread := h.nthread
    valid := hv
    length := h.length
    started := fun _ => hlen
    count := h.count.trans (by rw [← hcount])
    mutex := hm
    threads := hth
    loop := he
    levels := ⟨full, pend, hl.congr rfl rfl rfl fun _ => rfl⟩ }

/-- The end of the sleep of `wait4completion`. -/
theorem Inv.wakeUp {T : Nat} {s s' : Pool} (h : Inv T s) (hs : s.wakeUp = some s') : Inv T s' := by
  unfold Pool.wakeUp at hs
  split at hs
  · rename_i caller hp
    cases hs
    have hlen := h.started (by rw [hp]; nofun)
    have hm := h.mutex
    have hl := h.levels
    have hth := h.threads
    rw [hp] at hm hl hth
    refine h.goto hlen nofun hm (fun t => by rw [hp]; rfl) (fun t w hw => ?_) trivial ?_
    · cases caller with
      | ctor => exact (hth t w hw).goto rfl rfl nofun (hth t w hw).drained id id
      | runLevel level => exact (hth t w hw).goto rfl rfl nofun (hth t w hw).drained nofun id
    · cases caller <;> exact hl
  · cases hs

/-- Every step of a worker keeps the invariant. -/
theorem Inv.worker {T : Nat} {s : Pool} (h : Inv T s) (hT : s.nthread < 2 ^ 32) {t : Nat}
    {w w' : WorkerThread} {e : Effect} (hw : s.threads[t]? = some w) (hm : Moves t w w' e) :
    Inv T (Pool.apply { s with threads := s.threads.set t w' } t e) := by
  cases e with
  | silent => exact h.moves_quiet hw hm rfl nofun
  | decPpt => exact (h.moves_dec hT hw hm).2
  | signalParent =>
    have h₁ := h.moves_quiet hw hm rfl nofun
    unfold Pool.apply
    cases hu : Pool.wakeUp { s with threads := s.threads.set t w' } with
    | none => exact h₁
    | some s' => exact h₁.wakeUp hu
  | task k => exact h.moves_task hw hm

end Monya.Structures
