/-
  The level barrier: whenever `run_level` returns, the level has been done.

  Each step of the scheduling thread keeps the invariant of `PoolInvariant`: `Inv.create` and
  `Inv.completion` for the constructor and `wait4completion`, `Inv.schedulePush` for a call,
  `Inv.runLevel` and `Inv.enqueueStep` for handing a level out, and `Inv.wakeStep` for `wake4run`.
  `wait4completion` gets past its loop only when no thread is pending, so that every worker is at
  rest (`Inv.all_resting`) and its tasks are done (`LevelsAt.finish`).

  `level_barrier` is the result. A lost wake-up of the scheduling thread does not touch it: the
  thread then never returns from `wait4completion`.
-/
import Monya.Structures.PoolInvariant

namespace Monya.Structures

open Monya.Lib

variable {T : Nat} {s s' : Pool}

/-! ## Starting the workers, and waiting for them -/

theorem Inv.create (h : Inv T s) (hp : s.pc = .create) (hlt : s.threads.length < s.nthread) :
    Inv T { s with threads := s.threads ++ [.new] } := by
  let s₁ : Pool := { s with threads := s.threads ++ [.new] }
  have hlen : s₁.threads.length = s.threads.length + 1 := List.length_append
  have hold : ∀ t, t ≠ s.threads.length → s₁.threads[t]? = s.threads[t]? := by
    intro t ht
    rcases Nat.lt_or_gt_of_ne ht with ht | ht
    · exact List.getElem?_append_left ht
    · rw [List.getElem?_eq_none (by omega), List.getElem?_eq_none (by omega)]
  have hnew : s₁.threads[s.threads.length]? = some .new := List.getElem?_concat_length
  have howes : s₁.owes s.threads.length = true := by
    rw [Pool.owes_some hnew]
    show (!WorkerThread.resting .new && !s.pc.waking _) = true
    rw [hp]
    rfl
  have hnone : s.threads[s.threads.length]? = none := List.getElem?_eq_none (le_refl _)
  have hcount : s₁.owing = s.owing + 1 := by
    refine Pool.owing_enter rfl hlt ?_ howes fun u hu => ?_
    · unfold Pool.owes
      rw [hnone]
    · unfold Pool.owes
      rw [hold u hu]
  have htodo : ∀ t, s₁.todoOf t = s.todoOf t := by
    intro t
    by_cases ht : t = s.threads.length
    · subst ht
      rw [Pool.todoOf_some hnew]
      unfold Pool.todoOf
      rw [hnone]
      rfl
    · unfold Pool.todoOf
      rw [hold t ht]
  obtain ⟨full, pend, hl⟩ := h.levels
  exact {
    nthread := h.nthread
    valid := h.valid
    length := by rw [hlen]; exact hlt
    started := fun hne => absurd hp hne
    count := by
      have hc := h.count
      show s.pendingThreads = s₁.owing + (s.nthread - s₁.threads.length)
      omega
    mutex := h.mutex
    threads := by
      intro t w hw
      by_cases ht : t = s.threads.length
      · subst ht
        obtain rfl : w = .new := Option.some.inj (hw.symm.trans hnew)
        show WorkerAt s.pc _ _
        rw [hp]
        exact ⟨workerOk_new _, ⟨nofun, nofun⟩, ⟨nofun, nofun⟩, nofun, fun _ _ => rfl, fun _ => rfl,
          fun _ => rfl⟩
      · rw [hold t ht] at hw
        exact h.threads t w hw
    loop := h.loop
    levels := ⟨full, pend, hl.congr rfl rfl rfl htodo⟩ }

/-- No thread is pending: all workers are at rest. -/
theorem Inv.all_resting (h : Inv T s) (h₀ : s.pendingThreads = 0)
    (hw : ∀ t, s.pc.waking t = false) {t : Nat} {w : WorkerThread} (ht : s.threads[t]? = some w) :
    w.resting = true := by
  have hc := h.count
  have hzero : s.owing = 0 := by omega
  have hempty := Finset.card_eq_zero.mp hzero
  by_contra hr
  have howes : s.owes t = true := by
    rw [Pool.owes_some ht, hw t]
    simpa using hr
  have hmem : t ∈ (Finset.range s.nthread).filter fun t => s.owes t = true :=
    Finset.mem_filter.mpr ⟨Finset.mem_range.mpr (h.lt_nthread ht), howes⟩
  rw [hempty] at hmem
  cases hmem

theorem WorkerThread.decremented_of_resting {w : WorkerThread} (h : w.resting = true) :
    w.pc.decremented = true := by
  unfold WorkerThread.resting at h
  simp only [Bool.and_eq_true] at h
  exact h.1

theorem WorkerThread.todo_of_resting {w : WorkerThread} (h : w.resting = true) :
    w.todo = trained w.taskQueue.tasks := by
  have hd := WorkerThread.decremented_of_resting h
  unfold WorkerThread.todo
  generalize w.pc = pc at hd ⊢
  unfold WorkerPc.decremented at hd
  split at hd <;> first | rfl | cases hd

/-- A worker at rest with an empty queue has nothing to do. -/
theorem Inv.todoOf_nil (h : Inv T s) (hr : ∀ t, s.pc.atRest t = true)
    (hd : ∀ t, s.pc.drained t = true) (t : Nat) : s.todoOf t = [] := by
  cases hw : s.threads[t]? with
  | none =>
    unfold Pool.todoOf
    rw [hw]
  | some w =>
    have hat := h.threads t w hw
    rw [Pool.todoOf_some hw, WorkerThread.todo_of_resting (hat.rest (hr t)),
      hat.drained (hd t) (hat.rest (hr t))]
    rfl

/-- The level is done when the last worker is at rest. -/
theorem LevelsAt.finish {level : Nat} {full : List (List Nat)} {pend : List Nat}
    (h : LevelsAt s (.running level) full pend) (htodo : ∀ t, s.todoOf t = []) :
    LevelsAt s (.returned level) full pend := by
  obtain ⟨hlen, nodes, hnodes, owner, hown, hlt, htasks⟩ := h.current
  refine ⟨h.lists, h.nonempty, fun j nodes' hj hjlt => ?_, h.log, hlen⟩
  by_cases hjl : j = level
  · subst hjl
    obtain rfl : nodes' = nodes := Option.some.inj (hj.symm.trans hnodes)
    refine ⟨owner, hown, hlt, fun t => ?_⟩
    rw [← htasks t, htodo t, List.append_nil]
  · refine h.done j nodes' hj ?_
    simp only [Stage.settled] at hjlt ⊢
    omega

theorem Inv.completion (h : Inv T s) {p : CompletionPc} {caller : CompletionCaller}
    (hp : s.pc = .wait4completion p caller) (hs : s.completionStep caller p = some s') :
    Inv T s' := by
  have hlen := h.started (by rw [hp]; simp)
  have hm := h.mutex
  have hth := h.threads
  have hl := h.levels
  rw [hp] at hm hth hl
  have hw : ∀ q c t, (SchedulerPc.wait4completion q c).waking t = s.pc.waking t := by
    intro q c t
    rw [hp]
    rfl
  -- the places of `wait4completion` are alike for the workers, except `unlock`
  have hgoto : ∀ q m, q ≠ .unlock →
      m.owner = (if (SchedulerPc.wait4completion q caller).holdsMutex = true then
        some .scheduler else none) →
      Inv T { s with mutex := m, pc := .wait4completion q caller } := by
    intro q m hq hm'
    refine h.goto hlen (by simp) hm' (hw q caller) (fun t w ht => ?_) trivial ?_
    · refine (hth t w ht).goto rfl rfl (fun hr => ?_) (hth t w ht).drained ?_ id
      · cases q <;> first | exact absurd rfl hq | cases hr
      · cases caller <;> exact id
    · cases caller <;> exact hl
  cases p with
  | lock =>
    rw [Pool.completionStep] at hs
    obtain ⟨-, hs⟩ := Mutex.lock_eq_some (by rw [hm]; simp) hs
    cases hs
    exact hgoto .test _ (by simp) rfl
  | test =>
    by_cases hz : s.pendingThreads = 0
    · rw [Pool.completionStep, if_neg (by simpa using hz)] at hs
      cases hs
      refine h.goto hlen (by simp) hm (hw _ _) (fun t w ht => ?_) trivial ?_
      · have hr : w.resting = true := h.all_resting hz (fun t => by rw [hp]; rfl) ht
        refine (hth t w ht).goto rfl rfl (fun _ => hr) (hth t w ht).drained ?_ id
        cases caller <;> exact id
      · cases caller <;> exact hl
    · rw [Pool.completionStep, if_pos hz] at hs
      cases hs
      exact hgoto .enter _ (by simp) hm
  | enter =>
    rw [Pool.completionStep, Mutex.unlock_owner hm] at hs
    cases hs
    exact hgoto .asleep _ (by simp) rfl
  | asleep => cases hs
  | reacquire =>
    rw [Pool.completionStep] at hs
    obtain ⟨-, hs⟩ := Mutex.lock_eq_some (by rw [hm]; simp) hs
    cases hs
    exact hgoto .test _ (by simp) rfl
  | unlock =>
    have htodo := h.todoOf_nil (fun t => by rw [hp]; rfl) (fun t => by rw [hp]; rfl)
    cases caller with
    | ctor =>
      rw [Pool.completionStep, Mutex.unlock_owner hm] at hs
      cases hs
      exact h.goto hlen (by simp) rfl (fun t => by rw [hp]; rfl)
        (fun t w ht => (hth t w ht).goto rfl rfl (hth t w ht).rest (hth t w ht).drained
          (by simp) id)
        trivial hl
    | runLevel level =>
      rw [Pool.completionStep, Mutex.unlock_owner hm] at hs
      cases hs
      obtain ⟨full, pend, hl⟩ := hl
      exact h.goto hlen (by simp) rfl (fun t => by rw [hp]; rfl)
        (fun t w ht => (hth t w ht).goto rfl rfl (hth t w ht).rest (hth t w ht).drained
          (by simp) id)
        trivial ⟨full, pend, hl.finish htodo⟩

/-! ## Scheduling a node -/

/-- A call adds its node to the current level, and may fill it. -/
theorem Inv.schedulePush (h : Inv T s) {x : Nat} (hp : s.pc = .schedulePush x)
    (hs : s.schedulePush x = some s') : Inv T s' := by
  have hlen := h.started (by rw [hp]; nofun)
  have hm := h.mutex
  have hth := h.threads
  rw [hp] at hm hth
  have hgoto : ∀ full lists, (∃ f p, LevelsAt { s with lists := lists }
      (SchedulerPc.scheduleUnlock full).stage f p) →
      Inv T { s with lists := lists, pc := .scheduleUnlock full } := by
    intro full lists hl
    exact h.goto hlen nofun hm (fun t => by rw [hp]; rfl)
      (fun t w ht => (hth t w ht).goto rfl rfl (hth t w ht).rest (hth t w ht).drained nofun id)
      trivial hl
  obtain ⟨full, pend, hl⟩ := h.levels
  rw [hp] at hl
  have hpush := hl.lists.push x
  have hget := hpush.getNodes_pend (by simp)
  unfold Pool.schedulePush at hs
  simp only [hget] at hs
  by_cases hfull : (s.lists.push x).fanout ^ (s.lists.push x).currentLevel = (pend ++ [x]).length
  · rw [if_pos hfull] at hs
    cases hs
    refine hgoto true _ ⟨full ++ [pend ++ [x]], [], ?_⟩
    have hpre : ∀ j, j < full.length → (full ++ [pend ++ [x]])[j]? = full[j]? :=
      fun j hj => List.getElem?_append_left hj
    refine ⟨⟨by simp [hpush.level], by simp [hpush.nodes]⟩, ?_, fun j nodes hj hjlt => ?_,
      fun e he => ?_, by simp⟩
    · intro nodes hmem
      rcases List.mem_append.mp hmem with hmem | hmem
      · exact hl.nonempty nodes hmem
      · rw [List.mem_singleton.mp hmem]
        simp
    · have hjlt' : j < full.length := by simpa using hjlt
      rw [hpre j hjlt'] at hj
      exact hl.done j nodes hj hjlt'
    · have he' : e.level < full.length := hl.log e he
      simpa using he'
  · rw [if_neg hfull] at hs
    cases hs
    exact hgoto false _ ⟨full, pend ++ [x], hpush, hl.nonempty, hl.done, hl.log, trivial⟩

theorem Inv.scheduleUnlock (h : Inv T s) {full : Bool} (hp : s.pc = .scheduleUnlock full)
    (hs : s.schedulerStep = some s') : Inv T s' := by
  have hlen := h.started (by rw [hp]; nofun)
  have hm := h.mutex
  have hth := h.threads
  rw [hp] at hm hth
  obtain ⟨levels, pend, hl⟩ := h.levels
  rw [hp] at hl
  unfold Pool.schedulerStep at hs
  rw [hp] at hs
  dsimp only at hs
  rw [Mutex.unlock_owner hm] at hs
  cases full with
  | false =>
    cases hs
    exact h.goto hlen nofun rfl (fun t => by rw [hp]; rfl)
      (fun t w ht => (hth t w ht).goto rfl rfl (hth t w ht).rest (hth t w ht).drained nofun id)
      trivial ⟨levels, pend, hl⟩
  | true =>
    cases hs
    refine h.goto hlen nofun rfl (fun t => by rw [hp]; rfl)
      (fun t w ht => (hth t w ht).goto rfl rfl (hth t w ht).rest (hth t w ht).drained nofun id)
      trivial ⟨levels, pend, hl.lists, hl.nonempty, hl.done, hl.log, ?_⟩
    have hne : levels.length ≠ 0 := fun h0 => hl.current (List.length_eq_zero_iff.mp h0)
    show levels.length = s.lists.currentLevel - 1 + 1
    rw [hl.lists.level]
    omega

/-! ## Handing out a level -/

theorem levelLog_nil {level : Nat} (h : ∀ e ∈ s.log, e.level < level) : s.levelLog level = [] := by
  rw [Pool.levelLog, List.filter_eq_nil_iff]
  intro e he hlevel
  have := h e he
  simp only [decide_eq_true_eq] at hlevel
  omega

theorem Inv.runLevel (h : Inv T s) (hT : 1 ≤ s.nthread) {level : Nat} (hp : s.pc = .runLevel level)
    (hs : s.runLevelStep level = some s') : Inv T s' := by
  have hlen := h.started (by rw [hp]; nofun)
  have htodo := h.todoOf_nil (fun t => by rw [hp]; rfl) (fun t => by rw [hp]; rfl)
  have hm := h.mutex
  have hth := h.threads
  obtain ⟨full, pend, hl⟩ := h.levels
  rw [hp] at hm hth hl
  have hfull : full.length = level + 1 := hl.current
  have hlt : level < full.length := by omega
  have hne : full[level].length ≠ 0 := fun h0 =>
    hl.nonempty _ (List.getElem_mem hlt) (List.length_eq_zero_iff.mp h0)
  have hpos : 0 < s.threads.length := by omega
  have hlog : s.levelLog level = [] := levelLog_nil fun e he => by
    have := hl.log e he
    simp only [SchedulerPc.stage, Stage.logged] at this
    omega
  unfold Pool.runLevelStep at hs
  rw [hl.lists.getNodes hlt] at hs
  dsimp only at hs
  rw [if_neg hne, CUnsigned.new, dif_pos hpos] at hs
  cases hs
  refine h.goto hlen nofun hm (fun t => by rw [hp]; rfl)
    (fun t w ht => (hth t w ht).goto rfl rfl (hth t w ht).rest nofun nofun id)
    ⟨Nat.pos_of_ne_zero hne, hlen, nofun⟩ ⟨full, pend, hl.lists, hl.nonempty, hl.done, ?_, ?_⟩
  · intro e he
    have := hl.log e he
    simp only [SchedulerPc.stage, Stage.logged] at this ⊢
    omega
  · refine ⟨hfull, List.getElem?_eq_getElem hlt, [], rfl, nofun, fun t => ?_⟩
    show tasksOf (s.levelLog level) t ++ s.todoOf t = _
    rw [hlog, htodo t, share_nil]
    rfl

/-- The scheduling thread changes worker `t` and goes on. -/
theorem Inv.setThread {pc : SchedulerPc} {t : Nat} {w w' : WorkerThread} (h : Inv T s)
    (hpc : s.pc ≠ .create) (hw : s.threads[t]? = some w) (hv : pc ≠ .thrown)
    (hm : pc.holdsMutex = s.pc.holdsMutex)
    (howes : (!w'.resting && !pc.waking t) = (!w.resting && !s.pc.waking t))
    (hwk : ∀ u, u ≠ t → pc.waking u = s.pc.waking u) (hat : WorkerAt pc t w')
    (hothers : ∀ u x, u ≠ t → s.threads[u]? = some x → WorkerAt pc u x)
    (hloop : pc.LoopOk s.nthread)
    (hl : ∃ full pend, LevelsAt { s with threads := s.threads.set t w' } pc.stage full pend) :
    Inv T { s with threads := s.threads.set t w', pc := pc } := by
  let s₁ : Pool := { s with threads := s.threads.set t w', pc := pc }
  have hget : s₁.threads[t]? = some w' := getElem?_set_some hw
  have hcount : s₁.owing = s.owing := by
    refine Pool.owing_same rfl fun u => ?_
    by_cases hu : u = t
    · subst hu
      rw [Pool.owes_some hw, Pool.owes_some hget]
      exact howes
    · exact Pool.owes_ne hu rfl (hwk u hu)
  obtain ⟨full, pend, hl⟩ := hl
  exact {
    nthread := h.nthread
    valid := hv
    length := by rw [List.length_set]; exact h.length
    started := fun _ => by rw [List.length_set]; exact h.started hpc
    count := by rw [List.length_set]; exact h.count.trans (by rw [← hcount])
    mutex := by
      show s.mutex.owner = if pc.holdsMutex = true then _ else _
      rw [hm]
      exact h.mutex
    threads := by
      intro u x hx
      rcases getElem?_set_cases hx with ⟨rfl, rfl⟩ | ⟨hu, hx⟩
      · exact hat
      · exact hothers u x hu hx
    loop := hloop
    levels := ⟨full, pend, hl.congr rfl rfl rfl fun _ => rfl⟩ }

theorem ntasks_bounds {nodes : List Nat} {k : Nat} (hk : k < nodes.length) :
    0 < ntasks nodes k ∧ k + ntasks nodes k ≤ nodes.length := by
  unfold ntasks minTasksPt
  split <;> omega

/-- The scheduling thread may change the queue of a worker at rest. -/
theorem WorkerAt.enqueue {pc pc' : SchedulerPc} {t : Nat} {w : WorkerThread} {q : BuildTaskQueue}
    (h : WorkerAt pc t w) (hr : w.resting = true) (hmine : q.mutex.owner ≠ some (.worker t))
    (hq : q.mutex.owner = some .scheduler ↔ pc'.holdsQueue t = true)
    (hs : pc'.holdsState t = pc.holdsState t) (hd : pc'.drained t = false)
    (hc : pc'.inCtor = false) (hk : pc'.waking t = false) :
    WorkerAt pc' t { w with taskQueue := q } := by
  have hdec := WorkerThread.decremented_of_resting hr
  have hidle : w.pc.holdsQueue = false ∧ ∀ st q, w.pc.TasksOk st q := by
    generalize w.pc = pc at hdec ⊢
    unfold WorkerPc.decremented at hdec
    split at hdec <;> first | exact ⟨rfl, fun _ _ => trivial⟩ | cases hdec
  exact {
    ok := ⟨h.ok.stateLock, iff_of_false hmine (by rw [hidle.1]; simp), h.ok.state, hidle.2 _ _⟩
    stateLock := hs ▸ h.stateLock
    queueLock := hq
    rest := fun _ => hr
    drained := fun hd' => by rw [hd] at hd'; cases hd'
    ctor := fun hc' => by rw [hc] at hc'; cases hc'
    woken := fun hk' => by rw [hk] at hk'; cases hk' }

/-- One more node is in the queue of its worker. -/
theorem Pool.Handed.push {level n x t : Nat} {nodes : List Nat} {w : WorkerThread}
    (h : s.Handed level nodes n) (hx : nodes[n]? = some x) (hw : s.threads[t]? = some w)
    (ht : t < s.nthread) (hr : w.resting = true) :
    Pool.Handed
      { s with
        threads := s.threads.set t { w with taskQueue.tasks := w.taskQueue.tasks ++ [x] } }
      level nodes (n + 1) := by
  obtain ⟨owner, rfl, hlt, htasks⟩ := h
  refine ⟨owner ++ [t], by simp, fun u hu => ?_, fun u => ?_⟩
  · rcases List.mem_append.mp hu with hu | hu
    · exact hlt u hu
    · exact List.mem_singleton.mp hu ▸ ht
  · have hsame : trained (share nodes owner u) =
        tasksOf (s.levelLog level) u ++ s.todoOf u := (htasks u).symm
    rw [share_snoc hx, trained, List.flatMap_append]
    show tasksOf (s.levelLog level) u ++ _ = trained (share nodes owner u) ++ _
    rw [hsame, List.append_assoc]
    congr 1
    by_cases hu : u = t
    · subst hu
      rw [if_pos rfl, Pool.todoOf_some hw, Pool.todoOf_some (getElem?_set_some hw),
        WorkerThread.todo_of_resting hr, WorkerThread.todo_of_resting (by exact hr)]
      simp [trained]
    · rw [if_neg (Ne.symm hu), Pool.todoOf_ne (s := s) hu rfl]
      simp

/-- The scheduling thread changes the queue that it is handing a batch to. -/
theorem Inv.setQueue (h : Inv T s) {p : EnqueuePc} {level taskIndex : Nat} {nodes : List Nat}
    {tid : CUnsigned} {w : WorkerThread} {q : BuildTaskQueue} {pc : SchedulerPc}
    (hp : s.pc = .enqueue p level nodes taskIndex tid) (hw : s.threads[tid.val]? = some w)
    (hmine : q.mutex.owner ≠ some (.worker tid.val))
    (hq : q.mutex.owner = some .scheduler ↔ pc.holdsQueue tid.val = true)
    (hother : ∀ u, u ≠ tid.val → pc.holdsQueue u = false)
    (hplain : pc ≠ .thrown ∧ pc.holdsMutex = false ∧ pc.inCtor = false)
    (hquiet : ∀ u, pc.holdsState u = false ∧ pc.waking u = false ∧ pc.drained u = false)
    (hloop : pc.LoopOk s.nthread)
    (hl : ∃ full pend, LevelsAt
      { s with threads := s.threads.set tid.val { w with taskQueue := q } } pc.stage full pend) :
    Inv T { s with threads := s.threads.set tid.val { w with taskQueue := q }, pc := pc } := by
  have hth := h.threads
  rw [hp] at hth
  have hat := hth tid.val w hw
  have hr : w.resting = true := hat.rest rfl
  refine h.setThread (by rw [hp]; simp) hw hplain.1 (by rw [hp]; exact hplain.2.1) ?_
    (fun u _ => ?_) (hat.enqueue hr hmine hq (hquiet _).1 (hquiet _).2.2 hplain.2.2 (hquiet _).2.1)
    (fun u x hu hx => ?_) hloop hl
  · rw [hp, (hquiet _).2.1]
    rfl
  · rw [hp, (hquiet u).2.1]
    rfl
  · have hfree : (SchedulerPc.enqueue p level nodes taskIndex tid).holdsQueue u = false := by
      cases p <;> simp [Ne.symm hu]
    have hat := hth u x hx
    refine hat.goto (hquiet u).1 ((hother u hu).trans hfree.symm) (fun _ => hat.rest rfl) ?_ ?_ ?_
    · rw [(hquiet u).2.2]
      simp
    · rw [hplain.2.2]
      simp
    · rw [(hquiet u).2.1]
      simp

theorem Inv.enqueueStep (h : Inv T s) {p : EnqueuePc} {level taskIndex : Nat} {nodes : List Nat}
    {tid : CUnsigned} (hp : s.pc = .enqueue p level nodes taskIndex tid)
    (hs : s.enqueueStep level nodes taskIndex tid p = some s') : Inv T s' := by
  have hlen := h.started (by rw [hp]; simp)
  have hm := h.mutex
  have hth := h.threads
  have hloop := h.loop
  obtain ⟨full, pend, hl⟩ := h.levels
  rw [hp] at hm hth hloop hl
  obtain ⟨hk, hmax, hi⟩ := hloop
  obtain ⟨hpos, hle⟩ := ntasks_bounds hk
  have htid : tid.val < s.nthread := hmax ▸ tid.lt
  obtain ⟨w, hw⟩ : ∃ w, s.threads[tid.val]? = some w :=
    ⟨_, List.getElem?_eq_getElem (by omega)⟩
  have hat := hth tid.val w hw
  have hr : w.resting = true := hat.rest rfl
  unfold Pool.enqueueStep at hs
  rw [hw] at hs
  dsimp only at hs
  cases p with
  | acquire =>
    have hfree : w.taskQueue.mutex.owner ≠ some .scheduler := fun ho => by
      have := hat.queueLock.mp ho
      cases this
    obtain ⟨-, hs⟩ := Mutex.lock_eq_some hfree hs
    cases hs
    exact h.setQueue hp hw (by simp) (by simp) (fun u hu => by simp [Ne.symm hu]) (by simp)
      (fun _ => ⟨rfl, rfl, rfl⟩) ⟨hk, hmax, fun i hi => by cases hi; omega⟩
      ⟨full, pend, hl.congr rfl rfl rfl (Pool.todoOf_set hw rfl rfl)⟩
  | push i =>
    dsimp only at hs
    have hown : w.taskQueue.mutex.owner = some .scheduler := hat.queueLock.mpr (by simp)
    by_cases hlt : i < ntasks nodes taskIndex
    · have hx : taskIndex + i < nodes.length := by omega
      rw [if_pos hlt, List.getElem?_eq_getElem hx] at hs
      cases hs
      obtain ⟨hfull, hnodes, hhanded⟩ := hl.current
      exact h.setQueue hp hw (by simp [hown]) (by simp [hown]) (fun u hu => by simp [Ne.symm hu])
        (by simp) (fun _ => ⟨rfl, rfl, rfl⟩) ⟨hk, hmax, fun j hj => by cases hj; omega⟩
        ⟨full, pend, hl.lists, hl.nonempty, hl.done, hl.log, hfull, hnodes,
          hhanded.push (List.getElem?_eq_getElem hx) hw htid hr⟩
    · have heq : i = ntasks nodes taskIndex := by
        have := hi i rfl
        omega
      rw [if_neg hlt] at hs
      cases hs
      subst heq
      exact h.goto hlen (by simp) hm (fun t => by rw [hp]; rfl)
        (fun u x hx => (hth u x hx).goto rfl rfl (hth u x hx).rest (by simp) (by simp) id)
        ⟨hk, hmax, by simp⟩ ⟨full, pend, hl⟩
  | release =>
    dsimp only at hs
    have hown : w.taskQueue.mutex.owner = some .scheduler := hat.queueLock.mpr (by simp)
    rw [Mutex.unlock_owner hown] at hs
    have hl' : LevelsAt
        { s with threads := s.threads.set tid.val { w with taskQueue.mutex := ⟨none⟩ } }
        (.handing level nodes (taskIndex + ntasks nodes taskIndex)) full pend :=
      hl.congr rfl rfl rfl (Pool.todoOf_set hw rfl rfl)
    by_cases hend : taskIndex + ntasks nodes taskIndex = nodes.length
    · rw [if_pos hend] at hs
      cases hs
      obtain ⟨hfull, hnodes, hhanded⟩ := hl'.current
      rw [hend] at hhanded
      exact h.setQueue hp hw (by simp) (by simp) (fun _ _ => rfl) (by simp)
        (fun _ => ⟨rfl, rfl, rfl⟩) (fun h => absurd rfl h)
        ⟨full, pend, hl'.lists, hl'.nonempty, hl'.done, hl'.log, hfull, nodes, hnodes, hhanded⟩
    · rw [if_neg hend] at hs
      cases hs
      exact h.setQueue hp hw (by simp) (by simp) (fun _ _ => rfl) (by simp)
        (fun _ => ⟨rfl, rfl, rfl⟩) ⟨by omega, hmax, by simp⟩ ⟨full, pend, hl'⟩

/-! ## Waking the workers -/

/-- The scheduling thread owns the state lock of a worker at rest: the worker is asleep, or waits
    for its lock. -/
theorem WorkerOk.wake {t : Nat} {w : WorkerThread} (h : WorkerOk t w) (hr : w.resting = true)
    (hl : w.stateLock.owner = some .scheduler) :
    WorkerOk t { w with state := .build } := by
  have hdec := WorkerThread.decremented_of_resting hr
  have hfree : w.pc.holdsState ≠ true := fun hh => by
    rw [h.stateLock.mpr hh] at hl
    cases hl
  have hplace : w.pc.StateOk .build ∧ w.pc.TasksOk .build w.taskQueue.tasks := by
    generalize w.pc = pc at hdec hfree ⊢
    unfold WorkerPc.decremented at hdec
    split at hdec
    · exact absurd rfl hfree
    · exact absurd rfl hfree
    · exact absurd rfl hfree
    · exact absurd rfl hfree
    · exact ⟨.inr rfl, trivial⟩
    · exact ⟨.inr rfl, trivial⟩
    · cases hdec
  exact ⟨h.stateLock, h.queueLock, hplace.1, hplace.2⟩

/-- `wake` counts the worker. -/
theorem Inv.incPpt (h : Inv T s) (hT : s.nthread < 2 ^ 32) {tid level : Nat} {w : WorkerThread}
    (hp : s.pc = .wake .incPpt tid level) (hw : s.threads[tid]? = some w) :
    Inv T { s with
      pendingThreads := Structures.incPpt s.pendingThreads
      pc := .wake .release tid level } := by
  have hth := h.threads
  have hm := h.mutex
  have hlen := h.started (by rw [hp]; nofun)
  obtain ⟨full, pend, hl⟩ := h.levels
  rw [hp] at hth hm hl
  let s₁ : Pool := { s with
    pendingThreads := Structures.incPpt s.pendingThreads
    pc := .wake .release tid level }
  have hbusy : w.resting = false := (hth tid w hw).woken (by simp)
  have hcount : s₁.owing = s.owing + 1 := by
    refine Pool.owing_enter rfl (h.lt_nthread hw) ?_ ?_ fun u hu => ?_
    · rw [Pool.owes_some hw, hp]
      simp
    · have hget : s₁.threads[tid]? = some w := hw
      rw [Pool.owes_some hget, hbusy]
      rfl
    · unfold Pool.owes
      rw [hp]
      simp [s₁, Ne.symm hu]
  have hle : s₁.owing ≤ s.threads.length := s₁.owing_le
  exact {
    nthread := h.nthread
    valid := nofun
    length := h.length
    started := fun _ => hlen
    count := by
      have hc := h.count
      show Structures.incPpt s.pendingThreads = s₁.owing + (s.nthread - s.threads.length)
      rw [incPpt_of_lt (by omega), hcount]
      omega
    mutex := hm
    threads := fun u x hx =>
      (hth u x hx).goto rfl rfl (hth u x hx).rest (hth u x hx).drained nofun nofun
    loop := fun _ => h.lt_nthread hw
    levels := ⟨full, pend, hl.congr rfl rfl rfl fun _ => rfl⟩ }

/-- The scheduling thread locks or unlocks the state lock of the worker that it wakes. -/
theorem Inv.setStateLock (h : Inv T s) {p p' : WakePc} {tid level : Nat} {w : WorkerThread}
    {m : Mutex Thread} (hp : s.pc = .wake p tid level) (hw : s.threads[tid]? = some w)
    (hidle : w.pc.holdsState ≠ true) (hm : m.owner ≠ some (.worker tid))
    (hlock : m.owner = some .scheduler ↔ (SchedulerPc.wake p' tid level).holdsState tid = true)
    (hother : ∀ u, u ≠ tid → (SchedulerPc.wake p' tid level).holdsState u =
      (SchedulerPc.wake p tid level).holdsState u)
    (hrest : ∀ u, (SchedulerPc.wake p' tid level).atRest u =
      (SchedulerPc.wake p tid level).atRest u)
    (hdrained : ∀ u, (SchedulerPc.wake p' tid level).drained u =
      (SchedulerPc.wake p tid level).drained u)
    (hwaking : ∀ u, (SchedulerPc.wake p' tid level).waking u =
      (SchedulerPc.wake p tid level).waking u) :
    Inv T { s with
      threads := s.threads.set tid { w with stateLock := m }, pc := .wake p' tid level } := by
  have hth := h.threads
  obtain ⟨full, pend, hl⟩ := h.levels
  rw [hp] at hth hl
  have hat := hth tid w hw
  refine h.setThread (by rw [hp]; simp) hw (by simp) (by rw [hp]; rfl) ?_ (fun u _ => ?_) ?_
    (fun u x hu hx => ?_) (fun _ => h.lt_nthread hw)
    ⟨full, pend, hl.congr rfl rfl rfl (Pool.todoOf_set hw rfl rfl)⟩
  · rw [hp, hwaking]
    rfl
  · rw [hp, hwaking]
  · exact {
      ok := ⟨iff_of_false hm hidle, hat.ok.queueLock, hat.ok.state, hat.ok.tasks⟩
      stateLock := hlock
      queueLock := hat.queueLock
      rest := hrest tid ▸ hat.rest
      drained := hdrained tid ▸ hat.drained
      ctor := hat.ctor
      woken := hwaking tid ▸ hat.woken }
  · exact (hth u x hx).goto (hother u hu) rfl (hrest u ▸ (hth u x hx).rest)
      (hdrained u ▸ (hth u x hx).drained) id (hwaking u ▸ id)

/-- `wake` sets the state of a worker at rest, which is busy from here on. -/
theorem Inv.setBuild (h : Inv T s) {tid level : Nat} {w : WorkerThread}
    (hp : s.pc = .wake .setState tid level) (hw : s.threads[tid]? = some w) :
    Inv T { s with
      threads := s.threads.set tid { w with state := .build }, pc := .wake .incPpt tid level } := by
  have hth := h.threads
  obtain ⟨full, pend, hl⟩ := h.levels
  rw [hp] at hth hl
  have hat := hth tid w hw
  have hr : w.resting = true := hat.rest (by simp)
  have hown : w.stateLock.owner = some .scheduler := hat.stateLock.mpr (by simp)
  have hbusy : WorkerThread.resting { w with state := .build } = false := by
    simp [WorkerThread.resting]
  refine h.setThread (by rw [hp]; simp) hw (by simp) (by rw [hp]; rfl) (by rw [hbusy, hr, hp]; simp)
    (fun u hu => by rw [hp]; simp [Ne.symm hu]) ?_ (fun u x hu hx => ?_)
    (fun _ => h.lt_nthread hw) ⟨full, pend, hl.congr rfl rfl rfl (Pool.todoOf_set hw rfl rfl)⟩
  · refine ⟨hat.ok.wake hr hown, by simp [hown], hat.queueLock, ?_, ?_, by simp, fun _ => hbusy⟩
    · intro hlt
      simp at hlt
    · intro _ hr'
      rw [hbusy] at hr'
      cases hr'
  · refine (hth u x hx).goto rfl rfl (fun hr' => (hth u x hx).rest ?_)
      (fun hd => (hth u x hx).drained ?_) (by simp) (fun hk => ?_)
    · simp only [SchedulerPc.atRest, decide_eq_true_eq] at hr' ⊢
      omega
    · simp only [SchedulerPc.drained, decide_eq_true_eq] at hd ⊢
      omega
    · simp only [SchedulerPc.waking, decide_eq_true_eq] at hk
      exact absurd hk.symm hu

/-- The last step of `wake`, and on to the next worker. -/
theorem Inv.wakeSignal (h : Inv T s) {tid level : Nat} {w : WorkerThread}
    (hp : s.pc = .wake .signal tid level) (hw : s.threads[tid]? = some w) :
    Inv T { s with
      threads := s.threads.set tid w.signal, pc := .wake .acquire (tid + 1) level } := by
  have hmoves := signal_moves (h.threads tid w hw).ok
  have h₁ := h.moves_quiet hw hmoves rfl (by simp)
  have hm := h.mutex
  have hth := h₁.threads
  obtain ⟨full, pend, hl⟩ := h.levels
  rw [hp] at hm hth hl
  refine h₁.goto (h₁.started (by rw [hp]; simp)) (by simp) hm (fun t => by rw [hp]; rfl)
    (fun u x hx => ?_) (fun h => absurd rfl h)
    ⟨full, pend, hl.congr rfl rfl rfl (Pool.todoOf_set hw rfl hmoves.todo)⟩
  refine (hth u x hx).goto rfl rfl (fun hr => (hth u x hx).rest ?_)
    (fun hd => (hth u x hx).drained ?_) (by simp) (by simp)
  · simp only [SchedulerPc.atRest, decide_eq_true_eq] at hr ⊢
    omega
  · simp only [SchedulerPc.drained, decide_eq_true_eq] at hd ⊢
    omega

/-- `wake4run` has been through all workers. -/
theorem Inv.wakeDone (h : Inv T s) {p : WakePc} {tid level : Nat} (hp : s.pc = .wake p tid level)
    (hw : s.threads[tid]? = none) :
    Inv T { s with pc := .wait4completion .lock (.runLevel level) } := by
  have hlen := h.started (by rw [hp]; simp)
  have hm := h.mutex
  have hth := h.threads
  have hloop := h.loop
  obtain ⟨full, pend, hl⟩ := h.levels
  rw [hp] at hm hth hloop hl
  have hge : s.nthread ≤ tid := by
    rw [← hlen]
    exact List.getElem?_eq_none_iff.mp hw
  obtain rfl : p = .acquire := by
    by_contra hne
    have := hloop hne
    omega
  refine h.goto hlen (by simp) hm (fun t => by rw [hp]; rfl) (fun t w ht => ?_) trivial
    ⟨full, pend, hl⟩
  refine (hth t w ht).goto rfl rfl (by simp) (fun _ => (hth t w ht).drained ?_) (by simp) (by simp)
  have := h.lt_nthread ht
  simp only [SchedulerPc.drained, decide_eq_true_eq]
  omega

theorem Inv.wakeStep (h : Inv T s) (hT : s.nthread < 2 ^ 32) {p : WakePc} {tid level : Nat}
    (hp : s.pc = .wake p tid level) (hs : s.wakeStep tid level p = some s') : Inv T s' := by
  unfold Pool.wakeStep at hs
  cases hw : s.threads[tid]? with
  | none =>
    rw [hw] at hs
    cases hs
    exact h.wakeDone hp hw
  | some w =>
    have hat := h.threads tid w hw
    have hidle : ∀ o, w.stateLock.owner = o → o ≠ some (.worker tid) → w.pc.holdsState ≠ true :=
      fun o ho hne hh => hne (ho.symm.trans (hat.ok.stateLock.mpr hh))
    rw [hp] at hat
    rw [hw] at hs
    cases p with
    | acquire =>
      have hfree : w.stateLock.owner ≠ some .scheduler := fun ho => by
        have := hat.stateLock.mp ho
        cases this
      obtain ⟨ho, hs⟩ := Mutex.lock_eq_some hfree hs
      cases hs
      exact h.setStateLock hp hw (hidle _ ho (by simp)) (by simp) (by simp)
        (fun u hu => by simp [Ne.symm hu]) (fun _ => rfl) (fun _ => rfl) fun _ => rfl
    | setState =>
      cases hs
      exact h.setBuild hp hw
    | incPpt =>
      cases hs
      exact h.incPpt hT hp hw
    | release =>
      have hown : w.stateLock.owner = some .scheduler := hat.stateLock.mpr (by simp)
      dsimp only at hs
      rw [Mutex.unlock_owner hown] at hs
      cases hs
      exact h.setStateLock hp hw (hidle _ hown (by simp)) (by simp) (by simp)
        (fun u hu => by simp [Ne.symm hu]) (fun _ => rfl) (fun _ => rfl) fun _ => rfl
    | signal =>
      cases hs
      exact h.wakeSignal hp hw

/-! ## Every state of every run -/

theorem inv_new (T fanout : Nat) : Inv T (.new T fanout) where
  nthread := rfl
  valid := nofun
  length := Nat.zero_le _
  started h := absurd rfl h
  count := by
    have hzero : (Pool.new T fanout).owing = 0 := Nat.le_zero.mp (Pool.owing_le _)
    rw [hzero, Nat.zero_add]
    rfl
  mutex := rfl
  threads t w ht := by simp [Pool.new] at ht
  loop := trivial
  levels := ⟨[], [], Scheduler.at_new fanout, nofun, nofun, nofun, trivial⟩

theorem Inv.schedulerStep (h : Inv T s) (hT : 1 ≤ T) (hT' : T < 2 ^ 32)
    (hs : s.schedulerStep = some s') : Inv T s' := by
  have hn := h.nthread
  have hth := h.threads
  have hm := h.mutex
  have hl := h.levels
  cases hp : s.pc with
  | create =>
    unfold Pool.schedulerStep at hs
    rw [hp] at hs hth hm hl
    dsimp only at hs
    by_cases hlt : s.threads.length < s.nthread
    · rw [if_pos hlt] at hs
      cases hs
      have h₁ := h.create hp hlt
      rwa [hp] at h₁
    · have hlen := h.length
      rw [if_neg hlt] at hs
      cases hs
      exact h.goto (by omega) nofun hm (fun t => by rw [hp]; rfl)
        (fun t w ht => (hth t w ht).goto rfl rfl nofun (hth t w ht).drained id nofun) trivial hl
  | wait4completion p caller =>
    unfold Pool.schedulerStep at hs
    rw [hp] at hs
    exact h.completion hp hs
  | idle =>
    unfold Pool.schedulerStep at hs
    rw [hp] at hs
    cases hs
  | scheduleLock x =>
    unfold Pool.schedulerStep at hs
    rw [hp] at hs hth hm hl
    obtain ⟨-, hs⟩ := Mutex.lock_eq_some (by rw [hm]; nofun) hs
    cases hs
    exact h.goto (h.started (by rw [hp]; nofun)) nofun rfl (fun t => by rw [hp]; rfl)
      (fun t w ht => (hth t w ht).goto rfl rfl (hth t w ht).rest (hth t w ht).drained nofun nofun)
      trivial hl
  | schedulePush x =>
    unfold Pool.schedulerStep at hs
    rw [hp] at hs
    exact h.schedulePush hp hs
  | scheduleUnlock full => exact h.scheduleUnlock hp hs
  | runLevel level =>
    unfold Pool.schedulerStep at hs
    rw [hp] at hs
    exact h.runLevel (by omega) hp hs
  | enqueue p level nodes taskIndex tid =>
    unfold Pool.schedulerStep at hs
    rw [hp] at hs
    exact h.enqueueStep hp hs
  | wake p tid level =>
    unfold Pool.schedulerStep at hs
    rw [hp] at hs
    exact h.wakeStep (by omega) hp hs
  | returned level =>
    unfold Pool.schedulerStep at hs
    rw [hp] at hs hth hm hl
    cases hs
    obtain ⟨full, pend, hl⟩ := hl
    exact h.goto (h.started (by rw [hp]; nofun)) nofun hm (fun t => by rw [hp]; rfl)
      (fun t w ht => (hth t w ht).goto rfl rfl (hth t w ht).rest (hth t w ht).drained nofun nofun)
      trivial ⟨full, pend, hl.lists, hl.nonempty, hl.done, hl.log, trivial⟩
  | thrown => exact absurd hp h.valid

theorem Inv.step (hT : 1 ≤ T) (hT' : T < 2 ^ 32) {l : Label} (h : Inv T s)
    (hs : Pool.step l s = some s') : Inv T s' := by
  have hn := h.nthread
  cases l with
  | scheduler => exact h.schedulerStep hT hT' hs
  | call x =>
    rw [Pool.step] at hs
    by_cases hp : s.pc = .idle
    · have hth := h.threads
      have hm := h.mutex
      have hl := h.levels
      rw [hp] at hth hm hl
      rw [if_pos hp] at hs
      cases hs
      exact h.goto (h.started (by rw [hp]; nofun)) nofun hm (fun t => by rw [hp]; rfl)
        (fun t w ht => (hth t w ht).goto rfl rfl (hth t w ht).rest (hth t w ht).drained nofun nofun)
        trivial hl
    · rw [if_neg hp] at hs
      cases hs
  | worker tid =>
    obtain ⟨w, hw, hs⟩ := Option.bind_eq_some_iff.mp hs
    obtain ⟨⟨w', e⟩, hw', hs⟩ := Option.bind_eq_some_iff.mp hs
    cases hs
    exact h.worker (by omega) hw (step_moves (h.threads tid w hw).ok hw')
  | spurious thread =>
    cases thread with
    | scheduler => exact h.wakeUp hs
    | worker tid =>
      obtain ⟨w, hw, hs⟩ := Option.bind_eq_some_iff.mp hs
      obtain ⟨w', hw', hs⟩ := Option.bind_eq_some_iff.mp hs
      cases hs
      exact h.moves_quiet hw (wakeUp_moves (h.threads tid w hw).ok hw') rfl nofun

theorem Inv.of_reachable {fanout : Nat} (hT : 1 ≤ T) (hT' : T < 2 ^ 32)
    (h : Reachable Pool.step (.new T fanout) s) : Inv T s :=
  h.invariant (inv_new T fanout) fun _ _ _ hi hs => hi.step hT hT' hs

/-! ## The barrier -/

/-- What holds when `run_level(level)` returns: each level up to this one has been done, nothing
    else has been, no task is left and no thread is pending. -/
structure Returned (s : Pool) (T level : Nat) : Prop where
  done : ∀ j ≤ level, ∃ nodes, s.lists.nodes[j]? = some nodes ∧
    LevelDone T nodes (s.levelLog j) ∧
    ∀ x, nodes.count x = 1 → ∃ t < T, ((s.levelLog j).filter fun e => e.task.node = x).map
      (fun e => (e.tid, e.task)) = [(t, .prep x), (t, .run x)]
  log : ∀ e ∈ s.log, e.level ≤ level
  workers : s.threads.length = T
  queues : ∀ w ∈ s.threads, w.taskQueue.tasks = []
  pending : s.pendingThreads = 0

theorem Inv.owing_zero (h : Inv T s) (hr : ∀ t, s.pc.atRest t = true) : s.owing = 0 := by
  refine Finset.card_eq_zero.mpr (Finset.filter_eq_empty_iff.mpr fun t _ howes => ?_)
  unfold Pool.owes at howes
  cases hw : s.threads[t]? with
  | none =>
    rw [hw] at howes
    cases howes
  | some w =>
    rw [hw] at howes
    dsimp only at howes
    rw [(h.threads t w hw).rest (hr t)] at howes
    cases howes

theorem Inv.returned (h : Inv T s) {level : Nat} (hp : s.pc = .returned level) :
    Returned s T level := by
  have hlen := h.started (by rw [hp]; nofun)
  have hrest : ∀ t, s.pc.atRest t = true := fun t => by rw [hp]; rfl
  have hdrained : ∀ t, s.pc.drained t = true := fun t => by rw [hp]; rfl
  obtain ⟨full, pend, hl⟩ := h.levels
  rw [hp] at hl
  have hfull : full.length = level + 1 := hl.current
  refine ⟨fun j hj => ?_, fun e he => ?_, hlen.trans h.nthread, fun w hw => ?_, ?_⟩
  · have hlt : j < full.length := by omega
    have hdone := hl.done j full[j] (List.getElem?_eq_getElem hlt) hlt
    rw [h.nthread] at hdone
    refine ⟨full[j], ?_, hdone, fun x hx => hdone.once hx⟩
    rw [hl.lists.nodes, List.getElem?_append_left hlt, List.getElem?_eq_getElem hlt]
  · have := hl.log e he
    simp only [SchedulerPc.stage, Stage.logged] at this
    omega
  · obtain ⟨t, ht⟩ := List.mem_iff_getElem?.mp hw
    have hat := h.threads t w ht
    exact hat.drained (hdrained t) (hat.rest (hrest t))
  · rw [h.count, h.owing_zero hrest, hlen, Nat.sub_self]

/-- The counter is positive where a worker is about to decrement it. -/
theorem Inv.pending_pos (h : Inv T s) (hT' : T < 2 ^ 32) {t : Nat} {w : WorkerThread}
    {caller : WaitCaller} (hw : s.threads[t]? = some w) (hp : w.pc = .wait .decPpt caller) :
    0 < s.pendingThreads := by
  have hstep : w.step t s.pendingThreads =
      some ({ w with pc := .wait .testPpt caller }, .decPpt) := by
    unfold WorkerThread.step
    rw [hp]
    rfl
  have hn := h.nthread
  exact (h.moves_dec (by omega) hw (step_moves (h.threads t w hw).ok hstep)).1

/-- The level barrier, for every number of workers, every sequence of calls of `schedule` and every
    interleaving, with spurious wake-ups. The number of pending threads is the number of workers
    that have been started or woken and have not decremented since; while the constructor starts
    the workers it also counts those that are still to be started. -/
theorem level_barrier {T fanout : Nat} (hT : 1 ≤ T) (hT' : T < 2 ^ 32) {s : Pool}
    (h : Reachable Pool.step (.new T fanout) s) :
    (∀ level, s.pc = .returned level → Returned s T level) ∧
    s.pendingThreads = s.owing + (T - s.threads.length) ∧
    (s.pc ≠ .create → s.pendingThreads = s.owing) ∧
    (∀ w ∈ s.threads, ∀ caller, w.pc = .wait .decPpt caller → 0 < s.pendingThreads) := by
  have hi := Inv.of_reachable hT hT' h
  have hcount := hi.count
  rw [hi.nthread] at hcount
  refine ⟨fun level hp => hi.returned hp, hcount, fun hp => ?_, fun w hw caller hp => ?_⟩
  · rw [hcount, hi.started hp, hi.nthread, Nat.sub_self, Nat.add_zero]
  · obtain ⟨t, ht⟩ := List.mem_iff_getElem?.mp hw
    exact hi.pending_pos hT' ht hp

/-- Two workers with a fanout of nine start and run the root; eight nodes of the next level follow,
    and each of these calls returns at once. -/
def eightPending : List Label :=
  bursts ([(3, .scheduler), (7, .worker 0), (8, .worker 1), (3, .scheduler), (1, .call 0),
    (19, .scheduler), (18, .worker 0), (13, .worker 1), (4, .scheduler)] ++
    (List.range 8).flatMap fun i => [(1, .call (i + 1)), (3, .scheduler)])

/-- A ninth node fills the level: one worker has eight nodes of it and the other one, and they take
    turns. -/
def runNine : List Label :=
  bursts [(33, .scheduler), (30, .worker 0), (16, .worker 1), (32, .worker 0), (4, .worker 1),
    (3, .scheduler)]

theorem level_barrier_two : ∃ s, Reachable Pool.step (.new 2 9) s ∧ s.pc = .returned 1 ∧
    Returned s 2 1 := by
  have hpc : (run Pool.step (eightPending ++ .call 9 :: runNine) (.new 2 9)).map Pool.pc =
      some (.returned 1) := by
    decide +kernel
  obtain ⟨s, hs, hp⟩ := Option.map_eq_some_iff.mp hpc
  have h : Reachable Pool.step (.new 2 9) s := ⟨_, hs⟩
  exact ⟨s, h, hp, (level_barrier (by decide) (by decide) h).1 1 hp⟩

end Monya.Structures
