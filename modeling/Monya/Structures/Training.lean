/-
  The nodes of a tree while the workers train them.

  `Training` is a pool together with the heap of nodes: a step in which a worker does `prep` or
  `run` of a node changes that node. A fault there is an exception that nothing catches, and ends
  the program. The node type is left open, as for `NodeView`: `act` says what a task does to a node.

  The sequential reading of a call of `schedule` is `Scheduler.schedule (trainNode act)`, which
  trains the nodes of a full level one after the other, in the order of the level.
  `schedule_refines` says that the threads do the same: for every number of workers and every
  interleaving, with spurious wake-ups, the call leaves the lists and the nodes as the sequential
  reading does, and no state on the way has a fault that it does not have.
-/
import Monya.Lib.Cells
import Monya.Structures.PoolMoves
import Monya.Structures.Completion

namespace Monya.Structures

open Monya.Lib

/-! ## The order of the tasks of a level -/

section Order

variable {nodes owner : List Nat} {es : List Entry}

theorem actionsAt_tasks (es : List Entry) (a : Nat) :
    actionsAt Task.node (es.map Entry.task) a =
      (es.filter fun e => e.task.node = a).map Entry.task := by
  rw [actionsAt, List.filter_map]
  rfl

/-- All tasks on a node are in the share of one worker. -/
theorem exists_worker (hnodes : nodes.Nodup) (hlen : owner.length = nodes.length)
    (hes : ∀ t, ∀ k ∈ tasksOf es t, k.node ∈ share nodes owner t) (a : Nat) :
    ∃ t, actionsAt Task.node (es.map Entry.task) a = actionsAt Task.node (tasksOf es t) a ∧
      actionsAt Task.node (trained nodes) a =
        actionsAt Task.node (trained (share nodes owner t)) a := by
  have hmem : ∀ e ∈ es, e.task.node ∈ share nodes owner e.tid := fun e he =>
    hes e.tid e.task (List.mem_map_of_mem (List.mem_filter.mpr ⟨he, by simp⟩))
  -- the worker of `a`, or any one if `a` is not a node of the level
  obtain ⟨t, ht⟩ : ∃ t, ∀ u, (share nodes owner u).filter (fun y => y = a) =
      if u = t then nodes.filter (fun y => y = a) else [] := by
    by_cases ha : a ∈ nodes
    · obtain ⟨t, -, ht⟩ := share_count_one hlen (List.count_eq_one_of_mem hnodes ha)
      refine ⟨t, fun u => ?_⟩
      rw [ht, List.filter_eq, List.count_eq_one_of_mem hnodes ha]
      rfl
    · refine ⟨0, fun u => ?_⟩
      have hnil : nodes.filter (fun y => y = a) = [] := by
        rw [List.filter_eq, List.count_eq_zero_of_not_mem ha]
        rfl
      rw [hnil, ite_self, List.filter_eq_nil_iff]
      intro y hy hya
      obtain ⟨q, hq, rfl⟩ := List.mem_map.mp hy
      have hya' : q.1 = a := by simpa using hya
      exact ha (hya' ▸ (List.of_mem_zip (List.mem_of_mem_filter hq)).1)
  refine ⟨t, ?_, ?_⟩
  · rw [actionsAt_tasks, tasksOf, actionsAt_tasks, List.filter_filter]
    congr 1
    refine List.filter_congr fun e he => ?_
    by_cases hea : e.task.node = a
    · have hin : a ∈ (share nodes owner e.tid).filter fun y => y = a :=
        List.mem_filter.mpr ⟨hea ▸ hmem e he, by simp⟩
      rw [ht] at hin
      by_cases het : e.tid = t
      · simp [hea, het]
      · rw [if_neg het] at hin
        cases hin
    · simp [hea]
  · rw [actionsAt, actionsAt, filter_trained, filter_trained, ht, if_pos rfl]

/-- What the workers did in a level that is done, by node. -/
theorem LevelDone.actionsAt {T : Nat} (h : LevelDone T nodes es) (hnodes : nodes.Nodup) (a : Nat) :
    actionsAt Task.node (es.map Entry.task) a = actionsAt Task.node (trained nodes) a := by
  obtain ⟨owner, hlen, -, htasks⟩ := h
  obtain ⟨t, hes, htr⟩ := exists_worker hnodes hlen
    (fun u k hk => node_mem_of_mem_trained (htasks u ▸ hk)) a
  rw [hes, htr, htasks]

/-- What the workers did in a level so far, by node. -/
theorem handed_actionsAt {s : Pool} {level : Nat} (h : s.Handed level nodes nodes.length)
    (hnodes : nodes.Nodup) (a : Nat) :
    actionsAt Task.node ((s.levelLog level).map Entry.task) a <+:
      actionsAt Task.node (trained nodes) a := by
  obtain ⟨owner, hlen, -, htasks⟩ := h
  have hmem : ∀ u, ∀ k ∈ tasksOf (s.levelLog level) u, k.node ∈ share nodes owner u := fun u k hk =>
    node_mem_of_mem_trained (htasks u ▸ List.mem_append_left _ hk)
  obtain ⟨t, hes, htr⟩ := exists_worker hnodes hlen hmem a
  rw [hes, htr, ← htasks t]
  exact List.IsPrefix.filter _ (List.prefix_append _ _)

end Order

/-! ## A call of `schedule` -/

def Label.isCall : Label → Bool
  | .call _ => true
  | _ => false

/-- `run_level` has been called and has not woken a worker. -/
def SchedulerPc.preparing : SchedulerPc → Bool
  | .scheduleUnlock true | .runLevel _ | .enqueue _ _ _ _ _ => true
  | _ => false

/-- The workers are being woken, or the call waits for them, or it has returned. -/
def SchedulerPc.handed : SchedulerPc → Bool
  | .wake _ _ _ | .wait4completion _ (.runLevel _) | .returned _ | .idle => true
  | _ => false

/-- The pool `s` is `p` in or after the call `schedule(x)`. -/
inductive InCall (p : Pool) (x : Nat) (s : Pool) : Prop
  | filling (hp : s.pc = .scheduleLock x ∨ s.pc = .schedulePush x) (hl : s.lists = p.lists)
      (hlog : s.log = p.log)
  | waiting (hx : p.lists.fills x = false) (hp : s.pc = .scheduleUnlock false ∨ s.pc = .idle)
      (hl : s.lists = p.lists.scheduled x) (hlog : s.log = p.log)
  | preparing (hx : p.lists.fills x = true) (hp : s.pc.preparing = true)
      (hl : s.lists = p.lists.scheduled x) (hlog : s.log = p.log)
  | handed (hx : p.lists.fills x = true) (hp : s.pc.handed = true)
      (hl : s.lists = p.lists.scheduled x) (es : List Entry) (hlog : s.log = p.log ++ es)
      (hes : ∀ e ∈ es, e.level = p.lists.currentLevel)

section Call

variable {T x : Nat} {p s s' : Pool}

theorem SchedulerPc.Next.preparing {pc pc' : SchedulerPc} (h : SchedulerPc.Next s pc pc')
    (hp : pc.preparing = true) : pc'.preparing = true := by
  cases h <;> first | rfl | cases hp

theorem SchedulerPc.Next.handed {pc pc' : SchedulerPc} (h : SchedulerPc.Next s pc pc')
    (hp : pc.handed = true) : pc'.handed = true := by
  cases h with
  | lock c | pending c | complete c | sleep c | reacquire c => cases c <;> first | rfl | cases hp
  | _ => first | rfl | cases hp

theorem InCall.of_preparing (h : InCall p x s) (hp : s.pc.preparing = true) :
    p.lists.fills x = true ∧ s.lists = p.lists.scheduled x ∧ s.log = p.log := by
  cases h with
  | filling hpc _ _ => rcases hpc with hpc | hpc <;> rw [hpc] at hp <;> cases hp
  | waiting _ hpc _ _ => rcases hpc with hpc | hpc <;> rw [hpc] at hp <;> cases hp
  | preparing hx _ hl hlog => exact ⟨hx, hl, hlog⟩
  | handed _ hpc _ _ _ _ =>
    revert hp hpc
    cases s.pc with
    | scheduleUnlock full => nofun
    | wait4completion q c => nofun
    | _ => nofun

theorem InCall.of_wake (h : InCall p x s) {q : WakePc} {tid level : Nat}
    (hp : s.pc = .wake q tid level) :
    p.lists.fills x = true ∧ s.lists = p.lists.scheduled x ∧
      ∃ es, s.log = p.log ++ es ∧ ∀ e ∈ es, e.level = p.lists.currentLevel := by
  cases h with
  | filling hpc _ _ => rcases hpc with hpc | hpc <;> rw [hpc] at hp <;> cases hp
  | waiting _ hpc _ _ => rcases hpc with hpc | hpc <;> rw [hpc] at hp <;> cases hp
  | preparing _ hpc _ _ =>
    rw [hp] at hpc
    cases hpc
  | handed hx _ hl es hlog hes => exact ⟨hx, hl, es, hlog, hes⟩

theorem InCall.of_push (h : InCall p x s) {y : Nat} (hp : s.pc = .schedulePush y) :
    y = x ∧ s.lists = p.lists ∧ s.log = p.log := by
  cases h with
  | filling hpc hl hlog =>
    rcases hpc with hpc | hpc <;> rw [hpc] at hp <;> cases hp
    exact ⟨rfl, hl, hlog⟩
  | waiting _ hpc _ _ => rcases hpc with hpc | hpc <;> rw [hpc] at hp <;> cases hp
  | preparing _ hpc _ _ =>
    rw [hp] at hpc
    cases hpc
  | handed _ hpc _ _ _ _ =>
    rw [hp] at hpc
    cases hpc

/-- A step of the scheduling thread. -/
theorem InCall.move (h : InCall p x s) (hm : SchedulerMove s s') : InCall p x s' := by
  cases hm with
  | goto m hpc hn =>
    cases h with
    | filling hp hl hlog =>
      rcases hp with hp | hp
      · cases hpc.symm.trans hp
        cases hn
        exact .filling (.inr rfl) hl hlog
      · cases hpc.symm.trans hp
        cases hn
    | waiting hx hp hl hlog =>
      rcases hp with hp | hp
      · cases hpc.symm.trans hp
        cases hn
        exact .waiting hx (.inr rfl) hl hlog
      · cases hpc.symm.trans hp
        cases hn
    | preparing hx hp hl hlog => exact .preparing hx (hn.preparing (hpc ▸ hp)) hl hlog
    | handed hx hp hl es hlog hes => exact .handed hx (hn.handed (hpc ▸ hp)) hl es hlog hes
  | create hpc _ =>
    cases h with
    | filling hp _ _ => rcases hp with hp | hp <;> cases hpc.symm.trans hp
    | waiting _ hp _ _ => rcases hp with hp | hp <;> cases hpc.symm.trans hp
    | preparing _ hp _ _ => rw [hpc] at hp; cases hp
    | handed _ hp _ _ _ _ => rw [hpc] at hp; cases hp
  | push hpc =>
    obtain ⟨rfl, hl, hlog⟩ := h.of_push hpc
    rw [hl]
    cases hx : p.lists.fills _ with
    | false => exact .waiting hx (.inl rfl) rfl hlog
    | true => exact .preparing hx rfl rfl hlog
  | queueLock m _ hpc _ =>
    obtain ⟨hx, hl, hlog⟩ := h.of_preparing (by rw [hpc]; rfl)
    exact .preparing hx rfl hl hlog
  | queuePush hpc _ _ _ =>
    obtain ⟨hx, hl, hlog⟩ := h.of_preparing (by rw [hpc]; rfl)
    exact .preparing hx rfl hl hlog
  | queueNext m _ hpc _ _ =>
    obtain ⟨hx, hl, hlog⟩ := h.of_preparing (by rw [hpc]; rfl)
    exact .preparing hx rfl hl hlog
  | queueLast m _ hpc _ _ =>
    obtain ⟨hx, hl, hlog⟩ := h.of_preparing (by rw [hpc]; rfl)
    exact .handed hx rfl hl [] (by rw [List.append_nil]; exact hlog) nofun
  | stateLock m _ hpc _ =>
    obtain ⟨hx, hl, es, hlog, hes⟩ := h.of_wake hpc
    exact .handed hx rfl hl es hlog hes
  | setState hpc _ =>
    obtain ⟨hx, hl, es, hlog, hes⟩ := h.of_wake hpc
    exact .handed hx rfl hl es hlog hes
  | incPpt hpc _ =>
    obtain ⟨hx, hl, es, hlog, hes⟩ := h.of_wake hpc
    exact .handed hx rfl hl es hlog hes
  | stateUnlock m _ hpc _ =>
    obtain ⟨hx, hl, es, hlog, hes⟩ := h.of_wake hpc
    exact .handed hx rfl hl es hlog hes
  | signal hpc _ =>
    obtain ⟨hx, hl, es, hlog, hes⟩ := h.of_wake hpc
    exact .handed hx rfl hl es hlog hes

theorem InCall.congr (h : InCall p x s) (hp : s'.pc = s.pc) (hl : s'.lists = s.lists)
    (hlog : s'.log = s.log) : InCall p x s' := by
  cases h with
  | filling hpc hl' hlog' => exact .filling (hp ▸ hpc) (hl.trans hl') (hlog.trans hlog')
  | waiting hx hpc hl' hlog' => exact .waiting hx (hp ▸ hpc) (hl.trans hl') (hlog.trans hlog')
  | preparing hx hpc hl' hlog' => exact .preparing hx (hp ▸ hpc) (hl.trans hl') (hlog.trans hlog')
  | handed hx hpc hl' es hlog' hes =>
    exact .handed hx (hp ▸ hpc) (hl.trans hl') es (hlog.trans hlog') hes

/-- While a level is being run. -/
theorem InCall.of_running (h : InCall p x s) {level : Nat} (hr : s.pc.stage = .running level) :
    p.lists.fills x = true ∧ s.pc.handed = true ∧ s.lists = p.lists.scheduled x ∧
      ∃ es, s.log = p.log ++ es ∧ ∀ e ∈ es, e.level = p.lists.currentLevel := by
  cases h with
  | filling hpc _ _ => rcases hpc with hpc | hpc <;> rw [hpc] at hr <;> cases hr
  | waiting _ hpc _ _ => rcases hpc with hpc | hpc <;> rw [hpc] at hr <;> cases hr
  | preparing _ hpc _ _ =>
    revert hr hpc
    cases s.pc with
    | enqueue q level nodes k tid => cases q <;> nofun
    | scheduleUnlock full => cases full <;> nofun
    | _ => nofun
  | handed hx hpc hl es hlog hes => exact ⟨hx, hpc, hl, es, hlog, hes⟩

theorem InCall.wakeUp (h : InCall p x s) (hs : s.wakeUp = some s') : InCall p x s' := by
  obtain ⟨c, hpc, rfl⟩ := Pool.wakeUp_eq hs
  cases c with
  | ctor =>
    cases h with
    | filling hp _ _ => rcases hp with hp | hp <;> cases hpc.symm.trans hp
    | waiting _ hp _ _ => rcases hp with hp | hp <;> cases hpc.symm.trans hp
    | preparing _ hp _ _ => rw [hpc] at hp; cases hp
    | handed _ hp _ _ _ _ => rw [hpc] at hp; cases hp
  | runLevel level =>
    have hr : s.pc.stage = .running level := by rw [hpc]; rfl
    obtain ⟨hx, -, hl, es, hlog, hes⟩ := h.of_running hr
    exact .handed hx rfl hl es hlog hes

/-- A worker at rest does nothing to a node. -/
theorem Moves.busy_of_task {t : Nat} {w w' : WorkerThread} {k : Task}
    (hm : Moves t w w' (.task k)) : w.resting = false := by
  by_contra hr
  have hnil := (hm.rest (by simpa using hr)).2.2.1
  cases hnil

/-- A step of a worker. What it does to a node it does to a node of the level that was filled. -/
theorem InCall.worker (h : InCall p x s) (hi : Inv T s) {t : Nat} {w w' : WorkerThread} {e : Effect}
    (hw : s.threads[t]? = some w) (hm : Moves t w w' e) :
    InCall p x (Pool.apply { s with threads := s.threads.set t w' } t e) := by
  have h₁ : InCall p x { s with threads := s.threads.set t w' } := h.congr rfl rfl rfl
  cases e with
  | silent => exact h₁
  | decPpt => exact h₁.congr rfl rfl rfl
  | signalParent =>
    unfold Pool.apply
    cases hu : Pool.wakeUp { s with threads := s.threads.set t w' } with
    | none => exact h₁
    | some s' => exact h₁.wakeUp hu
  | task k =>
    obtain ⟨level, hstage⟩ := hi.running_of_work hw (hm.work nofun) hm.busy_of_task
    obtain ⟨hx, hpc, hl, es, hlog, hes⟩ := h.of_running hstage
    refine .handed hx hpc hl (es ++ [⟨s.lists.currentLevel - 1, t, k⟩]) ?_ fun e he => ?_
    · show s.log ++ _ = _
      rw [hlog, List.append_assoc]
    · rcases List.mem_append.mp he with he | he
      · exact hes e he
      · rw [List.mem_singleton.mp he]
        show s.lists.currentLevel - 1 = _
        rw [hl, Scheduler.scheduled, if_pos hx, Scheduler.push_currentLevel]
        rfl

theorem InCall.step (h : InCall p x s) (hi : Inv T s) (hT : 1 ≤ T) (hT' : T < 2 ^ 32) {l : Label}
    (hl : l.isCall = false) (hs : Pool.step l s = some s') : InCall p x s' := by
  cases l with
  | scheduler => exact h.move (hi.schedulerMove hT hT' hs)
  | call y => cases hl
  | worker tid =>
    obtain ⟨w, hw, hs⟩ := Option.bind_eq_some_iff.mp hs
    obtain ⟨⟨w', e⟩, hw', hs⟩ := Option.bind_eq_some_iff.mp hs
    cases hs
    exact h.worker hi hw (step_moves (hi.threads tid w hw).ok hw')
  | spurious thread =>
    cases thread with
    | scheduler => exact h.wakeUp hs
    | worker tid =>
      obtain ⟨w, hw, hs⟩ := Option.bind_eq_some_iff.mp hs
      obtain ⟨w', hw', hs⟩ := Option.bind_eq_some_iff.mp hs
      cases hs
      exact h.congr rfl rfl rfl

theorem Pool.wakeUp_log (hs : s.wakeUp = some s') : s'.log = s.log := by
  obtain ⟨c, -, rfl⟩ := Pool.wakeUp_eq hs
  rfl

/-- Only a `prep` or a `run` is logged. -/
theorem Pool.apply_log (s : Pool) (t : Nat) (e : Effect) :
    (s.apply t e).log = s.log ++ e.tasks.map fun k => ⟨s.lists.currentLevel - 1, t, k⟩ := by
  cases e with
  | silent => rw [Pool.apply, show Effect.silent.tasks = [] from rfl, List.map_nil, List.append_nil]
  | decPpt => rw [Pool.apply, show Effect.decPpt.tasks = [] from rfl, List.map_nil, List.append_nil]
  | signalParent =>
    rw [Pool.apply, show Effect.signalParent.tasks = [] from rfl, List.map_nil, List.append_nil]
    cases hu : s.wakeUp with
    | none => rfl
    | some s' => exact Pool.wakeUp_log hu
  | task k => rw [Pool.apply, Effect.tasks, List.map_singleton]

theorem SchedulerMove.log_eq (hm : SchedulerMove s s') : s'.log = s.log := by
  cases hm <;> rfl

theorem Inv.step_log (hi : Inv T s) (hT : 1 ≤ T) (hT' : T < 2 ^ 32) {l : Label}
    (hs : Pool.step l s = some s') : s.log <+: s'.log := by
  cases l with
  | scheduler => rw [(hi.schedulerMove hT hT' hs).log_eq]
  | call y =>
    rw [Pool.step] at hs
    split at hs
    · cases hs
      exact List.prefix_rfl
    · cases hs
  | worker tid =>
    obtain ⟨w, hw, hs⟩ := Option.bind_eq_some_iff.mp hs
    obtain ⟨⟨w', e⟩, hw', hs⟩ := Option.bind_eq_some_iff.mp hs
    cases hs
    rw [Pool.apply_log]
    exact List.prefix_append _ _
  | spurious thread =>
    cases thread with
    | scheduler => rw [Pool.wakeUp_log hs]
    | worker tid =>
      obtain ⟨w, hw, hs⟩ := Option.bind_eq_some_iff.mp hs
      obtain ⟨w', hw', hs⟩ := Option.bind_eq_some_iff.mp hs
      cases hs
      exact List.prefix_rfl

/-- No call of `schedule` is under way. -/
def SchedulerPc.quiet (pc : SchedulerPc) : Prop := pc.inCtor = true ∨ pc = .idle

theorem SchedulerPc.quiet.stage {pc : SchedulerPc} (h : pc.quiet) : pc.stage = .between := by
  rcases h with h | rfl
  · unfold SchedulerPc.inCtor at h
    split at h
    · rfl
    · rfl
    · cases h
  · rfl

theorem SchedulerPc.quiet.next {pc pc' : SchedulerPc} (h : pc.quiet)
    (hn : SchedulerPc.Next s pc pc') : pc'.quiet := by
  cases hn with
  | started _ => exact .inl rfl
  | lock c | pending c | complete c | sleep c | reacquire c =>
    cases c with
    | ctor => exact .inl rfl
    | runLevel level => rcases h with h | h <;> cases h
  | initialised => exact .inr rfl
  | unlockPending => exact .inr rfl
  | back level => exact .inr rfl
  | _ => rcases h with h | h <;> cases h

theorem SchedulerMove.quiet (hm : SchedulerMove s s') (hq : s.pc.quiet) :
    s'.pc.quiet ∧ s'.lists = s.lists := by
  have hno : ∀ {pc : SchedulerPc} {P : Prop}, s.pc = pc → pc.inCtor = false → pc ≠ .idle → P := by
    intro pc P hp hc hne
    rcases hq with hq | hq
    · rw [hp, hc] at hq
      cases hq
    · exact absurd (hp.symm.trans hq) hne
  cases hm with
  | goto m hpc hn => exact ⟨(hpc ▸ hq).next hn, rfl⟩
  | create hpc _ => exact ⟨hq, rfl⟩
  | push hpc => exact hno hpc rfl nofun
  | queueLock m _ hpc _ => exact hno hpc rfl nofun
  | queuePush hpc _ _ _ => exact hno hpc rfl nofun
  | queueNext m _ hpc _ _ => exact hno hpc rfl nofun
  | queueLast m _ hpc _ _ => exact hno hpc rfl nofun
  | stateLock m _ hpc _ => exact hno hpc rfl nofun
  | setState hpc _ => exact hno hpc rfl nofun
  | incPpt hpc _ => exact hno hpc rfl nofun
  | stateUnlock m _ hpc _ => exact hno hpc rfl nofun
  | signal hpc _ => exact hno hpc rfl nofun

/-- While no call is under way, no node is trained and the lists stay. -/
theorem Inv.step_quiet (hi : Inv T s) (hT : 1 ≤ T) (hT' : T < 2 ^ 32) (hq : s.pc.quiet) {l : Label}
    (hl : l.isCall = false) (hs : Pool.step l s = some s') :
    s'.pc.quiet ∧ s'.lists = s.lists ∧ s'.log = s.log := by
  have hwake : ∀ {s s' : Pool}, s.pc.quiet → s.wakeUp = some s' →
      s'.pc.quiet ∧ s'.lists = s.lists ∧ s'.log = s.log := by
    intro s s' hq hs
    obtain ⟨c, hpc, rfl⟩ := Pool.wakeUp_eq hs
    rw [hpc] at hq
    cases c with
    | ctor => exact ⟨.inl rfl, rfl, rfl⟩
    | runLevel level => rcases hq with hq | hq <;> cases hq
  cases l with
  | scheduler =>
    have hm := hi.schedulerMove hT hT' hs
    exact ⟨(hm.quiet hq).1, (hm.quiet hq).2, hm.log_eq⟩
  | call y => cases hl
  | worker tid =>
    obtain ⟨w, hw, hs⟩ := Option.bind_eq_some_iff.mp hs
    obtain ⟨⟨w', e⟩, hw', hs⟩ := Option.bind_eq_some_iff.mp hs
    cases hs
    have hm := step_moves (hi.threads tid w hw).ok hw'
    cases e with
    | silent => exact ⟨hq, rfl, rfl⟩
    | decPpt =>
      rw [Pool.apply]
      exact ⟨hq, rfl, rfl⟩
    | signalParent =>
      rw [Pool.apply]
      cases hu : Pool.wakeUp { s with threads := s.threads.set tid w' } with
      | none => exact ⟨hq, rfl, rfl⟩
      | some s' => exact hwake (s := { s with threads := s.threads.set tid w' }) hq hu
    | task k =>
      obtain ⟨level, hstage⟩ := hi.running_of_work hw (hm.work fun he => by cases he)
        hm.busy_of_task
      rw [hq.stage] at hstage
      cases hstage
  | spurious thread =>
    cases thread with
    | scheduler => exact hwake hq hs
    | worker tid =>
      obtain ⟨w, hw, hs⟩ := Option.bind_eq_some_iff.mp hs
      obtain ⟨w', hw', hs⟩ := Option.bind_eq_some_iff.mp hs
      cases hs
      exact ⟨hq, rfl, rfl⟩

/-- The log of the level that the call has filled. -/
theorem levelLog_since (hp : Inv T p) (hidle : p.pc = .idle) {es : List Entry}
    (hlog : s.log = p.log ++ es) (hes : ∀ e ∈ es, e.level = p.lists.currentLevel) :
    s.levelLog p.lists.currentLevel = es := by
  obtain ⟨full, pend, hl⟩ := hp.levels
  rw [hidle] at hl
  have hold : p.levelLog p.lists.currentLevel = [] := levelLog_nil fun e he => by
    rw [hl.lists.level]
    exact hl.log e he
  rw [Pool.levelLog] at hold ⊢
  rw [hlog, List.filter_append, hold, List.nil_append, List.filter_eq_self]
  intro e he
  simpa using hes e he

/-- What the workers have done since the call, by node: the first tasks of the level that the call
    has filled, and all of them once it has returned. -/
theorem InCall.tasks (hi : Inv T s) (hp : Inv T p) (hidle : p.pc = .idle)
    {full : List (List Nat)} {pend : List Nat} (hat : p.lists.At full pend)
    (hnodup : (pend ++ [x]).Nodup) (hx : p.lists.fills x = true) (hpc : s.pc.handed = true)
    (hl : s.lists = p.lists.scheduled x) {es : List Entry} (hlog : s.log = p.log ++ es)
    (hes : ∀ e ∈ es, e.level = p.lists.currentLevel) :
    (∀ a, actionsAt Task.node (es.map Entry.task) a <+:
      actionsAt Task.node (trained (pend ++ [x])) a) ∧
    (s.pc = .idle → ∀ a, actionsAt Task.node (es.map Entry.task) a =
      actionsAt Task.node (trained (pend ++ [x])) a) := by
  have hes' := levelLog_since hp hidle hlog hes
  rw [hat.level] at hes'
  obtain ⟨full', pend', hlv⟩ := hi.levels
  have hat' := hat.scheduled_full hx
  rw [← hl] at hat'
  obtain ⟨rfl, rfl⟩ := hat'.unique hlv.lists
  have hget : (full ++ [pend ++ [x]])[full.length]? = some (pend ++ [x]) := by simp
  have hdone : full.length < s.pc.stage.settled (full ++ [pend ++ [x]]).length →
      ∀ a, actionsAt Task.node (es.map Entry.task) a =
        actionsAt Task.node (trained (pend ++ [x])) a := fun hlt a => by
    have hd := hlv.done full.length (pend ++ [x]) hget hlt
    rw [hes'] at hd
    exact hd.actionsAt hnodup a
  have hrun : ∀ level, s.pc.stage = .running level →
      ∀ a, actionsAt Task.node (es.map Entry.task) a <+:
        actionsAt Task.node (trained (pend ++ [x])) a := fun level hstage a => by
    have hcur := hlv.current
    rw [hstage] at hcur
    obtain ⟨hlen, nodes, hnodes, hh⟩ := hcur
    obtain rfl : level = full.length := by simpa using hlen.symm
    cases hget.symm.trans hnodes
    rw [← hes']
    exact handed_actionsAt hh hnodup a
  cases hs : s.pc with
  | wake q tid level => exact ⟨hrun level (by rw [hs]; rfl), nofun⟩
  | wait4completion q c =>
    cases c with
    | ctor =>
      rw [hs] at hpc
      cases hpc
    | runLevel level => exact ⟨hrun level (by rw [hs]; rfl), nofun⟩
  | returned level =>
    have heq := hdone (by rw [hs]; simp)
    exact ⟨fun a => by rw [heq a], nofun⟩
  | idle =>
    have heq := hdone (by rw [hs]; simp)
    exact ⟨fun a => by rw [heq a], fun _ => heq⟩
  | _ =>
    rw [hs] at hpc
    cases hpc

end Call

/-! ## The nodes -/

/-- A pool at work on the nodes in `heap`; a fault has ended the program. -/
structure Training (V : Type) where
  pool : Pool
  heap : Except Fault (Heap V)

section Nodes

variable {V : Type} (act : Task → V → Except Fault V)

/-- What a worker does with a node it has dequeued: `prep`, then `run`. -/
def trainNode (x : Nat) (h : Heap V) : Except Fault (Heap V) := do
  let v ← act (.prep x) (← h.read x)
  let v ← act (.run x) v
  h.modify x fun _ => v

/-- The tasks of `es`, in their order. -/
def doTasks (es : List Entry) (h : Heap V) : Except Fault (Heap V) :=
  play Task.node act (es.map Entry.task) h

/-- A step of the pool, with what it does to the nodes. -/
def Training.step (l : Label) (m : Training V) : Option (Training V) :=
  match m.heap with
  | .error _ => none
  | .ok h => (Pool.step l m.pool).map fun p => ⟨p, doTasks act (p.log.drop m.pool.log.length) h⟩

variable {act} {x : Nat} {h h' : Heap V}

theorem play_pair (x : Nat) (h : Heap V) :
    play Task.node act [.prep x, .run x] h = trainNode act x h := by
  have hone : ∀ i, play Task.node act [i] = fun h => playOne Task.node act h i := fun i =>
    funext fun h => bind_pure _
  rw [play_cons, hone]
  unfold playOne trainNode
  cases hc : h.cell x with
  | none =>
    have hr : h.read x = .error .dangling := by simp only [Heap.read, hc]
    simp only [Task.node, hr, error_bind]
  | some v =>
    simp only [Task.node, Heap.read_ok hc, ok_bind, Heap.modify_ok hc]
    cases act (.prep x) v with
    | error e => rfl
    | ok v₁ =>
      have hc₁ : (h.update x fun _ => v₁).cell x = some v₁ := by
        rw [Heap.update_cell_self, hc]
        rfl
      simp only [ok_bind, Heap.read_ok hc₁, Heap.modify_ok hc₁]
      cases act (.run x) v₁ with
      | error e => rfl
      | ok v₂ =>
        refine congrArg Except.ok (Heap.ext_cell rfl fun a => ?_)
        by_cases ha : a = x
        · subst ha
          simp only [Heap.update_cell_self, hc, Option.map_some]
        · simp only [Heap.update_cell_ne _ _ ha]

/-- Training the nodes of a level one after the other. -/
theorem play_trained (xs : List Nat) (h : Heap V) :
    play Task.node act (trained xs) h = xs.foldlM (fun h x => trainNode act x h) h := by
  induction xs generalizing h with
  | nil => rfl
  | cons x xs ih =>
    have hcons : trained (x :: xs) = [.prep x, .run x] ++ trained xs := rfl
    rw [hcons, play_append, play_pair, List.foldlM_cons]
    exact congrArg _ (funext ih)

theorem Training.step_cases {l : Label} {m m' : Training V} (hs : Training.step act l m = some m') :
    ∃ h p, m.heap = .ok h ∧ Pool.step l m.pool = some p ∧
      m' = ⟨p, doTasks act (p.log.drop m.pool.log.length) h⟩ := by
  unfold Training.step at hs
  split at hs
  · cases hs
  · next h hh =>
    obtain ⟨p, hp, rfl⟩ := Option.map_eq_some_iff.mp hs
    exact ⟨h, p, hh, hp, rfl⟩

/-- The state `m` since the call `schedule(x)` at the pool `p` and the nodes `h`. -/
structure SinceCall (act : Task → V → Except Fault V) (T : Nat) (p : Pool) (x : Nat) (h : Heap V)
    (m : Training V) : Prop where
  inv : Inv T m.pool
  call : InCall p x m.pool
  heap : ∃ es, m.pool.log = p.log ++ es ∧ m.heap = doTasks act es h

variable {T : Nat} {p : Pool}

theorem SinceCall.step {m m' : Training V} (hc : SinceCall act T p x h m) (hT : 1 ≤ T)
    (hT' : T < 2 ^ 32) {l : Label} (hl : l.isCall = false) (hs : Training.step act l m = some m') :
    SinceCall act T p x h m' := by
  obtain ⟨h₁, q, hh, hq, rfl⟩ := Training.step_cases hs
  obtain ⟨es, hlog, hheap⟩ := hc.heap
  obtain ⟨new, hnew⟩ := hc.inv.step_log hT hT' hq
  refine ⟨hc.inv.step hT hT' hq, hc.call.step hc.inv hT hT' hl hq, es ++ new, ?_, ?_⟩
  · rw [← List.append_assoc, ← hlog, hnew]
  · have hdrop : q.log.drop m.pool.log.length = new := by rw [← hnew, List.drop_left]
    show doTasks act (q.log.drop m.pool.log.length) h₁ = _
    rw [hdrop, doTasks, doTasks, List.map_append, play_append]
    have hes : play Task.node act (es.map Entry.task) h = .ok h₁ := hheap.symm.trans hh
    rw [hes, ok_bind]

theorem SinceCall.of_run (hi : Inv T p) (hT : 1 ≤ T) (hT' : T < 2 ^ 32) {ls : List Label}
    (hls : ∀ l ∈ ls, l.isCall = false) {m : Training V}
    (hrun : run (Training.step act) (.call x :: ls) ⟨p, .ok h⟩ = some m) :
    p.pc = .idle ∧ SinceCall act T p x h m := by
  obtain ⟨m₁, h₁, hrun⟩ := Option.bind_eq_some_iff.mp hrun
  obtain ⟨h₂, q, hh, hq, rfl⟩ := Training.step_cases h₁
  cases hh
  have hinv := hi.step hT hT' hq
  rw [Pool.step] at hq
  split at hq
  · next hpc =>
    cases hq
    refine ⟨hpc, run_invariant hrun ?_ fun l hl m m' hm hs => hm.step hT hT' (hls l hl) hs⟩
    refine ⟨hinv, .filling (.inl rfl) rfl rfl, [], (List.append_nil _).symm, ?_⟩
    show doTasks act (p.log.drop p.log.length) h = _
    rw [List.drop_length]
  · cases hq

/-- The threads and the sequential reading of the call. -/
theorem SinceCall.refines {m : Training V} (hc : SinceCall act T p x h m) (hp : Inv T p)
    (hidle : p.pc = .idle) (hnodup : ∀ level ∈ (p.lists.push x).nodes, level.Nodup) :
    (∀ r, Scheduler.schedule (trainNode act) x (p.lists, h) = .ok r → ∃ h', m.heap = .ok h') ∧
    (m.pool.pc = .idle → ∀ h', m.heap = .ok h' ↔
      Scheduler.schedule (trainNode act) x (p.lists, h) = .ok (m.pool.lists, h')) := by
  obtain ⟨full, pend, hl⟩ := hp.levels
  have hat := hl.lists
  have hpend : (pend ++ [x]).Nodup := hnodup _ (by rw [(hat.push x).nodes]; simp)
  obtain ⟨es, hlog, hheap⟩ := hc.heap
  -- as long as no worker has been woken, nothing has been done
  have hnone : m.pool.log = p.log → m.heap = .ok h := fun hsame => by
    obtain rfl : es = [] := List.append_right_eq_self.mp (hlog.symm.trans hsame)
    exact hheap
  rw [hat.schedule_eq]
  cases hc.call with
  | filling hpc _ hsame =>
    refine ⟨fun _ _ => ⟨h, hnone hsame⟩, fun hid => ?_⟩
    rcases hpc with hpc | hpc <;> cases hpc.symm.trans hid
  | waiting hx _ hlists hsame =>
    refine ⟨fun _ _ => ⟨h, hnone hsame⟩, fun _ h' => ?_⟩
    rw [hnone hsame, hlists, hx, if_neg Bool.false_ne_true]
    simp
  | preparing hx hpc _ hsame =>
    refine ⟨fun _ _ => ⟨h, hnone hsame⟩, fun hid => ?_⟩
    rw [hid] at hpc
    cases hpc
  | handed hx hpc hlists es' hlog' hes =>
    obtain rfl : es' = es := List.append_cancel_left (hlog'.symm.trans hlog)
    obtain ⟨hpre, hall⟩ := InCall.tasks hc.inv hp hidle hat hpend hx hpc hlists hlog hes
    rw [if_pos hx, ← play_trained, hheap]
    refine ⟨fun r hr => ?_, fun hid h' => ?_⟩
    · obtain ⟨h₁, h₁', -⟩ := bind_ok hr
      exact play_of_isPrefix hpre h₁'
    · rw [doTasks, play_congr (hall hid), hlists]
      constructor
      · intro hplay
        rw [hplay]
        rfl
      · intro hr
        obtain ⟨h₁, h₁', hr⟩ := bind_ok hr
        cases hr
        exact h₁'

/-- For every number of workers and every interleaving, a call of `schedule` leaves the lists and
    the nodes as its sequential reading does, and faults only where that one does. -/
theorem schedule_refines {fanout : Nat} (hT : 1 ≤ T) (hT' : T < 2 ^ 32)
    (hp : Reachable Pool.step (.new T fanout) p)
    (hnodup : ∀ level ∈ (p.lists.push x).nodes, level.Nodup) {ls : List Label}
    (hls : ∀ l ∈ ls, l.isCall = false) {m : Training V}
    (hrun : run (Training.step act) (.call x :: ls) ⟨p, .ok h⟩ = some m) :
    (∀ r, Scheduler.schedule (trainNode act) x (p.lists, h) = .ok r → ∃ h', m.heap = .ok h') ∧
    (m.pool.pc = .idle → ∀ h', m.heap = .ok h' ↔
      Scheduler.schedule (trainNode act) x (p.lists, h) = .ok (m.pool.lists, h')) := by
  have hi := Inv.of_reachable hT hT' hp
  obtain ⟨hidle, hc⟩ := SinceCall.of_run hi hT hT' hls hrun
  exact hc.refines hi hidle hnodup

end Nodes

/-- A node that keeps what has been done to it. -/
def recordTask (t : Task) (done : List Task) : Except Fault (List Task) := .ok (done ++ [t])

/-- The nodes of the root and of nine children, before anything is done to them. -/
def tenNodes : Heap (List Task) := (List.range 10).foldl (fun h _ => h.alloc []) .empty

/-- The call that completes the second level, in which both workers train nodes. -/
theorem schedule_refines_two : ∃ p m h', Reachable Pool.step (.new 2 9) p ∧
    run (Training.step recordTask) (.call 9 :: (runNine ++ [.scheduler])) ⟨p, .ok tenNodes⟩ =
      some m ∧
    m.pool.pc = .idle ∧ m.heap = .ok h' ∧
    Scheduler.schedule (trainNode recordTask) 9 (p.lists, tenNodes) = .ok (m.pool.lists, h') := by
  obtain ⟨p, hp⟩ : ∃ p, run Pool.step eightPending (.new 2 9) = some p :=
    Option.isSome_iff_exists.mp (by decide +kernel)
  have hlists : (run Pool.step eightPending (.new 2 9)).map Pool.lists =
      some ⟨9, 1, [[0], [1, 2, 3, 4, 5, 6, 7, 8]]⟩ := by
    decide +kernel
  have hpc : ((run Pool.step eightPending (.new 2 9)).bind fun p =>
      (run (Training.step recordTask) (.call 9 :: (runNine ++ [.scheduler]))
        ⟨p, .ok tenNodes⟩).map fun m => m.pool.pc) = some .idle := by
    decide +kernel
  rw [hp] at hlists hpc
  have hl : p.lists = ⟨9, 1, [[0], [1, 2, 3, 4, 5, 6, 7, 8]]⟩ := Option.some.inj hlists
  obtain ⟨m, hm, hidle⟩ := Option.map_eq_some_iff.mp hpc
  have hr := schedule_refines (by decide) (by decide) ⟨eightPending, hp⟩ (by rw [hl]; decide)
    (by decide) hm
  obtain ⟨r, hseq⟩ : ∃ r, Scheduler.schedule (trainNode recordTask) 9 (p.lists, tenNodes) =
      .ok r := by
    rw [hl]
    exact ⟨_, rfl⟩
  obtain ⟨h', hh⟩ := hr.1 r hseq
  exact ⟨p, m, h', ⟨eightPending, hp⟩, hm, hidle, hh, (hr.2 hidle h').mp hh⟩

end Monya.Structures
