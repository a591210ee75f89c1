/-
  The completion signal of the workers, and how it can be lost.

  The last worker to finish decrements `pending_threads`, tests it for zero and signals the
  scheduler's condition variable, none of it under the scheduler's mutex. A signal between the
  scheduling thread's test and its sleep wakes nobody: `lost_signal_one` is such a run, and from
  there only a spurious wake-up helps (`Stuck.step`).

  `no_lost_signal` says that this is the only way: the scheduling thread is never left asleep in a
  run without such a signal (`losesSignal`), and each such signal leaves it so, by its next step.
-/
import Monya.Structures.Barrier

namespace Monya.Structures

open Monya.Lib

/-- The worker is between its decrement and its signal. -/
def WorkerThread.signalling (w : WorkerThread) : Bool :=
  match w.pc with
  | .wait .testPpt _ | .wait .signal _ => true
  | _ => false

/-- The scheduling thread has found a thread pending, and sleeps or is about to. -/
def SchedulerPc.sleepy : SchedulerPc → Bool
  | .wait4completion .enter _ | .wait4completion .asleep _ => true
  | _ => false

/-- The scheduling thread is asleep after the last worker has finished. -/
def Stuck (s : Pool) : Prop :=
  (∃ caller, s.pc = .wait4completion .asleep caller) ∧ s.pendingThreads = 0 ∧
    ∀ w ∈ s.threads, w.signalling = false

/-- The next step is the last signal of the workers, and the scheduling thread has tested for
    completion and does not sleep yet. -/
def LosesSignal (l : Label) (s : Pool) : Prop :=
  ∃ (tid : Nat) (w : WorkerThread) (caller : WaitCaller) (c : CompletionCaller),
    l = .worker tid ∧ s.threads[tid]? = some w ∧ w.pc = .wait .signal caller ∧
    s.pc = .wait4completion .enter c ∧ s.pendingThreads = 0 ∧
    ∀ (t : Nat) (w' : WorkerThread), t ≠ tid → s.threads[t]? = some w' → w'.signalling = false

/-- `LosesSignal`, computed. -/
def losesSignal (l : Label) (s : Pool) : Bool :=
  match l, s.pc with
  | .worker tid, .wait4completion .enter _ =>
      match s.threads[tid]?.map WorkerThread.pc with
      | some (.wait .signal _) =>
          s.pendingThreads = 0 && (s.threads.eraseIdx tid).all fun w => !w.signalling
      | _ => false
  | _, _ => false

theorem losesSignal_iff {l : Label} {s : Pool} : losesSignal l s = true ↔ LosesSignal l s := by
  constructor
  · intro h
    unfold losesSignal at h
    split at h
    · rename_i tid c hpc
      split at h
      · rename_i caller hmap
        obtain ⟨w, hw, hp⟩ := Option.map_eq_some_iff.mp hmap
        simp only [Bool.and_eq_true, decide_eq_true_eq, List.all_eq_true, Bool.not_eq_true'] at h
        exact ⟨tid, w, caller, c, rfl, hw, hp, hpc, h.1, fun t w' ht hw' =>
          h.2 w' (List.mem_eraseIdx_iff_getElem?.mpr ⟨t, ht, hw'⟩)⟩
      · cases h
    · cases h
  · rintro ⟨tid, w, caller, c, rfl, hw, hp, hpc, hz, hothers⟩
    simp only [losesSignal, hpc, hw, Option.map_some, hp, hz, decide_true, Bool.true_and,
      List.all_eq_true, Bool.not_eq_true']
    intro w' hmem
    obtain ⟨t, ht, hw'⟩ := List.mem_eraseIdx_iff_getElem?.mp hmem
    exact hothers t w' ht hw'

instance (l : Label) (s : Pool) : Decidable (LosesSignal l s) :=
  decidable_of_iff (losesSignal l s = true) losesSignal_iff

/-! ## What the steps do to the signal -/

section

variable {tid pending : Nat} {w w' : WorkerThread} {e : Effect}

theorem WorkerThread.asleep_of_wakeUp (h : w.wakeUp = some w') :
    w.signalling = false ∧ w'.signalling = false := by
  unfold WorkerThread.wakeUp at h
  unfold WorkerThread.signalling
  split at h
  · rename_i caller hp
    cases h
    rw [hp]
    exact ⟨rfl, rfl⟩
  · cases h

/-- A step that has nothing to do with the signal. -/
def Quiet (w : WorkerThread) (e : Effect) : Prop :=
  w.signalling = false ∧ e ≠ .decPpt ∧ e ≠ .signalParent

theorem dequeue_quiet {p : DequeuePc} (h : w.dequeueStep tid p = some (w', e)) : Quiet w' e := by
  cases p with
  | testEmpty =>
    rw [WorkerThread.dequeueStep] at h
    split at h <;> cases h <;> exact ⟨rfl, (by simp), (by simp)⟩
  | acquire =>
    rw [WorkerThread.dequeueStep] at h
    rcases Mutex.lock_cases h with h | h <;> cases h <;> exact ⟨rfl, (by simp), (by simp)⟩
  | pop =>
    rw [WorkerThread.dequeueStep] at h
    split at h <;> cases h <;> exact ⟨rfl, (by simp), (by simp)⟩
  | release x =>
    rw [WorkerThread.dequeueStep] at h
    rcases Mutex.unlock_cases h with h | h <;> cases h <;> exact ⟨rfl, (by simp), (by simp)⟩

/-- The steps of `wait`: the decrement, the test and the signal, and the others. -/
theorem wait_signalling {p : WaitPc} {caller : WaitCaller} (hp : w.pc = .wait p caller)
    (h : w.waitStep tid pending caller p = some (w', e)) :
    (p = .decPpt ∧ e = .decPpt ∧ w'.signalling = true) ∨
    (p = .testPpt ∧ e = .silent ∧ (w'.signalling = true ↔ pending = 0)) ∨
    (p = .signal ∧ e = .signalParent ∧ w'.signalling = false) ∨
    (w.signalling = false ∧ Quiet w' e) := by
  have hw : w.signalling = (WorkerThread.signalling { w with pc := .wait p caller }) := by
    rw [← hp]
  rw [hw]
  cases p with
  | acquire =>
    rw [WorkerThread.waitStep] at h
    rcases Mutex.lock_cases h with h | h <;> cases h <;>
      exact .inr (.inr (.inr ⟨rfl, rfl, (by simp), (by simp)⟩))
  | setWait =>
    cases h
    exact .inr (.inr (.inr ⟨rfl, rfl, (by simp), (by simp)⟩))
  | decPpt =>
    cases h
    exact .inl ⟨rfl, rfl, rfl⟩
  | testPpt =>
    refine .inr (.inl ⟨rfl, ?_⟩)
    by_cases hz : pending = 0
    · rw [WorkerThread.waitStep, if_pos hz] at h
      cases h
      exact ⟨rfl, iff_of_true rfl hz⟩
    · rw [WorkerThread.waitStep, if_neg hz] at h
      cases h
      exact ⟨rfl, iff_of_false (by simp [WorkerThread.signalling]) hz⟩
  | signal =>
    cases h
    exact .inr (.inr (.inl ⟨rfl, rfl, rfl⟩))
  | testState =>
    rw [WorkerThread.waitStep] at h
    split at h <;> cases h <;> exact .inr (.inr (.inr ⟨rfl, rfl, (by simp), (by simp)⟩))
  | enter =>
    rw [WorkerThread.waitStep] at h
    rcases Mutex.unlock_cases h with h | h <;> cases h <;>
      exact .inr (.inr (.inr ⟨rfl, rfl, (by simp), (by simp)⟩))
  | asleep => cases h
  | reacquire =>
    rw [WorkerThread.waitStep] at h
    rcases Mutex.lock_cases h with h | h <;> cases h <;>
      exact .inr (.inr (.inr ⟨rfl, rfl, (by simp), (by simp)⟩))
  | release =>
    cases caller <;> rw [WorkerThread.waitStep] at h <;>
      rcases Mutex.unlock_cases h with h | h <;> cases h <;>
      exact .inr (.inr (.inr ⟨rfl, rfl, (by simp), (by simp)⟩))

/-- What a step of a worker has to do with the signal. -/
theorem step_signalling (h : w.step tid pending = some (w', e)) :
    (e = .decPpt ∧ w'.signalling = true) ∨
    (e = .silent ∧ w.signalling = true ∧ (w'.signalling = true ↔ pending = 0)) ∨
    (e = .signalParent ∧ (∃ caller, w.pc = .wait .signal caller) ∧ w'.signalling = false) ∨
    (w.signalling = false ∧ Quiet w' e) := by
  unfold WorkerThread.step at h
  unfold WorkerThread.signalling
  cases hp : w.pc with
  | testWait =>
    rw [hp] at h
    dsimp only at h
    split at h <;> cases h <;> exact .inr (.inr (.inr ⟨rfl, rfl, nofun, nofun⟩))
  | testExit =>
    rw [hp] at h
    dsimp only at h
    split at h <;> cases h <;> exact .inr (.inr (.inr ⟨rfl, rfl, nofun, nofun⟩))
  | run =>
    rw [hp] at h
    dsimp only at h
    split at h <;> cases h <;> exact .inr (.inr (.inr ⟨rfl, rfl, nofun, nofun⟩))
  | dequeue p =>
    rw [hp] at h
    exact .inr (.inr (.inr ⟨rfl, dequeue_quiet h⟩))
  | prep x =>
    rw [hp] at h
    cases h
    exact .inr (.inr (.inr ⟨rfl, rfl, nofun, nofun⟩))
  | runNode x =>
    rw [hp] at h
    cases h
    exact .inr (.inr (.inr ⟨rfl, rfl, nofun, nofun⟩))
  | wait p caller =>
    rw [hp] at h
    rcases wait_signalling hp h with ⟨-, rfl, hw'⟩ | ⟨rfl, rfl, hiff⟩ | ⟨rfl, rfl, hw'⟩ | ⟨hw, hq⟩
    · exact .inl ⟨rfl, hw'⟩
    · exact .inr (.inl ⟨rfl, rfl, hiff⟩)
    · exact .inr (.inr (.inl ⟨rfl, ⟨caller, rfl⟩, hw'⟩))
    · unfold WorkerThread.signalling at hw
      rw [hp] at hw
      exact .inr (.inr (.inr ⟨hw, hq⟩))
  | exited =>
    rw [hp] at h
    cases h
  | thrown =>
    rw [hp] at h
    cases h

end

section

variable {T : Nat} {s s' : Pool}

theorem enqueue_not_sleepy {p : EnqueuePc} {level taskIndex : Nat} {nodes : List Nat}
    {tid : CUnsigned} (h : s.enqueueStep level nodes taskIndex tid p = some s') :
    s'.pc.sleepy = false := by
  unfold Pool.enqueueStep at h
  split at h
  · cases h
    rfl
  · cases p with
    | acquire => rcases Mutex.lock_cases h with h | h <;> cases h <;> rfl
    | push i =>
      dsimp only at h
      split at h
      · split at h <;> cases h <;> rfl
      · cases h
        rfl
    | release =>
      rcases Mutex.unlock_cases h with h | h
      · split at h <;> cases h <;> rfl
      · cases h
        rfl

theorem wake_not_sleepy {p : WakePc} {tid level : Nat}
    (h : s.wakeStep tid level p = some s') : s'.pc.sleepy = false := by
  unfold Pool.wakeStep at h
  split at h
  · cases h
    rfl
  · cases p with
    | acquire => rcases Mutex.lock_cases h with h | h <;> cases h <;> rfl
    | setState =>
      cases h
      rfl
    | incPpt =>
      cases h
      rfl
    | release => rcases Mutex.unlock_cases h with h | h <;> cases h <;> rfl
    | signal =>
      cases h
      rfl

theorem completion_sleepy {p : CompletionPc} {caller : CompletionCaller}
    (h : s.completionStep caller p = some s') (hs : s'.pc.sleepy = true) :
    s'.pendingThreads ≠ 0 ∨
    (p = .enter ∧ s'.threads = s.threads ∧ s'.pendingThreads = s.pendingThreads) := by
  cases p with
  | lock =>
    rw [Pool.completionStep] at h
    rcases Mutex.lock_cases h with h | h <;> cases h <;> cases hs
  | test =>
    by_cases hz : s.pendingThreads = 0
    · rw [Pool.completionStep, if_neg (by simpa using hz)] at h
      cases h
      cases hs
    · rw [Pool.completionStep, if_pos hz] at h
      cases h
      exact .inl hz
  | enter =>
    rw [Pool.completionStep] at h
    rcases Mutex.unlock_cases h with h | h
    · cases h
      exact .inr ⟨rfl, rfl, rfl⟩
    · cases h
      cases hs
  | asleep => cases h
  | reacquire =>
    rw [Pool.completionStep] at h
    rcases Mutex.lock_cases h with h | h <;> cases h <;> cases hs
  | unlock =>
    cases caller <;> rw [Pool.completionStep] at h <;>
      rcases Mutex.unlock_cases h with h | h <;> cases h <;> cases hs

/-- Only `wait4completion` brings the scheduling thread to its sleep, after a test that found a
    thread pending. -/
theorem scheduler_sleepy (h : s.schedulerStep = some s') (hs : s'.pc.sleepy = true) :
    s'.pendingThreads ≠ 0 ∨
    (s.pc.sleepy = true ∧ s'.threads = s.threads ∧ s'.pendingThreads = s.pendingThreads) := by
  unfold Pool.schedulerStep at h
  cases hp : s.pc with
  | create =>
    rw [hp] at h
    dsimp only at h
    split at h <;> cases h <;> cases hs
  | wait4completion p caller =>
    rw [hp] at h
    rcases completion_sleepy h hs with hz | ⟨rfl, hth, hpd⟩
    · exact .inl hz
    · exact .inr ⟨rfl, hth, hpd⟩
  | idle =>
    rw [hp] at h
    cases h
  | scheduleLock x =>
    rw [hp] at h
    dsimp only at h
    rcases Mutex.lock_cases h with h | h <;> cases h <;> cases hs
  | schedulePush x =>
    rw [hp] at h
    simp only [Pool.schedulePush] at h
    split at h
    · cases h
      cases hs
    · split at h <;> cases h <;> cases hs
  | scheduleUnlock full =>
    rw [hp] at h
    dsimp only at h
    cases full <;> rcases Mutex.unlock_cases h with h | h <;> cases h <;> cases hs
  | runLevel level =>
    rw [hp] at h
    simp only [Pool.runLevelStep] at h
    split at h
    · cases h
      cases hs
    · split at h
      · cases h
        cases hs
      · split at h <;> cases h <;> cases hs
  | enqueue p level nodes taskIndex tid =>
    rw [hp] at h
    rw [enqueue_not_sleepy h] at hs
    cases hs
  | wake p tid level =>
    rw [hp] at h
    rw [wake_not_sleepy h] at hs
    cases hs
  | returned level =>
    rw [hp] at h
    cases h
    cases hs
  | thrown =>
    rw [hp] at h
    cases h

/-! ## Runs that do not lose the signal -/

theorem Pool.wakeUp_eq (h : s.wakeUp = some s') :
    ∃ caller, s.pc = .wait4completion .asleep caller ∧
      s' = { s with pc := .wait4completion .reacquire caller } := by
  unfold Pool.wakeUp at h
  split at h
  · rename_i caller hp
    cases h
    exact ⟨caller, hp, rfl⟩
  · cases h

/-- While the scheduling thread sleeps, or is about to, some worker will signal. -/
def Signalled (s : Pool) : Prop :=
  s.pc.sleepy = true → s.pendingThreads = 0 →
    ∃ (t : Nat) (w : WorkerThread), s.threads[t]? = some w ∧ w.signalling = true

theorem SchedulerPc.sleepy_cases {pc : SchedulerPc} (h : pc.sleepy = true) :
    (∃ c, pc = .wait4completion .enter c) ∨ ∃ c, pc = .wait4completion .asleep c := by
  unfold SchedulerPc.sleepy at h
  split at h
  · rename_i c
    exact .inl ⟨c, rfl⟩
  · rename_i c
    exact .inr ⟨c, rfl⟩
  · cases h

/-- A worker that is not signalling moves. -/
theorem Signalled.keep {tid : Nat} {w w' : WorkerThread} (h : Signalled s)
    (hw : s.threads[tid]? = some w) (hq : w.signalling = false) (hpc : s'.pc = s.pc)
    (hp : s'.pendingThreads = s.pendingThreads) (hth : s'.threads = s.threads.set tid w') :
    Signalled s' := by
  intro hsl hz
  obtain ⟨t, w₀, hw₀, hsig⟩ := h (hpc ▸ hsl) (hp ▸ hz)
  have hne : t ≠ tid := by
    rintro rfl
    obtain rfl : w₀ = w := Option.some.inj (hw₀.symm.trans hw)
    rw [hq] at hsig
    cases hsig
  exact ⟨t, w₀, by rw [hth, List.getElem?_set_ne (Ne.symm hne), hw₀], hsig⟩

theorem Signalled.worker {tid : Nat} (h : Signalled s) (hsafe : ¬ LosesSignal (.worker tid) s)
    (hs : Pool.step (.worker tid) s = some s') : Signalled s' := by
  obtain ⟨w, hw, hs⟩ := Option.bind_eq_some_iff.mp hs
  obtain ⟨⟨w', e⟩, hw', hs⟩ := Option.bind_eq_some_iff.mp hs
  have hget : (s.threads.set tid w')[tid]? = some w' := getElem?_set_some hw
  have hother : ∀ t, t ≠ tid → (s.threads.set tid w')[t]? = s.threads[t]? := fun t ht =>
    List.getElem?_set_ne (Ne.symm ht)
  intro hsl hz
  rcases step_signalling hw' with ⟨rfl, hsig⟩ | ⟨rfl, -, hiff⟩ | ⟨rfl, ⟨caller, hp⟩, -⟩ |
    ⟨hquiet, -, hd, hsp⟩
  · cases hs
    exact ⟨tid, w', hget, hsig⟩
  · cases hs
    exact ⟨tid, w', hget, hiff.mpr hz⟩
  · -- the scheduling thread hears the signal, unless it is about to sleep
    cases hu : Pool.wakeUp { s with threads := s.threads.set tid w' } with
    | some s₁ =>
      obtain ⟨c, -, rfl⟩ := Pool.wakeUp_eq hu
      simp only [Pool.apply, hu] at hs
      cases hs
      cases hsl
    | none =>
      simp only [Pool.apply, hu] at hs
      cases hs
      by_contra hnone
      push Not at hnone
      rcases SchedulerPc.sleepy_cases hsl with ⟨c, hc⟩ | ⟨c, hc⟩
      · refine hsafe ⟨tid, w, caller, c, rfl, hw, hp, hc, hz, fun t w₁ ht hw₁ => ?_⟩
        simpa using hnone t w₁ ((hother t ht).trans hw₁)
      · have hc' : s.pc = .wait4completion .asleep c := hc
        simp only [Pool.wakeUp, hc'] at hu
        cases hu
  · cases e with
    | silent =>
      cases hs
      exact h.keep hw hquiet rfl rfl rfl hsl hz
    | decPpt => exact absurd rfl hd
    | signalParent => exact absurd rfl hsp
    | task k =>
      cases hs
      exact h.keep hw hquiet rfl rfl rfl hsl hz

theorem Signalled.step {l : Label} (h : Signalled s) (hsafe : ¬ LosesSignal l s)
    (hs : Pool.step l s = some s') : Signalled s' := by
  cases l with
  | scheduler =>
    intro hsl hz
    rcases scheduler_sleepy hs hsl with hne | ⟨hsl₀, hth, hpd⟩
    · exact absurd hz hne
    · rw [hth]
      exact h hsl₀ (hpd.symm.trans hz)
  | call x =>
    rw [Pool.step] at hs
    split at hs <;> cases hs
    intro hsl
    cases hsl
  | worker tid => exact h.worker hsafe hs
  | spurious thread =>
    cases thread with
    | scheduler =>
      obtain ⟨c, -, rfl⟩ := Pool.wakeUp_eq hs
      intro hsl
      cases hsl
    | worker tid =>
      obtain ⟨w, hw, hs⟩ := Option.bind_eq_some_iff.mp hs
      obtain ⟨w', hw', hs⟩ := Option.bind_eq_some_iff.mp hs
      cases hs
      exact h.keep hw (WorkerThread.asleep_of_wakeUp hw').1 rfl rfl rfl

/-! ## A signal that nobody hears -/

/-- The signal wakes nobody, and the scheduling thread goes to sleep. -/
theorem Inv.stuck_of_losesSignal {l : Label} (h : Inv T s) (hl : LosesSignal l s)
    (hs : Pool.step l s = some s') :
    ∃ s'', Pool.step .scheduler s' = some s'' ∧ Stuck s'' := by
  obtain ⟨tid, w, caller, c, rfl, hw, hp, hpc, hz, hothers⟩ := hl
  have hm := h.mutex
  rw [hpc] at hm
  obtain ⟨w₁, hw₁, hs⟩ := Option.bind_eq_some_iff.mp hs
  obtain rfl : w₁ = w := Option.some.inj (hw₁.symm.trans hw)
  have hstep : w₁.step tid s.pendingThreads =
      some ({ w₁ with pc := .wait .testState caller }, .signalParent) := by
    unfold WorkerThread.step
    rw [hp]
    rfl
  rw [hstep] at hs
  have hawake : Pool.wakeUp
      { s with threads := s.threads.set tid { w₁ with pc := .wait .testState caller } } = none := by
    simp only [Pool.wakeUp, hpc]
  simp only [Option.bind_eq_bind, Option.bind_some, Pool.apply, hawake] at hs
  cases hs
  refine ⟨{ s with
    threads := s.threads.set tid { w₁ with pc := .wait .testState caller }
    mutex := ⟨none⟩
    pc := .wait4completion .asleep c }, ?_, ⟨c, rfl⟩, hz, ?_⟩
  · show Pool.schedulerStep _ = _
    simp only [Pool.schedulerStep, Option.getD_none, hpc, Pool.completionStep]
    rw [Mutex.unlock_owner hm]
  · intro w' hmem
    obtain ⟨t, ht⟩ := List.mem_iff_getElem?.mp hmem
    rcases getElem?_set_cases ht with ⟨-, rfl⟩ | ⟨hne, ht⟩
    · rfl
    · exact hothers t w' hne ht

/-- A worker that is not signalling has moved, and is not signalling now. -/
theorem Stuck.set {tid : Nat} {w' : WorkerThread} (h : Stuck s) (hw' : w'.signalling = false) :
    Stuck { s with threads := s.threads.set tid w' } := by
  refine ⟨h.1, h.2.1, fun w₀ hmem => ?_⟩
  obtain ⟨t, ht⟩ := List.mem_iff_getElem?.mp hmem
  rcases getElem?_set_cases ht with ⟨-, rfl⟩ | ⟨-, ht⟩
  · exact hw'
  · exact h.2.2 w₀ (List.mem_of_getElem? ht)

/-- Without a spurious wake-up the scheduling thread stays asleep. -/
theorem Stuck.step {l : Label} (h : Stuck s) (hi : Inv T s) (hl : l ≠ .spurious .scheduler)
    (hs : Pool.step l s = some s') : Stuck s' := by
  obtain ⟨⟨c, hpc⟩, hz, hquiet⟩ := id h
  cases l with
  | scheduler =>
    simp only [Pool.step, Pool.schedulerStep, hpc, Pool.completionStep] at hs
    cases hs
  | call x =>
    rw [Pool.step, if_neg (by rw [hpc]; simp)] at hs
    cases hs
  | worker tid =>
    obtain ⟨w, hw, hs⟩ := Option.bind_eq_some_iff.mp hs
    obtain ⟨⟨w', e⟩, hw', hs⟩ := Option.bind_eq_some_iff.mp hs
    have hnot : w.signalling = false := hquiet w (List.mem_of_getElem? hw)
    have hrest : w.resting = true := hi.all_resting hz (fun t => by rw [hpc]; rfl) hw
    obtain ⟨-, -, htasks, hdec⟩ := (step_moves (hi.threads tid w hw).ok hw').rest hrest
    rcases step_signalling hw' with ⟨rfl, -⟩ | ⟨-, hsig, -⟩ | ⟨-, ⟨caller, hp⟩, -⟩ |
      ⟨-, hsig, -, hsp⟩
    · exact absurd rfl hdec
    · rw [hnot] at hsig
      cases hsig
    · unfold WorkerThread.signalling at hnot
      rw [hp] at hnot
      cases hnot
    · cases e with
      | silent =>
        cases hs
        exact h.set hsig
      | decPpt => exact absurd rfl hdec
      | signalParent => exact absurd rfl hsp
      | task k => cases htasks
  | spurious thread =>
    cases thread with
    | scheduler => exact absurd rfl hl
    | worker tid =>
      obtain ⟨w, hw, hs⟩ := Option.bind_eq_some_iff.mp hs
      obtain ⟨w', hw', hs⟩ := Option.bind_eq_some_iff.mp hs
      cases hs
      exact h.set (WorkerThread.asleep_of_wakeUp hw').2

end

theorem not_stuck_of_signalled {s : Pool} (h : Signalled s) : ¬ Stuck s := by
  rintro ⟨⟨c, hpc⟩, hz, hquiet⟩
  obtain ⟨t, w, hw, hsig⟩ := h (by rw [hpc]; rfl) hz
  rw [hquiet w (List.mem_of_getElem? hw)] at hsig
  cases hsig

/-- In a run without a lost signal the scheduling thread is never left asleep; a lost signal leaves
    it so, by its next step, until a spurious wake-up. -/
theorem no_lost_signal {T fanout : Nat} (hT : 1 ≤ T) (hT' : T < 2 ^ 32) :
    (∀ s, Reachable (only (fun l s => ¬ LosesSignal l s) Pool.step) (.new T fanout) s →
      ¬ Stuck s) ∧
    (∀ l s s', Reachable Pool.step (.new T fanout) s → LosesSignal l s →
      Pool.step l s = some s' → ∃ s'', Pool.step .scheduler s' = some s'' ∧ Stuck s'') ∧
    (∀ l s s', Reachable Pool.step (.new T fanout) s → Stuck s → l ≠ .spurious .scheduler →
      Pool.step l s = some s' → Stuck s') := by
  refine ⟨fun s h => not_stuck_of_signalled ?_, fun l s s' h hl hs => ?_,
    fun l s s' h hst hl hs => ?_⟩
  · refine h.invariant (I := Signalled) (fun hsl => by cases hsl) fun l s s' hi hs => ?_
    obtain ⟨hok, hs⟩ := only_eq_some.mp hs
    exact hi.step hok hs
  · exact (Inv.of_reachable hT hT' h).stuck_of_losesSignal hl hs
  · exact hst.step (Inv.of_reachable hT hT' h) hl hs

/-- Two workers run two levels, and no signal is lost. -/
theorem no_lost_signal_two :
    ∃ s, Reachable (only (fun l s => ¬ LosesSignal l s) Pool.step) (.new 2 9) s ∧
      s.pc = .returned 1 ∧ ¬ Stuck s := by
  have hpc : (run (only (fun l s => ¬ LosesSignal l s) Pool.step)
      (eightPending ++ .call 9 :: runNine) (.new 2 9)).map Pool.pc = some (.returned 1) := by
    decide +kernel
  obtain ⟨s, hs, hp⟩ := Option.map_eq_some_iff.mp hpc
  exact ⟨s, ⟨_, hs⟩, hp, (no_lost_signal (by decide) (by decide)).1 s ⟨_, hs⟩⟩

/-- One worker initialises between the test of `wait4completion` and its sleep. -/
def lateSleep : List Label :=
  bursts [(4, .scheduler), (6, .worker 0), (1, .scheduler)]

theorem lost_signal_one : ∃ s, Reachable Pool.step (.new 1 2) s ∧ Stuck s := by
  have hrun : (run Pool.step lateSleep (.new 1 2)).map
      (fun s => (s.pc, s.pendingThreads, s.threads.map WorkerThread.signalling)) =
        some (.wait4completion .asleep .ctor, 0, [false]) := by
    decide +kernel
  obtain ⟨s, hs, heq⟩ := Option.map_eq_some_iff.mp hrun
  simp only [Prod.mk.injEq] at heq
  obtain ⟨hpc, hz, hsig⟩ := heq
  refine ⟨s, ⟨lateSleep, hs⟩, ⟨.ctor, hpc⟩, hz, fun w hw => ?_⟩
  have hmem := List.mem_map_of_mem (f := WorkerThread.signalling) hw
  rw [hsig] at hmem
  exact List.mem_singleton.mp hmem

end Monya.Structures
