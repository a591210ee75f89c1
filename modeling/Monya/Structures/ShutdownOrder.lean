/-
  In which interleavings `~Scheduler` deletes a worker's object only after the worker has left it
  (`structures/Scheduler.cpp`, `structures/WorkerThread.cpp`).

  The steps of the destructor come in a fixed order (`ShutdownPc.index`), so an interleaving is
  described by where the steps of the workers lie between them. From the moment `wake(EXIT)` unlocks
  its state lock, a worker that slept in `wait` has a fixed number of steps to make until it leaves
  the loop of `callback` (`WorkerPc.stepsLeft`): four if `callback` called `wait`, five if `run`
  did.

  `destroyed_after_exit`: no worker can take a step in an object whose destruction has begun exactly
  in those interleavings in which each worker makes these steps before the destructor comes to
  `delete(threads[tid])` (`LeavesInTime`). Nothing in the code waits for that.
-/
import Monya.Structures.Shutdown

namespace Monya.Structures

open Monya.Lib

/-! ## Steps, counted -/

@[simp] def WakePc.index : WakePc → Nat
  | .acquire => 0
  | .setState => 1
  | .incPpt => 2
  | .release => 3
  | .signal => 4

@[simp] def DeletePc.index : DeletePc → Nat
  | .condDestroy => 0
  | .stateLockDestroy => 1
  | .mutexAttrDestroy => 2
  | .deleteTaskQueue => 3

namespace ShutdownPc

/-- How many steps the destructor of `T` workers has made here. -/
@[simp] def index (T : Nat) : ShutdownPc → Nat
  | .mutexDestroy => 0
  | .mutexAttrDestroy => 1
  | .condDestroy => 2
  | .wake p tid => 3 + 5 * tid + p.index
  | .delete p tid => 4 + 5 * T + 4 * tid + p.index
  | .done => 5 + 9 * T
  | .thrown => 0

/-- Both loops go over the workers and end behind the last one. No call into pthreads fails. -/
@[simp] def Within (T : Nat) : ShutdownPc → Prop
  | .wake p tid => tid < T ∨ (tid = T ∧ p = .acquire)
  | .delete p tid => tid < T ∨ (tid = T ∧ p = .condDestroy)
  | .thrown => False
  | _ => True

theorem within_wake {T tid : Nat} (h : tid ≤ T) : (wake .acquire tid).Within T :=
  (Nat.lt_or_eq_of_le h).imp_right fun heq => ⟨heq, rfl⟩

theorem within_delete {T tid : Nat} (h : tid ≤ T) : (delete .condDestroy tid).Within T :=
  (Nat.lt_or_eq_of_le h).imp_right fun heq => ⟨heq, rfl⟩

end ShutdownPc

/-- The steps from the wake-up in `wait` to its return. -/
@[simp] def WaitPc.stepsLeft : WaitPc → Nat
  | .asleep | .reacquire => 3
  | .testState => 2
  | .release => 1
  | _ => 0

/-- The tests of the state after `wait`: `run` returns to the head of the loop of `callback`. -/
@[simp] def WaitCaller.stepsLeft : WaitCaller → Nat
  | .callback => 1
  | .run => 2

/-- The steps of a worker in state `EXIT` until it has left the loop of `callback`. -/
@[simp] def WorkerPc.stepsLeft : WorkerPc → Nat
  | .wait p caller => p.stepsLeft + caller.stepsLeft
  | .testWait => 2
  | .testExit => 1
  | _ => 0

namespace Shutdown

/-- The steps of the destructor up to the unlock in `wake(EXIT)` of worker `tid`. -/
def unlockEnd (tid : Nat) : Nat := 7 + 5 * tid

/-- The steps of the destructor before `delete(threads[tid])`. -/
def deleteStart (T tid : Nat) : Nat := 4 + 5 * T + 4 * tid

/-- The steps of worker `tid` since that unlock. -/
def stepsSince (tid : Nat) (ls : List ShutdownLabel) : Nat :=
  (afterNth .destructor (unlockEnd tid) ls).count (.worker tid)

/-- Between the unlock in `wake(EXIT)` and the start of `delete(threads[tid])`, each worker makes
    the steps that lead out of `wait` and the loop of `callback`. This is about the order of the
    steps only. -/
def LeavesInTime (threads : List WorkerThread) (ls : List ShutdownLabel) : Prop :=
  ∀ i < ls.length, ls[i]? = some .destructor → ∀ tid : Fin threads.length,
    (ls.take i).count .destructor = deleteStart threads.length tid →
      threads[tid].pc.stepsLeft ≤ stepsSince tid (ls.take i)

instance (threads : List WorkerThread) (ls : List ShutdownLabel) :
    Decidable (LeavesInTime threads ls) :=
  inferInstanceAs (Decidable (∀ i < ls.length, _ → ∀ _ : Fin threads.length, _ → _))

/-- The worker has left the loop of `callback`. -/
def Exited (s : Shutdown) (tid : Nat) : Prop :=
  s.threads[tid]?.map WorkerThread.pc = some .exited

instance (s : Shutdown) (tid : Nat) : Decidable (Exited s tid) :=
  inferInstanceAs (Decidable (_ = _))

end Shutdown

/-! ## The pace of a worker -/

namespace Closing

variable {g : WakeStage} {tid pending : Nat} {w w' : WorkerThread} {e : Effect}

/-- Once it is told, every step of the worker brings it nearer to its exit. -/
theorem stepsLeft_step (h : Closing g tid w) (hg : g.released = true)
    (hs : w.step tid pending = some (w', e)) : w'.pc.stepsLeft + 1 = w.pc.stepsLeft := by
  cases h.step_goes hs with
  | reacquire caller hp => simp [hp]; omega
  | sleepOn caller hp hb => rw [hb] at hg; cases hg
  | enter caller hp =>
    -- it would fall asleep again
    have hplace := h.place
    rw [hp] at hplace
    cases g with
    | unlocked | woken => exact absurd hplace id
    | before | locked | told => cases hg
  | leave caller hp => simp [hp]; omega
  | release caller hp => cases caller <;> simp [hp]
  | testWait hp => simp [hp]
  | testExit hp => simp [hp]

/-- Before that it goes round the loop of `wait`. -/
theorem wait_step (h : Closing g tid w) (hg : g.released = false) {p : WaitPc}
    {caller : WaitCaller} (hp : w.pc = .wait p caller)
    (hs : w.step tid pending = some (w', e)) : ∃ p', w'.pc = .wait p' caller := by
  have hcaller : ∀ {p' c}, w.pc = .wait p' c → c = caller := fun h' => by
    rw [hp] at h'
    exact (WorkerPc.wait.inj h').2.symm
  cases h.step_goes hs with
  | reacquire c hp' | sleepOn c hp' | enter c hp' => exact ⟨_, by rw [hcaller hp']⟩
  | leave c hp' hg' | release c hp' hg' => rw [hg'] at hg; cases hg
  | testWait hp' hg' | testExit hp' hg' => rw [hg'] at hg; cases hg

/-- When the destructor unlocks its state lock, the worker has all its steps to make. -/
theorem stepsLeft_told (h : Closing .told tid w) {p : WaitPc} {caller : WaitCaller}
    (hp : w.pc = .wait p caller) : w.pc.stepsLeft = 3 + caller.stepsLeft := by
  have hplace := h.place
  rw [hp] at hplace ⊢
  cases p with
  | asleep | reacquire => rfl
  | _ => exact absurd hplace id

theorem exited_iff (h : Closing .woken tid w) : w.pc = .exited ↔ w.pc.stepsLeft = 0 := by
  have hplace := h.place
  cases hp : w.pc with
  | exited => simp
  | testWait | testExit => simp
  | wait p caller => cases caller <;> simp
  | _ => rw [hp] at hplace; exact absurd hplace id

end Closing

/-- A wake-up is not a step of the worker. -/
theorem WorkerThread.wakeUp_pc {w w' : WorkerThread} (h : w.wakeUp = some w') :
    ∃ caller, w.pc = .wait .asleep caller ∧ w'.pc = .wait .reacquire caller := by
  unfold WorkerThread.wakeUp at h
  split at h
  · next caller hp =>
    cases h
    exact ⟨caller, hp, rfl⟩
  · cases h

/-- The worker is where it was, or has been woken up. -/
def Stays (w w' : WorkerThread) : Prop :=
  w'.pc = w.pc ∨ ∃ caller, w.pc = .wait .asleep caller ∧ w'.pc = .wait .reacquire caller

namespace Stays

variable {w w' : WorkerThread}

theorem signal (w : WorkerThread) : Stays w w.signal := by
  unfold WorkerThread.signal
  cases hw : w.wakeUp with
  | none => exact .inl rfl
  | some w' => exact .inr (WorkerThread.wakeUp_pc hw)

theorem stepsLeft (h : Stays w w') : w'.pc.stepsLeft = w.pc.stepsLeft := by
  rcases h with hp | ⟨caller, hp, hp'⟩
  · rw [hp]
  · rw [hp, hp']
    rfl

theorem wait (h : Stays w w') {p : WaitPc} {caller : WaitCaller} (hp : w.pc = .wait p caller) :
    ∃ p', w'.pc = .wait p' caller := by
  rcases h with hp' | ⟨c, hc, hp'⟩
  · exact ⟨p, hp'.trans hp⟩
  · rw [hp] at hc
    exact ⟨_, by rw [hp', (WorkerPc.wait.inj hc).2]⟩

theorem exited (h : Stays w w') (hp : w.pc = .exited) : w'.pc = .exited := by
  rcases h with hp' | ⟨c, hc, -⟩
  · exact hp'.trans hp
  · rw [hp] at hc
    cases hc

end Stays

namespace ShutdownPc

variable {pc : ShutdownPc} {T t : Nat}

/-- The destructor has unlocked the state lock of a worker when it has made so many steps. -/
theorem released_iff (h : pc.Within T) (ht : t < T) :
    (pc.stage t).released = true ↔ Shutdown.unlockEnd t ≤ pc.index T := by
  unfold Shutdown.unlockEnd
  cases pc with
  | mutexDestroy | mutexAttrDestroy | condDestroy => simp [stage]; try omega
  | wake p tid =>
    rcases Nat.lt_trichotomy t tid with hlt | rfl | hgt
    · rw [stage_wake_lt p hlt]
      simp only [WakeStage.released, index, true_iff]
      omega
    · rw [stage_wake]
      cases p <;> simp [index] <;> omega
    · rw [stage_wake_gt p hgt]
      cases p <;> simp [index] <;> omega
  | delete p tid => simp [stage]; omega
  | done => simp [stage]; omega
  | thrown => exact absurd h id

/-- One step before, it owns the lock. -/
theorem stage_told (h : pc.Within T) (ht : t < T)
    (hi : pc.index T + 1 = Shutdown.unlockEnd t) : pc.stage t = .told := by
  unfold Shutdown.unlockEnd at hi
  cases pc with
  | mutexDestroy | mutexAttrDestroy | condDestroy => simp at hi; try omega
  | wake p tid =>
    obtain rfl : tid = t := by
      cases p <;> simp at hi <;> omega
    rw [stage_wake]
    cases p with
    | release | incPpt => rfl
    | acquire | setState | signal => simp at hi; try omega
  | delete p tid => simp at hi; omega
  | done => simp at hi; omega
  | thrown => exact absurd h id

/-- The destructor is about to delete a worker's object when it has made so many steps. -/
theorem delete_iff (h : pc.Within T) (ht : t < T) :
    pc = .delete .condDestroy t ↔ pc.index T = Shutdown.deleteStart T t := by
  unfold Shutdown.deleteStart
  constructor
  · rintro rfl
    simp
  · intro hi
    cases pc with
    | mutexDestroy | mutexAttrDestroy | condDestroy => simp at hi; try omega
    | wake p tid =>
      rcases h with hlt | ⟨rfl, rfl⟩
      · cases p <;> simp at hi <;> omega
      · simp at hi
        omega
    | delete p tid =>
      have htid : p.index < 4 := by cases p <;> simp
      simp only [index] at hi
      obtain rfl : tid = t := by omega
      cases p with
      | condDestroy => rfl
      | _ => simp at hi
    | done => simp at hi; omega
    | thrown => exact absurd h id

end ShutdownPc

namespace Shutdown

variable {threads : List WorkerThread} {ls : List ShutdownLabel} {s s' : Shutdown}
  {l : ShutdownLabel}

/-! ## The destructor and the workers, step by step -/

theorem stays_set {tid : Nat} {w w₁ : WorkerThread} (hw : s.threads[tid]? = some w)
    (hst : Stays w w₁) (t : Nat) (w' : WorkerThread)
    (hw' : (s.threads.set tid w₁)[t]? = some w') :
    ∃ w, s.threads[t]? = some w ∧ Stays w w' := by
  rcases getElem?_set_cases hw' with ⟨rfl, rfl⟩ | ⟨-, hw'⟩
  · exact ⟨w, hw, hst⟩
  · exact ⟨w', hw', .inl rfl⟩

/-- The destructor goes on by one step, and moves no worker but by its signal. -/
structure Advances (s s' : Shutdown) : Prop where
  length : s'.threads.length = s.threads.length
  within : s.pc.Within s.threads.length → s'.pc.Within s.threads.length
  index : s.pc.Within s.threads.length →
    s'.pc.index s.threads.length = s.pc.index s.threads.length + 1
  stays : ∀ (t : Nat) w', s'.threads[t]? = some w' → ∃ w, s.threads[t]? = some w ∧ Stays w w'
  begun : s'.begun = s.begun ∨ ∃ tid, tid < s.threads.length ∧ s.pc = .delete .condDestroy tid ∧
    s'.begun = s.begun ++ [tid]

theorem Destructs.advances (h : Destructs s s') : Advances s s' := by
  have hself : ∀ (t : Nat) w', s.threads[t]? = some w' →
      ∃ w, s.threads[t]? = some w ∧ Stays w w' := fun _ w' hw => ⟨w', hw, .inl rfl⟩
  have hlt : ∀ {t : Nat} {w}, s.threads[t]? = some w → t < s.threads.length := fun hw =>
    (List.getElem?_eq_some_iff.mp hw).1
  cases h with
  | mutexDestroy hpc | mutexAttrDestroy hpc =>
    exact ⟨rfl, fun _ => trivial, fun _ => by rw [hpc]; rfl, hself, .inl rfl⟩
  | condDestroy hpc =>
    exact ⟨rfl, fun _ => ShutdownPc.within_wake (Nat.zero_le _), fun _ => by rw [hpc]; rfl, hself,
      .inl rfl⟩
  | lock hpc hw | tell hpc hw | unlock hpc hw =>
    exact ⟨List.length_set, fun _ => .inl (hlt hw), fun _ => by rw [hpc]; rfl,
      stays_set hw (.inl rfl), .inl rfl⟩
  | incPpt hpc ht =>
    exact ⟨rfl, fun _ => .inl ht, fun _ => by rw [hpc]; rfl, hself, .inl rfl⟩
  | @signal tid w hpc hw =>
    refine ⟨List.length_set, fun _ => ShutdownPc.within_wake (hlt hw), fun _ => ?_,
      stays_set hw (.signal w), .inl rfl⟩
    rw [hpc]
    simp only [ShutdownPc.index, WakePc.index]
    omega
  | @woken p tid hpc hle =>
    refine ⟨rfl, fun _ => ShutdownPc.within_delete (Nat.zero_le _), fun hin => ?_, hself, .inl rfl⟩
    rw [hpc] at hin ⊢
    obtain hlt | ⟨heq, rfl⟩ := hin
    · omega
    · simp only [ShutdownPc.index, WakePc.index, DeletePc.index]
      omega
  | delete hpc ht =>
    exact ⟨rfl, fun _ => .inl ht, fun _ => by rw [hpc]; rfl, hself, .inr ⟨_, ht, hpc, rfl⟩⟩
  | stateLock hpc ht | mutexAttr hpc ht =>
    exact ⟨rfl, fun _ => .inl ht, fun _ => by rw [hpc]; rfl, hself, .inl rfl⟩
  | taskQueue hpc ht =>
    refine ⟨rfl, fun _ => ShutdownPc.within_delete ht, fun _ => ?_, hself, .inl rfl⟩
    rw [hpc]
    simp only [ShutdownPc.index, DeletePc.index]
    omega
  | @deleted p tid hpc hle =>
    refine ⟨rfl, fun _ => trivial, fun hin => ?_, hself, .inl rfl⟩
    rw [hpc] at hin ⊢
    obtain hlt | ⟨heq, rfl⟩ := hin
    · omega
    · simp only [ShutdownPc.index, DeletePc.index]
      omega

/-! ## Where the workers are after an interleaving -/

theorem stepsSince_append {t : Nat} (h : unlockEnd t ≤ ls.count .destructor) (l : ShutdownLabel) :
    stepsSince t (ls ++ [l]) = stepsSince t ls + if l = .worker t then 1 else 0 := by
  unfold stepsSince
  rw [afterNth_append_of_le h, List.count_append, List.count_singleton]
  simp only [beq_iff_eq]

theorem stepsSince_unlock {t : Nat} (h : ls.count .destructor + 1 = unlockEnd t) :
    stepsSince t (ls ++ [.destructor]) = 0 := by
  unfold stepsSince
  rw [afterNth_append_self h]
  rfl

/-- After the steps `ls`. The destructor is where their number has brought it, a worker that it has
    told to exit has made its steps since then, and one that it has not told is still in `wait`. -/
structure Paced (threads : List WorkerThread) (ls : List ShutdownLabel) (s : Shutdown) : Prop where
  inv : Inv s
  length : s.threads.length = threads.length
  within : s.pc.Within threads.length
  count : ls.count .destructor = s.pc.index threads.length
  told : ∀ t w₀ w, threads[t]? = some w₀ → s.threads[t]? = some w →
    unlockEnd t ≤ ls.count .destructor → stepsSince t ls + w.pc.stepsLeft = w₀.pc.stepsLeft
  untold : ∀ t w₀ w, threads[t]? = some w₀ → s.threads[t]? = some w →
    ls.count .destructor < unlockEnd t → ∃ p caller, w.pc = .wait p caller ∧
      w₀.pc = .wait .asleep caller

theorem paced_start (n : Nat) (h : ∀ t w, threads[t]? = some w → Asleep t w) :
    Paced threads [] (start threads n) where
  inv := inv_start n h
  length := rfl
  within := trivial
  count := rfl
  told t w₀ w _ _ hle := by
    simp only [List.count_nil, unlockEnd] at hle
    omega
  untold t w₀ w hw₀ hw _ := by
    obtain rfl : w₀ = w := Option.some.inj (hw₀.symm.trans hw)
    obtain ⟨caller, hp⟩ := (h t w₀ hw₀).place
    exact ⟨_, caller, hp, hp⟩

namespace Paced

theorem released_iff (h : Paced threads ls s) {t : Nat} (ht : t < threads.length) :
    (s.pc.stage t).released = true ↔ unlockEnd t ≤ ls.count .destructor := by
  rw [h.count]
  exact ShutdownPc.released_iff h.within ht

theorem destructor (h : Paced threads ls s) (hs : step .destructor s = some s') :
    Paced threads (ls ++ [.destructor]) s' := by
  have hd := (step_destructs h.inv hs).advances
  have hcount : (ls ++ [ShutdownLabel.destructor]).count .destructor =
      ls.count .destructor + 1 := by
    simp
  have hin : s.pc.Within s.threads.length := h.length ▸ h.within
  refine ⟨h.inv.step hs, hd.length.trans h.length, h.length ▸ hd.within hin, ?_,
    fun t w₀ w' hw₀ hw' hle => ?_, fun t w₀ w' hw₀ hw' hlt => ?_⟩
  · rw [hcount, h.count, ← h.length, hd.index hin]
  · obtain ⟨w, hw, hst⟩ := hd.stays t w' hw'
    rw [hst.stepsLeft]
    by_cases hbefore : unlockEnd t ≤ ls.count .destructor
    · rw [stepsSince_append hbefore, if_neg (by simp), Nat.add_zero]
      exact h.told t w₀ w hw₀ hw hbefore
    · -- this step is the unlock
      have hlast : ls.count .destructor + 1 = unlockEnd t := by omega
      obtain ⟨p, caller, hp, hp₀⟩ := h.untold t w₀ w hw₀ hw (by omega)
      have hat := h.inv t w hw
      rw [ShutdownPc.stage_told h.within (List.getElem?_eq_some_iff.mp hw₀).1
        (by rw [← h.count]; exact hlast)] at hat
      rw [stepsSince_unlock hlast, hat.stepsLeft_told hp, hp₀, Nat.zero_add]
      rfl
  · obtain ⟨w, hw, hst⟩ := hd.stays t w' hw'
    obtain ⟨p, caller, hp, hp₀⟩ := h.untold t w₀ w hw₀ hw (by omega)
    obtain ⟨p', hp'⟩ := hst.wait hp
    exact ⟨p', caller, hp', hp₀⟩

/-- A step of one worker, or its wake-up. -/
theorem setThread (h : Paced threads ls s) {tid n : Nat} {w w' : WorkerThread}
    (hw : s.threads[tid]? = some w) (hl : l ≠ .destructor) (hother : ∀ t, l = .worker t → t = tid)
    (hinv : Inv { s with threads := s.threads.set tid w', pendingThreads := n })
    (htold : (s.pc.stage tid).released = true →
      w'.pc.stepsLeft + (if l = .worker tid then 1 else 0) = w.pc.stepsLeft)
    (huntold : (s.pc.stage tid).released = false → ∀ p caller, w.pc = .wait p caller →
      ∃ p', w'.pc = .wait p' caller) :
    Paced threads (ls ++ [l]) { s with threads := s.threads.set tid w', pendingThreads := n } := by
  have hcount : (ls ++ [l]).count .destructor = ls.count .destructor := by
    simp [hl]
  have hrel : ∀ {t : Nat} {w₀ : WorkerThread}, threads[t]? = some w₀ →
      ((s.pc.stage t).released = true ↔ unlockEnd t ≤ ls.count .destructor) := fun hw₀ =>
    h.released_iff (List.getElem?_eq_some_iff.mp hw₀).1
  refine ⟨hinv, List.length_set.trans h.length, h.within, hcount.trans h.count,
    fun t w₀ w₁ hw₀ hw₁ hle => ?_, fun t w₀ w₁ hw₀ hw₁ hlt => ?_⟩
  · rw [hcount] at hle
    rw [stepsSince_append hle]
    rcases getElem?_set_cases hw₁ with ⟨rfl, rfl⟩ | ⟨hne, hw₁⟩
    · have hold := h.told t w₀ w hw₀ hw hle
      have hnew := htold ((hrel hw₀).mpr hle)
      omega
    · rw [if_neg fun heq => hne (hother t heq), Nat.add_zero]
      exact h.told t w₀ w₁ hw₀ hw₁ hle
  · rw [hcount] at hlt
    rcases getElem?_set_cases hw₁ with ⟨rfl, rfl⟩ | ⟨-, hw₁⟩
    · obtain ⟨p, caller, hp, hp₀⟩ := h.untold t w₀ w hw₀ hw hlt
      have hg : (s.pc.stage t).released = false :=
        Bool.eq_false_iff.mpr fun hg => absurd ((hrel hw₀).mp hg) (by omega)
      obtain ⟨p', hp'⟩ := huntold hg p caller hp
      exact ⟨p', caller, hp', hp₀⟩
    · exact h.untold t w₀ w₁ hw₀ hw₁ hlt

theorem step (h : Paced threads ls s) (hs : step l s = some s') : Paced threads (ls ++ [l]) s' := by
  have hinv := h.inv.step hs
  cases l with
  | destructor => exact h.destructor hs
  | worker tid =>
    obtain ⟨w, w', e, n, hw, hw', rfl⟩ := step_worker hs
    have hat := h.inv tid w hw
    refine h.setThread hw (by simp) (fun t ht => (ShutdownLabel.worker.inj ht).symm) hinv
      (fun hg => ?_) fun hg p caller hp => hat.wait_step hg hp hw'
    rw [if_pos rfl]
    exact hat.stepsLeft_step hg hw'
  | spurious tid =>
    obtain ⟨w, w', hw, hw', rfl⟩ := step_spurious hs
    have hst : Stays w w' := .inr (WorkerThread.wakeUp_pc hw')
    exact h.setThread hw (by simp) (by simp) hinv (fun _ => hst.stepsLeft)
      fun _ p caller hp => hst.wait hp

end Paced

/-! ## Objects that are gone -/

theorem Exited.not_step {tid : Nat} (h : s.Exited tid) :
    step (.worker tid) s = none ∧ step (.spurious tid) s = none := by
  obtain ⟨w, hw, hpc⟩ := Option.map_eq_some_iff.mp h
  have hwake : w.wakeUp = none := by
    unfold WorkerThread.wakeUp
    rw [hpc]
  have hstep : w.step tid s.pendingThreads = none := by
    unfold WorkerThread.step
    rw [hpc]
  constructor
  · simp [step, hw, hstep]
  · simp [step, hw, hwake]

/-- The next step of the destructor begins to destroy the object of a worker that is still in the
    loop. -/
def DeletesEarly (s : Shutdown) : Prop :=
  ∃ tid, tid < s.threads.length ∧ s.pc = .delete .condDestroy tid ∧ ¬ s.Exited tid

/-- After any steps, this is a matter of their order. -/
theorem Paced.early_iff (h : Paced threads ls s) :
    s.DeletesEarly ↔ ∃ tid : Fin threads.length,
      ls.count .destructor = deleteStart threads.length tid ∧
        stepsSince tid ls < threads[tid].pc.stepsLeft := by
  have hlate : ∀ tid : Fin threads.length,
      ls.count .destructor = deleteStart threads.length tid →
        (s.Exited tid ↔ threads[tid].pc.stepsLeft ≤ stepsSince tid ls) := by
    intro tid hcount
    have hlt : tid.val < s.threads.length := h.length.symm ▸ tid.isLt
    have hw₀ : threads[tid.val]? = some threads[tid] := List.getElem?_eq_getElem tid.isLt
    have hw : s.threads[tid.val]? = some s.threads[tid.val] := List.getElem?_eq_getElem hlt
    have hpc : s.pc = .delete .condDestroy tid :=
      (ShutdownPc.delete_iff h.within tid.isLt).mpr (h.count.symm.trans hcount)
    have hat := h.inv tid _ hw
    rw [hpc] at hat
    have hsteps := h.told tid _ _ hw₀ hw (by rw [hcount]; unfold deleteStart unlockEnd; omega)
    rw [Exited, hw, Option.map_some, Option.some.injEq, hat.exited_iff]
    omega
  constructor
  · rintro ⟨tid, hlt, hpc, hne⟩
    rw [h.length] at hlt
    have hcount := h.count.trans ((ShutdownPc.delete_iff h.within hlt).mp hpc)
    exact ⟨⟨tid, hlt⟩, hcount, Nat.lt_of_not_le fun hle => hne ((hlate ⟨tid, hlt⟩ hcount).mpr hle)⟩
  · rintro ⟨tid, hcount, hsteps⟩
    refine ⟨tid, h.length.symm ▸ tid.isLt, (ShutdownPc.delete_iff h.within tid.isLt).mpr
      (h.count.symm.trans hcount), fun hex => ?_⟩
    exact absurd ((hlate tid hcount).mp hex) (Nat.not_le_of_lt hsteps)

/-- Every object that is gone belonged to a worker that has left the loop. -/
def Gone (s : Shutdown) : Prop := ∀ tid ∈ s.begun, s.Exited tid

theorem Exited.setThread {tid t n : Nat} {w w' : WorkerThread} (h : s.Exited t)
    (hw : s.threads[tid]? = some w) (hne : w.pc ≠ .exited) :
    Exited { s with threads := s.threads.set tid w', pendingThreads := n } t := by
  have ht : tid ≠ t := by
    rintro rfl
    rw [Exited, hw] at h
    exact hne (Option.some.inj h)
  unfold Exited
  rw [List.getElem?_set_ne ht]
  exact h

theorem Exited.destructor {t : Nat} (h : s.Exited t) (hd : Advances s s') : s'.Exited t := by
  obtain ⟨w₀, hw₀, hp⟩ := Option.map_eq_some_iff.mp h
  have hlt : t < s'.threads.length := hd.length ▸ (List.getElem?_eq_some_iff.mp hw₀).1
  have hw' : s'.threads[t]? = some s'.threads[t] := List.getElem?_eq_getElem hlt
  obtain ⟨w, hw, hst⟩ := hd.stays t _ hw'
  obtain rfl : w₀ = w := Option.some.inj (hw₀.symm.trans hw)
  rw [Exited, hw', Option.map_some, hst.exited hp]

theorem Gone.step (h : Gone s) (hinv : Inv s) (hl : l = .destructor → ¬ s.DeletesEarly)
    (hs : step l s = some s') : Gone s' := by
  cases l with
  | destructor =>
    have hd := (step_destructs hinv hs).advances
    intro t ht
    refine Exited.destructor ?_ hd
    rcases hd.begun with hb | ⟨tid, hlt, hpc, hb⟩
    · exact h t (hb ▸ ht)
    · rw [hb, List.mem_append, List.mem_singleton] at ht
      rcases ht with ht | rfl
      · exact h t ht
      · by_contra hne
        exact hl rfl ⟨t, hlt, hpc, hne⟩
  | worker tid =>
    obtain ⟨w, w', e, n, hw, hw', rfl⟩ := step_worker hs
    refine fun t ht => (h t ht).setThread hw fun hp => ?_
    rw [WorkerThread.step, hp] at hw'
    cases hw'
  | spurious tid =>
    obtain ⟨w, w', hw, hw', rfl⟩ := step_spurious hs
    refine fun t ht => (h t ht).setThread hw fun hp => ?_
    rw [WorkerThread.wakeUp, hp] at hw'
    cases hw'

/-- The worker of an object that is destroyed early can go on in it. -/
theorem step_of_early (h : Inv s) (hl : s.DeletesEarly) (hs : step .destructor s = some s') :
    ∃ tid ∈ s'.begun, ∃ s'', step (.worker tid) s' = some s'' := by
  obtain ⟨tid, hlt, hpc, hne⟩ := hl
  have hw : s.threads[tid]? = some s.threads[tid] := List.getElem?_eq_getElem hlt
  have hat := h tid _ hw
  rw [hpc] at hat
  have hdel : some { s with begun := s.begun ++ [tid], pc := .delete .stateLockDestroy tid } =
      some s' := by
    simpa [step, destructorStep, hpc, deleteStep, hlt] using hs
  cases hdel
  have hexit : s.threads[tid].pc ≠ .exited := fun hp =>
    hne (by rw [Exited, hw, Option.map_some, hp])
  obtain ⟨w', e, hstep⟩ := hat.exists_step hexit s.pendingThreads
  refine ⟨tid, by simp, Shutdown.apply { s with
    threads := s.threads.set tid w', begun := s.begun ++ [tid]
    pc := .delete .stateLockDestroy tid } e, ?_⟩
  simp [step, hw, hstep]

section Order

variable {pendingThreads : Nat}

theorem paced_run (h₀ : ∀ t w, threads[t]? = some w → Asleep t w)
    (hrun : run step ls (start threads pendingThreads) = some s) : Paced threads ls s :=
  run_history hrun (paced_start pendingThreads h₀) fun _ _ _ _ hp hs => hp.step hs

/-- The condition on the order, at the states between the steps. -/
theorem leavesInTime_iff (h₀ : ∀ t w, threads[t]? = some w → Asleep t w)
    (hrun : run step ls (start threads pendingThreads) = some s) :
    LeavesInTime threads ls ↔ ∀ i s₁, ls[i]? = some .destructor →
      run step (ls.take i) (start threads pendingThreads) = some s₁ → ¬ s₁.DeletesEarly := by
  constructor
  · intro h i s₁ hi hrun₁ hearly
    obtain ⟨tid, hcount, hlt⟩ := (paced_run h₀ hrun₁).early_iff.mp hearly
    exact absurd (h i (List.getElem?_eq_some_iff.mp hi).1 hi tid hcount) (Nat.not_le_of_lt hlt)
  · intro h i _ hi tid hcount
    obtain ⟨s₁, -, hrun₁, -, -⟩ := run_take hrun hi
    by_contra hlt
    exact h i s₁ hi hrun₁
      ((paced_run h₀ hrun₁).early_iff.mpr ⟨tid, hcount, Nat.lt_of_not_le hlt⟩)

theorem gone_of_leavesInTime (h₀ : ∀ t w, threads[t]? = some w → Asleep t w)
    (hrun : run step ls (start threads pendingThreads) = some s) (h : LeavesInTime threads ls)
    (i : Nat) {s₁ : Shutdown}
    (hrun₁ : run step (ls.take i) (start threads pendingThreads) = some s₁) : Gone s₁ := by
  rw [leavesInTime_iff h₀ hrun] at h
  induction i generalizing s₁ with
  | zero =>
    cases hrun₁
    exact nofun
  | succ i ih =>
    cases hi : ls[i]? with
    | none =>
      rw [List.take_add_one, hi, Option.toList_none, List.append_nil] at hrun₁
      exact ih hrun₁
    | some l =>
      obtain ⟨s₂, s₃, hrun₂, hs, hrun₃⟩ := run_take hrun hi
      obtain rfl : s₃ = s₁ := Option.some.inj (hrun₃.symm.trans hrun₁)
      exact (ih hrun₂).step (paced_run h₀ hrun₂).inv (fun hl => h i s₂ (hl ▸ hi) hrun₂) hs

/-- Any number of workers, asleep in `wait`, and any interleaving `ls` with the destructor: at no
    point of it can a worker take a step in an object whose destruction has begun, exactly if each
    worker has made its last steps before the destructor comes to its object. -/
theorem destroyed_after_exit (h₀ : ∀ t w, threads[t]? = some w → Asleep t w)
    (hrun : run step ls (start threads pendingThreads) = some s) :
    LeavesInTime threads ls ↔
      ∀ i s₁, run step (ls.take i) (start threads pendingThreads) = some s₁ →
        ∀ tid ∈ s₁.begun, s₁.Exited tid ∧ step (.worker tid) s₁ = none ∧
          step (.spurious tid) s₁ = none := by
  constructor
  · intro h i s₁ hrun₁ tid ht
    have hex := gone_of_leavesInTime h₀ hrun h i hrun₁ tid ht
    exact ⟨hex, hex.not_step⟩
  · intro h
    rw [leavesInTime_iff h₀ hrun]
    intro i s₁ hi hrun₁ hearly
    obtain ⟨s₂, s₃, hrun₂, hs, hrun₃⟩ := run_take hrun hi
    obtain rfl : s₂ = s₁ := Option.some.inj (hrun₂.symm.trans hrun₁)
    obtain ⟨tid, ht, s₄, hs₄⟩ := step_of_early (paced_run h₀ hrun₂).inv hearly hs
    have hnone := (h (i + 1) s₃ hrun₃ tid ht).2.1
    rw [hs₄] at hnone
    cases hnone

end Order

/-- A worker that has initialised and fallen asleep. -/
def sleeper : WorkerThread := ⟨.wait, .new, ⟨[], .new⟩, .wait .asleep .callback⟩

theorem asleep_sleeper {n t : Nat} {w : WorkerThread}
    (hw : (List.replicate n sleeper)[t]? = some w) : Asleep t w := by
  obtain rfl : w = sleeper := List.eq_of_mem_replicate (List.mem_of_getElem? hw)
  exact ⟨⟨_, rfl⟩, rfl, nofun, nofun⟩

/-- Two workers are woken. The first leaves the loop before any object is deleted, the second only
    while the object of the first is being deleted. -/
def orderly : List ShutdownLabel :=
  bursts [(8, .destructor), (3, .worker 0), (6, .destructor), (1, .worker 0), (2, .worker 1),
    (3, .destructor), (2, .worker 1), (6, .destructor)]

theorem destroyed_after_exit_two :
    LeavesInTime (List.replicate 2 sleeper) orderly ∧
      ∃ s, run step orderly (start (List.replicate 2 sleeper) 0) = some s ∧ s.pc = .done ∧
        s.begun = [0, 1] ∧
        ∀ i s₁, run step (orderly.take i) (start (List.replicate 2 sleeper) 0) = some s₁ →
          ∀ tid ∈ s₁.begun, s₁.Exited tid ∧ step (.worker tid) s₁ = none ∧
            step (.spurious tid) s₁ = none := by
  have htime : LeavesInTime (List.replicate 2 sleeper) orderly := by decide +kernel
  have hrun : (run step orderly (start (List.replicate 2 sleeper) 0)).map
      (fun s => (s.pc, s.begun)) = some (.done, [0, 1]) := by
    decide +kernel
  obtain ⟨s, hs, heq⟩ := Option.map_eq_some_iff.mp hrun
  simp only [Prod.mk.injEq] at heq
  exact ⟨htime, s, hs, heq.1, heq.2, (destroyed_after_exit (fun _ _ => asleep_sleeper) hs).mp htime⟩

/-- One worker: the destructor runs to its end before the worker wakes up. -/
theorem step_after_delete_one :
    Asleep 0 sleeper ∧ ¬ LeavesInTime [sleeper] (List.replicate 14 .destructor) ∧
      ∃ s s', run step (List.replicate 14 .destructor) (start [sleeper] 0) = some s ∧
        s.pc = .done ∧ 0 ∈ s.begun ∧ step (.worker 0) s = some s' :=
  ⟨asleep_sleeper (n := 1) rfl, by decide +kernel, _, _, rfl, rfl, by decide, rfl⟩

end Shutdown

end Monya.Structures
