/-
  A task queue that any number of threads use (`structures/TaskQueue.cpp`).

  A locked section is one step here; `dequeueStep_section` says so of the steps of a worker. The
  emptiness test of `dequeue` is made without the lock and is a step of its own, so between it and
  the locked section other threads may take the nodes that it saw.

  `fifo_unless_overdrawn` says when this goes wrong: exactly when a thread gets past its test while
  the threads that are past theirs can already take every node. Without such a step the queue is a
  FIFO, and each such step can lead to a `front` of an empty queue. With one consumer, as each queue
  of the thread pool has, there is no such step (`single_consumer`).
-/
import Monya.Structures.WorkerThread

namespace Monya.Structures

open Monya.Lib

/-! ## The locked sections -/

namespace BuildTaskQueue

def hasTask (q : BuildTaskQueue) : Bool := !q.tasks.isEmpty

/-- `enqueue`, of one node. -/
def enqueue (q : BuildTaskQueue) (runnable : Nat) : BuildTaskQueue :=
  { q with tasks := q.tasks ++ [runnable] }

/-- `enqueue`, of a batch. -/
def enqueueBatch (q : BuildTaskQueue) (runnables : List Nat) : BuildTaskQueue :=
  runnables.foldl enqueue q

/-- The locked section of `dequeue`. `front` of an empty queue is undefined. -/
def takeFront (q : BuildTaskQueue) : Option (Nat × BuildTaskQueue) :=
  match q.tasks with
  | [] => none
  | x :: xs => some (x, { q with tasks := xs })

theorem enqueueBatch_tasks (q : BuildTaskQueue) (xs : List Nat) :
    (q.enqueueBatch xs).tasks = q.tasks ++ xs := by
  unfold enqueueBatch
  induction xs generalizing q with
  | nil => exact (List.append_nil _).symm
  | cons x xs ih =>
    rw [List.foldl_cons, ih]
    simp [enqueue]

end BuildTaskQueue

/-- The steps of a worker from the lock to its release, when nobody comes between them. -/
theorem dequeueStep_section {w : WorkerThread} (tid : Nat) {x : Nat} {q : BuildTaskQueue}
    (hfree : w.taskQueue.mutex = .new) (hx : w.taskQueue.takeFront = some (x, q)) :
    ((w.dequeueStep tid .acquire).bind fun p₁ => (p₁.1.dequeueStep tid .pop).bind fun p₂ =>
      p₂.1.dequeueStep tid (.release x)) =
        some ({ w with taskQueue := q, pc := .prep x }, .silent) := by
  obtain ⟨state, sl, ⟨tasks, m⟩, pc⟩ := w
  obtain rfl : m = .new := hfree
  cases tasks with
  | nil => cases hx
  | cons y ys =>
    cases hx
    simp [WorkerThread.dequeueStep, Mutex.lock, Mutex.unlock, Mutex.new]

/-! ## Threads that share a queue -/

/-- Where a thread is: outside the queue's functions, or past the emptiness test of `dequeue`. -/
inductive CallerPc where
  | idle
  | pastTest
  deriving DecidableEq, Repr

/-- The next step of a thread. -/
inductive QueueStep where
  | hasTask
  | enqueue (runnable : Nat)
  | enqueueBatch (runnables : List Nat)
  | testEmpty
  | takeFront
  deriving DecidableEq, Repr

/-- What the calls were given and what they have returned. `dequeue` returns `none` for `NULL`. -/
inductive QueueEvent where
  | hasTask (caller : Nat) (answer : Bool)
  | enqueue (runnables : List Nat)
  | dequeue (caller : Nat) (node : Option Nat)
  deriving DecidableEq, Repr

/-- The nodes that have been enqueued, in this order. -/
def enqueued (history : List QueueEvent) : List Nat :=
  history.flatMap fun e => match e with
    | .enqueue xs => xs
    | _ => []

/-- The nodes that `dequeue` has returned, one from each call that did not return `NULL`. -/
def returned (history : List QueueEvent) : List Nat :=
  history.filterMap fun e => match e with
    | .dequeue _ node => node
    | _ => none

theorem enqueued_append (h h' : List QueueEvent) :
    enqueued (h ++ h') = enqueued h ++ enqueued h' := List.flatMap_append

theorem returned_append (h h' : List QueueEvent) :
    returned (h ++ h') = returned h ++ returned h' := List.filterMap_append

structure SharedQueue where
  queue : BuildTaskQueue
  callers : List CallerPc
  history : List QueueEvent
  frontOfEmpty : Bool
  deriving DecidableEq, Repr

namespace SharedQueue

/-- A new queue, and `T` threads. -/
def new (T : Nat) : SharedQueue := ⟨⟨[], .new⟩, List.replicate T .idle, [], false⟩

def step (l : Nat × QueueStep) (s : SharedQueue) : Option SharedQueue :=
  if s.frontOfEmpty then none
  else match l.2, s.callers[l.1]? with
    | .hasTask, some .idle =>
        some { s with history := s.history ++ [.hasTask l.1 s.queue.hasTask] }
    | .enqueue x, some .idle =>
        some { s with queue := s.queue.enqueue x, history := s.history ++ [.enqueue [x]] }
    | .enqueueBatch xs, some .idle =>
        some { s with queue := s.queue.enqueueBatch xs, history := s.history ++ [.enqueue xs] }
    | .testEmpty, some .idle =>
        if s.queue.tasks = [] then
          some { s with history := s.history ++ [.dequeue l.1 none] }
        else some { s with callers := s.callers.set l.1 .pastTest }
    | .takeFront, some .pastTest =>
        match s.queue.takeFront with
        | none => some { s with frontOfEmpty := true }
        | some (x, q) => some { s with
            queue := q
            callers := s.callers.set l.1 .idle
            history := s.history ++ [.dequeue l.1 (some x)] }
    | _, _ => none

/-- The threads that will take a node. -/
def pending (s : SharedQueue) : Nat := s.callers.count .pastTest

/-- The next step is an emptiness test that passes, and there is no node left for its thread. -/
def Overdrawn (l : Nat × QueueStep) (s : SharedQueue) : Prop :=
  l.2 = .testEmpty ∧ s.callers[l.1]? = some .idle ∧ s.queue.tasks ≠ [] ∧
    s.queue.tasks.length ≤ s.pending

instance (l : Nat × QueueStep) (s : SharedQueue) : Decidable (Overdrawn l s) :=
  inferInstanceAs (Decidable (_ ∧ _ ∧ _ ∧ _))

/-! ## What a step can do -/

/-- A step of one of the threads. -/
inductive Moves (l : Nat × QueueStep) (s : SharedQueue) : SharedQueue → Prop where
  | ask (b : Bool) : Moves l s { s with history := s.history ++ [.hasTask l.1 b] }
  | empty : Moves l s { s with history := s.history ++ [.dequeue l.1 none] }
  | enqueue (xs : List Nat) : Moves l s
      { s with queue := s.queue.enqueueBatch xs, history := s.history ++ [.enqueue xs] }
  | pass (hl : l.2 = .testEmpty) (hc : s.callers[l.1]? = some .idle) (hq : s.queue.tasks ≠ []) :
      Moves l s { s with callers := s.callers.set l.1 .pastTest }
  | fail (hc : s.callers[l.1]? = some .pastTest) (hq : s.queue.tasks = []) :
      Moves l s { s with frontOfEmpty := true }
  | take (x : Nat) (xs : List Nat) (hc : s.callers[l.1]? = some .pastTest)
      (hq : s.queue.tasks = x :: xs) :
      Moves l s { s with
        queue := { s.queue with tasks := xs }
        callers := s.callers.set l.1 .idle
        history := s.history ++ [.dequeue l.1 (some x)] }

variable {l : Nat × QueueStep} {s s' : SharedQueue}

theorem moves_of_step (h : step l s = some s') : s.frontOfEmpty = false ∧ Moves l s s' := by
  unfold step at h
  split at h
  · cases h
  · next hf =>
    refine ⟨by simpa using hf, ?_⟩
    split at h
    · cases h
      exact .ask _
    · cases h
      exact .enqueue [_]
    · cases h
      exact .enqueue _
    · next hl hc =>
      split at h
      · cases h
        exact .empty
      · next hq =>
        cases h
        exact .pass hl hc hq
    · next hl hc =>
      cases hq : s.queue.tasks with
      | nil =>
        simp only [BuildTaskQueue.takeFront, hq] at h
        cases h
        exact .fail hc hq
      | cons x xs =>
        simp only [BuildTaskQueue.takeFront, hq] at h
        cases h
        exact .take x xs hc hq
    · cases h

/-- A thread gets past its test. -/
theorem pending_pass {t : Nat} (hc : s.callers[t]? = some .idle) :
    (s.callers.set t .pastTest).count .pastTest = s.pending + 1 := by
  obtain ⟨ht, hget⟩ := List.getElem?_eq_some_iff.mp hc
  rw [List.count_set ht, hget]
  rfl

/-- A thread that is past its test takes its node. -/
theorem pending_take {t : Nat} (hc : s.callers[t]? = some .pastTest) :
    (s.callers.set t .idle).count .pastTest + 1 = s.pending := by
  obtain ⟨ht, hget⟩ := List.getElem?_eq_some_iff.mp hc
  have hpos : 0 < s.pending := List.count_pos_iff.mpr (List.mem_of_getElem? hc)
  rw [List.count_set ht, hget]
  exact Nat.sub_add_cancel hpos

/-! ## The order of the nodes -/

/-- The nodes leave in the order in which they came, each once, and the rest is in the queue. -/
def Ordered (s : SharedQueue) : Prop :=
  enqueued s.history = returned s.history ++ s.queue.tasks

theorem Ordered.step (h : Ordered s) (hs : step l s = some s') : Ordered s' := by
  have h : enqueued s.history = returned s.history ++ s.queue.tasks := h
  obtain ⟨-, hm⟩ := moves_of_step hs
  cases hm with
  | ask | empty =>
    unfold Ordered
    rw [enqueued_append, returned_append, h]
    simp [enqueued, returned]
  | enqueue xs =>
    unfold Ordered
    rw [enqueued_append, returned_append, BuildTaskQueue.enqueueBatch_tasks, h]
    simp [enqueued, returned]
  | pass => exact h
  | fail => exact h
  | take x xs hc hq =>
    unfold Ordered
    rw [enqueued_append, returned_append, h, hq]
    simp [enqueued, returned]

/-! ## Every thread past its test has a node -/

structure Covered (s : SharedQueue) : Prop where
  ok : s.frontOfEmpty = false
  nodes : s.pending ≤ s.queue.tasks.length

theorem Covered.step (h : Covered s) (hl : ¬ Overdrawn l s) (hs : step l s = some s') :
    Covered s' := by
  have hn := h.nodes
  obtain ⟨-, hm⟩ := moves_of_step hs
  cases hm with
  | ask b => exact ⟨h.ok, hn⟩
  | empty => exact ⟨h.ok, hn⟩
  | enqueue xs =>
    refine ⟨h.ok, ?_⟩
    show s.pending ≤ (s.queue.enqueueBatch xs).tasks.length
    rw [BuildTaskQueue.enqueueBatch_tasks, List.length_append]
    omega
  | pass hl' hc hq =>
    refine ⟨h.ok, ?_⟩
    have hlt : s.pending < s.queue.tasks.length :=
      Nat.lt_of_not_le fun hle => hl ⟨hl', hc, hq, hle⟩
    have hset := pending_pass hc
    show (s.callers.set l.1 .pastTest).count .pastTest ≤ s.queue.tasks.length
    omega
  | fail hc hq =>
    -- this thread is past its test, so the queue has a node for it
    have hpos : 0 < s.pending := List.count_pos_iff.mpr (List.mem_of_getElem? hc)
    rw [hq, List.length_nil] at hn
    omega
  | take x xs hc hq =>
    refine ⟨h.ok, ?_⟩
    have hset := pending_take hc
    rw [hq, List.length_cons] at hn
    show (s.callers.set l.1 .idle).count .pastTest ≤ xs.length
    omega

theorem covered_new (T : Nat) : Covered (new T) where
  ok := rfl
  nodes := by simp [new, pending, List.count_replicate]

/-! ## Too many threads past their test -/

/-- The threads past their test can take their nodes one after the other, and the last of them
    finds none. -/
theorem fails_of_pending (hok : s.frontOfEmpty = false) (h : s.queue.tasks.length < s.pending) :
    ∃ s', Reachable step s s' ∧ s'.frontOfEmpty = true := by
  induction hn : s.queue.tasks.length generalizing s with
  | zero =>
    obtain ⟨t, ht⟩ := List.mem_iff_getElem?.mp
      (List.count_pos_iff.mp (Nat.lt_of_le_of_lt (Nat.zero_le _) h))
    have hq : s.queue.tasks = [] := List.length_eq_zero_iff.mp hn
    refine ⟨{ s with frontOfEmpty := true }, ⟨[(t, .takeFront)], ?_⟩, rfl⟩
    simp [run, step, hok, ht, BuildTaskQueue.takeFront, hq]
  | succ n ih =>
    obtain ⟨t, ht⟩ := List.mem_iff_getElem?.mp
      (List.count_pos_iff.mp (Nat.lt_of_le_of_lt (Nat.zero_le _) h))
    obtain ⟨x, xs, hq⟩ := List.exists_cons_of_length_eq_add_one hn
    let s₁ : SharedQueue := { s with
      queue := { s.queue with tasks := xs }
      callers := s.callers.set t .idle
      history := s.history ++ [.dequeue t (some x)] }
    have hstep : step (t, .takeFront) s = some s₁ := by
      simp [step, hok, ht, BuildTaskQueue.takeFront, hq, s₁]
    have hset := pending_take ht
    have hlen : xs.length = n := by
      rw [hq, List.length_cons] at hn
      omega
    have hlt : s₁.queue.tasks.length < s₁.pending := by
      show xs.length < (s.callers.set t .idle).count .pastTest
      omega
    obtain ⟨s', ⟨ls, hls⟩, hfail⟩ := ih (s := s₁) hok hlt hlen
    exact ⟨s', ⟨(t, .takeFront) :: ls, by rw [run, hstep, Option.bind_some, hls]⟩, hfail⟩

theorem fails_of_overdrawn (h : Overdrawn l s) (hs : step l s = some s') :
    ∃ s'', Reachable step s' s'' ∧ s''.frontOfEmpty = true := by
  obtain ⟨hl, hc, hq, hle⟩ := h
  obtain ⟨hok, -⟩ := moves_of_step hs
  have hs' : { s with callers := s.callers.set l.1 .pastTest } = s' := by
    simpa [step, hok, hl, hc, hq] using hs
  have hset := pending_pass hc
  subst hs'
  refine fails_of_pending hok ?_
  show s.queue.tasks.length < (s.callers.set l.1 .pastTest).count .pastTest
  omega

/-- Any number of threads. In a run in which a thread gets past the emptiness test only when there
    are more nodes than threads past theirs, `front` is never taken of an empty queue, and the nodes
    leave in the order in which they came, each once. A test that passes in another state can be
    followed by a `front` of the empty queue. -/
theorem fifo_unless_overdrawn (T : Nat) :
    (∀ s, Reachable (only (fun l s => ¬ Overdrawn l s) step) (new T) s →
      s.frontOfEmpty = false ∧ enqueued s.history = returned s.history ++ s.queue.tasks) ∧
    (∀ l s s', Reachable step (new T) s → Overdrawn l s → step l s = some s' →
      ∃ s'', Reachable step s' s'' ∧ s''.frontOfEmpty = true) := by
  refine ⟨fun s h => ?_, fun l s s' _ hl hs => fails_of_overdrawn hl hs⟩
  have hboth : Covered s ∧ Ordered s := by
    refine h.invariant (I := fun s => Covered s ∧ Ordered s) ⟨covered_new T, rfl⟩ ?_
    intro l s s' hi hs
    obtain ⟨hl, hs⟩ := only_eq_some.mp hs
    exact ⟨hi.1.step hl hs, hi.2.step hs⟩
  exact ⟨hboth.1.ok, hboth.2⟩

/-- Two consumers, a batch of two nodes: the tests may both come before the locked sections. -/
theorem fifo_unless_overdrawn_two :
    ∃ s, Reachable (only (fun l s => ¬ Overdrawn l s) step) (new 2) s ∧
      returned s.history = [7, 8] ∧
      s.frontOfEmpty = false ∧ enqueued s.history = returned s.history ++ s.queue.tasks := by
  let ls : List (Nat × QueueStep) :=
    [(0, .enqueueBatch [7, 8]), (0, .testEmpty), (1, .testEmpty), (1, .takeFront), (0, .takeFront)]
  obtain ⟨s, hs, hr⟩ : ∃ s, run (only (fun l s => ¬ Overdrawn l s) step) ls (new 2) = some s ∧
      returned s.history = [7, 8] := ⟨_, rfl, rfl⟩
  exact ⟨s, ⟨ls, hs⟩, hr, (fifo_unless_overdrawn 2).1 s ⟨ls, hs⟩⟩

/-- Two threads find the only node, and both go on to take it. -/
theorem front_of_empty_two : ∃ s, Reachable step (new 2) s ∧ s.frontOfEmpty = true :=
  ⟨_, ⟨[(0, .enqueue 7), (0, .testEmpty), (1, .testEmpty), (0, .takeFront), (1, .takeFront)], rfl⟩,
    rfl⟩

/-! ## One consumer -/

/-- Nobody but `c` is past an emptiness test. -/
def OneConsumer (c : Nat) (s : SharedQueue) : Prop :=
  ∀ t, t ≠ c → s.callers[t]? ≠ some .pastTest

theorem OneConsumer.step {c : Nat} (h : OneConsumer c s) (hl : l.2 = .testEmpty → l.1 = c)
    (hs : step l s = some s') : OneConsumer c s' := by
  obtain ⟨-, hm⟩ := moves_of_step hs
  cases hm with
  | ask | empty | enqueue | fail => exact h
  | pass hl' hc hq =>
    intro t ht
    show (s.callers.set l.1 .pastTest)[t]? ≠ some .pastTest
    rw [List.getElem?_set_ne fun heq => ht (heq.symm.trans (hl hl'))]
    exact h t ht
  | take x xs hc hq =>
    intro t ht
    show (s.callers.set l.1 .idle)[t]? ≠ some .pastTest
    by_cases heq : l.1 = t
    · subst heq
      exact fun _ => h l.1 ht hc
    · rw [List.getElem?_set_ne heq]
      exact h t ht

/-- The one consumer finds every node it has seen. -/
theorem OneConsumer.not_overdrawn {c : Nat} (h : OneConsumer c s)
    (hl : l.2 = .testEmpty → l.1 = c) : ¬ Overdrawn l s := by
  rintro ⟨hl', hc, hq, hle⟩
  have hzero : s.pending = 0 := by
    refine List.count_eq_zero.mpr fun hmem => ?_
    obtain ⟨t, ht⟩ := List.mem_iff_getElem?.mp hmem
    by_cases heq : t = c
    · rw [heq, ← hl hl', hc] at ht
      cases ht
    · exact h t heq ht
  rw [hzero] at hle
  exact hq (List.length_eq_zero_iff.mp (Nat.le_zero.mp hle))

/-- With one consumer and any number of producers the test needs no lock. -/
theorem single_consumer (T c : Nat) {s : SharedQueue}
    (h : Reachable (only (fun l _ => l.2 = .testEmpty → l.1 = c) step) (new T) s) :
    Covered s ∧ Ordered s := by
  have hall : (Covered s ∧ Ordered s) ∧ OneConsumer c s := by
    refine h.invariant (I := fun s => (Covered s ∧ Ordered s) ∧ OneConsumer c s)
      ⟨⟨covered_new T, rfl⟩, ?_⟩ ?_
    · intro t _ ht
      have hmem := List.mem_of_getElem? ht
      rw [new, List.mem_replicate] at hmem
      cases hmem.2
    · intro l s s' hi hs
      obtain ⟨hl, hs⟩ := only_eq_some.mp hs
      exact ⟨⟨hi.1.1.step (hi.2.not_overdrawn hl) hs, hi.1.2.step hs⟩, hi.2.step hl hs⟩
  exact hall.1

end SharedQueue

end Monya.Structures
