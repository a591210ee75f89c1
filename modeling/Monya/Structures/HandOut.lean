/-
  The loop of `Scheduler::run_level` (`structures/Scheduler.cpp`) that hands the nodes of a level
  to the threads, `MIN_TASKS_PT` at a time.

  `ThreadPool` has the same loop cut into the steps that other threads can see. Here it is run as a
  whole: `handOut_returns` says which batches it makes, and `handOut_partition` that they are a
  partition of the level, in order, and that batch `b` goes to thread `b mod T`. `queues_handOut`
  joins the two: when the scheduling thread turns to `wake4run`, in any interleaving, the queues
  hold the batches of `handOut`.
-/
import Monya.Structures.PoolMoves

namespace Monya.Structures

open Monya.Lib

/-- The state of the loop; `batches` has what has been enqueued, each batch with its thread. -/
structure HandOut where
  taskIndex : Nat
  tid : CUnsigned
  batches : List (Nat × List Nat)

/-- One pass. `nthread` is `threads.size()`, which is the `unsigned` the scheduler was given. -/
def handOutStep (nthread : Nat) (levelNodes : List Nat) (s : HandOut) :
    Except Fault (Pass HandOut (List (Nat × List Nat))) :=
  let n := ntasks levelNodes s.taskIndex
  -- `threads[tid.get()]` and the nodes that `enqueue` copies from `&level_nodes[task_index]`
  if nthread ≤ s.tid.val ∨ levelNodes.length < s.taskIndex + n then .error .outOfBounds
  else
    let batches := s.batches ++ [(s.tid.val, (levelNodes.drop s.taskIndex).take n)]
    if s.taskIndex + n = levelNodes.length then .ok (.done batches)
    else .ok (.next ⟨s.taskIndex + n, s.tid.inc, batches⟩)

/-- `run_level`, up to `wake4run`. -/
def handOut (fuel nthread : Nat) (levelNodes : List Nat) :
    Except Fault (List (Nat × List Nat)) := do
  if levelNodes.length = 0 then .error .assertion
  else
    let tid ← CUnsigned.new nthread
    loop (handOutStep nthread levelNodes) fuel ⟨0, tid, []⟩

/-! ## The batches -/

section Batches

variable {nthread : Nat} {levelNodes : List Nat}

/-- Batch `b`. -/
def batch (nthread : Nat) (levelNodes : List Nat) (b : Nat) : Nat × List Nat :=
  (b % nthread, (levelNodes.drop (b * minTasksPt)).take minTasksPt)

/-- The number of batches: the last one may be short. -/
def nbatches (levelNodes : List Nat) : Nat := (levelNodes.length + minTasksPt - 1) / minTasksPt

theorem length_batch (nthread : Nat) (levelNodes : List Nat) (b : Nat) :
    (batch nthread levelNodes b).2.length =
      min minTasksPt (levelNodes.length - b * minTasksPt) := by
  unfold batch
  rw [List.length_take, List.length_drop]

/-- The nodes of a pass are those of its batch, also at the end of the level. -/
theorem take_ntasks {k : Nat} (hk : k < levelNodes.length) :
    (levelNodes.drop k).take (ntasks levelNodes k) = (levelNodes.drop k).take minTasksPt := by
  unfold ntasks
  split
  · rfl
  · rw [List.take_of_length_le (by rw [List.length_drop]),
      List.take_of_length_le (by rw [List.length_drop]; omega)]

theorem flatten_batches (k : Nat) :
    ((List.range k).map fun b => (batch nthread levelNodes b).2).flatten =
      levelNodes.take (k * minTasksPt) := by
  induction k with
  | zero => simp
  | succ k ih =>
    rw [List.range_succ, List.map_append, List.flatten_append, ih, Nat.succ_mul, List.take_add]
    simp [batch]

/-- The loop from batch `b` on. -/
theorem handOut_from {b m : Nat} (tid : CUnsigned) (hmax : tid.max = nthread)
    (htid : tid.val = b % nthread) (hb : b * minTasksPt < levelNodes.length)
    (hm : b + 1 + m = nbatches levelNodes) :
    Returns (fun fuel => loop (handOutStep nthread levelNodes) fuel
      ⟨b * minTasksPt, tid, (List.range b).map (batch nthread levelNodes)⟩)
      ((List.range (nbatches levelNodes)).map (batch nthread levelNodes)) := by
  induction m generalizing b tid with
  | zero =>
    -- at most eight nodes are left
    have hend : b * minTasksPt + ntasks levelNodes (b * minTasksPt) = levelNodes.length := by
      unfold nbatches at hm
      unfold ntasks
      unfold minTasksPt at hm hb ⊢
      split <;> omega
    refine returns_done ?_
    have hlt := tid.lt
    unfold handOutStep
    dsimp only
    rw [if_neg (by omega), take_ntasks hb, if_pos hend, ← hm, List.range_succ,
      List.map_append, htid]
    rfl
  | succ m ih =>
    have hfull : ntasks levelNodes (b * minTasksPt) = minTasksPt ∧
        (b + 1) * minTasksPt < levelNodes.length := by
      unfold nbatches at hm
      unfold ntasks
      unfold minTasksPt at hm hb ⊢
      rw [if_pos (by omega)]
      exact ⟨rfl, by omega⟩
    have hnext : (b + 1) * minTasksPt = b * minTasksPt + minTasksPt := Nat.succ_mul ..
    have hval : tid.inc.val = (b + 1) % nthread := by
      rw [tid.inc_val, htid, hmax, Nat.mod_add_mod]
    refine returns_next ?_ (ih tid.inc (tid.inc_max.trans hmax) hval hfull.2 (by omega))
    have hlt := tid.lt
    unfold handOutStep
    dsimp only
    rw [if_neg (by rw [hfull.1]; omega), take_ntasks hb, hfull.1, if_neg (by omega),
      List.range_succ, List.map_append, htid, hnext]
    rfl

theorem handOut_returns (hn : 1 ≤ levelNodes.length) (hT : 1 ≤ nthread) :
    Returns (fun fuel => handOut fuel nthread levelNodes)
      ((List.range (nbatches levelNodes)).map (batch nthread levelNodes)) := by
  have hm : 0 + 1 + (nbatches levelNodes - 1) = nbatches levelNodes := by
    unfold nbatches minTasksPt
    omega
  have hloop := handOut_from ⟨0, nthread, hT⟩ rfl (Nat.zero_mod nthread).symm
    (by omega) hm
  refine hloop.of_eq fun fuel => ?_
  rw [handOut, if_neg (by omega), CUnsigned.new, dif_pos (by omega), ok_bind, Nat.zero_mul]
  rfl

end Batches

/-- The hand-out of a level ends. Its batches have one to eight nodes, all but the last have eight,
    batch `b` goes to thread `b mod T`, and one after the other they are the level. -/
theorem handOut_partition (nthread : Nat) (levelNodes : List Nat) (hn : 1 ≤ levelNodes.length)
    (hT : 1 ≤ nthread) :
    ∃ batches, Returns (fun fuel => handOut fuel nthread levelNodes) batches ∧
      (∀ b t xs, batches[b]? = some (t, xs) → t = b % nthread ∧ xs ≠ [] ∧ xs.length ≤ 8 ∧
        (b + 1 < batches.length → xs.length = 8)) ∧
      (batches.map Prod.snd).flatten = levelNodes := by
  refine ⟨_, handOut_returns hn hT, fun b t xs hb => ?_, ?_⟩
  · rw [List.length_map, List.length_range]
    have hlt : b < nbatches levelNodes := by
      by_contra hge
      rw [List.getElem?_eq_none (by simpa using hge)] at hb
      cases hb
    rw [List.getElem?_map, List.getElem?_range hlt, Option.map_some, Option.some.injEq] at hb
    have hlen : xs.length = min minTasksPt (levelNodes.length - b * minTasksPt) := by
      rw [← length_batch nthread levelNodes b, hb]
    have hbatch : t = b % nthread := (congrArg Prod.fst hb).symm
    unfold nbatches at hlt ⊢
    unfold minTasksPt at hlt hlen ⊢
    refine ⟨hbatch, ?_, by omega, fun hnext => by omega⟩
    rw [ne_eq, ← List.length_eq_zero_iff]
    omega
  · rw [List.map_map]
    refine (flatten_batches (nbatches levelNodes)).trans (List.take_of_length_le ?_)
    unfold nbatches minTasksPt
    omega

/-- Nine nodes for two threads. -/
theorem handOut_partition_nine :
    ∃ batches, Returns (fun fuel => handOut fuel 2 [1, 2, 3, 4, 5, 6, 7, 8, 9]) batches ∧
      (batches.map Prod.snd).flatten = [1, 2, 3, 4, 5, 6, 7, 8, 9] := by
  obtain ⟨batches, hret, -, hflat⟩ := handOut_partition 2 [1, 2, 3, 4, 5, 6, 7, 8, 9]
    (by decide) (by decide)
  exact ⟨batches, hret, hflat⟩

/-! ## The same loop among the threads -/

/-- The nodes that `batches` has for thread `t`. -/
def forThread (batches : List (Nat × List Nat)) (t : Nat) : List Nat :=
  (batches.filter fun b => b.1 = t).flatMap Prod.snd

/-- The queue of worker `t` after `b` passes, with `n` nodes of the next batch pushed. -/
def dealt (nthread : Nat) (nodes : List Nat) (b n t : Nat) : List Nat :=
  forThread ((List.range b).map (batch nthread nodes)) t ++
    if b % nthread = t then (nodes.drop (b * minTasksPt)).take n else []

/-- The queue of each worker is what `q` says. -/
def Queues (threads : List WorkerThread) (q : Nat → List Nat) : Prop :=
  ∀ t w, threads[t]? = some w → w.taskQueue.tasks = q t

/-- How many nodes of a batch of `n` are in the queue. -/
@[simp] def EnqueuePc.pushed (n : Nat) : EnqueuePc → Nat
  | .acquire => 0
  | .push i => i
  | .release => n

/-- Until the first worker is woken the queues hold what the loop has handed out. -/
def Pool.Dealt (s : Pool) : Prop :=
  match s.pc with
  | .enqueue p level nodes k tid =>
      s.lists.getNodes level = .ok nodes ∧ ∃ b, k = b * minTasksPt ∧ tid.val = b % s.nthread ∧
        Queues s.threads (dealt s.nthread nodes b (p.pushed (ntasks nodes k)))
  | .wake .acquire 0 level =>
      ∃ nodes, s.lists.getNodes level = .ok nodes ∧ 1 ≤ nodes.length ∧
        Queues s.threads (dealt s.nthread nodes (nbatches nodes) 0)
  | _ => True

section Dealing

variable {T nthread b n : Nat} {nodes : List Nat}

theorem dealt_zero (t : Nat) :
    dealt nthread nodes b 0 t = forThread ((List.range b).map (batch nthread nodes)) t := by
  simp [dealt]

theorem dealt_push {x : Nat} (hx : nodes[b * minTasksPt + n]? = some x) :
    dealt nthread nodes b (n + 1) (b % nthread) =
      dealt nthread nodes b n (b % nthread) ++ [x] := by
  have hget : (nodes.drop (b * minTasksPt))[n]? = some x := by rw [List.getElem?_drop, hx]
  rw [dealt, dealt, if_pos rfl, if_pos rfl, List.take_add_one, hget, List.append_assoc]
  rfl

theorem dealt_ne {t : Nat} (ht : b % nthread ≠ t) (n' : Nat) :
    dealt nthread nodes b n' t = dealt nthread nodes b n t := by
  rw [dealt, dealt, if_neg ht, if_neg ht]

/-- After the last node of a batch its pass is one of those that have been made. -/
theorem dealt_batch (hb : b * minTasksPt < nodes.length) :
    dealt nthread nodes b (ntasks nodes (b * minTasksPt)) = dealt nthread nodes (b + 1) 0 := by
  funext t
  rw [dealt_zero, dealt, take_ntasks hb, forThread, forThread, List.range_succ, List.map_append,
    List.filter_append, List.flatMap_append]
  by_cases ht : b % nthread = t <;> simp [batch, ht]

variable {s s' : Pool} {threads : List WorkerThread} {w w' : WorkerThread} {q q' : Nat → List Nat}
  {u : Nat}

theorem Queues.set (h : Queues threads q) (hw' : w'.taskQueue.tasks = q' u)
    (hne : ∀ t, u ≠ t → q' t = q t) : Queues (threads.set u w') q' := by
  intro t x hx
  by_cases hu : u = t
  · subst hu
    rw [List.getElem?_set_self'] at hx
    obtain ⟨_, _, rfl⟩ := Option.map_eq_some_iff.mp hx
    exact hw'
  · rw [List.getElem?_set_ne hu] at hx
    rw [hne t hu]
    exact h t x hx

/-- A change of a worker that leaves its queue alone. -/
theorem Queues.set_same (h : Queues threads q) (hw : threads[u]? = some w)
    (ht : w'.taskQueue.tasks = w.taskQueue.tasks) : Queues (threads.set u w') q :=
  h.set (ht.trans (h u w hw)) fun _ _ => rfl

/-- The workers are at rest until they are woken, and leave their queues alone. -/
theorem Pool.Dealt.worker (h : s.Dealt) (hi : Inv T s) (hw : s.threads[u]? = some w) {e : Effect}
    (hm : Moves u w w' e) : Pool.Dealt { s with threads := s.threads.set u w' } := by
  have hrest := (hi.threads u w hw).rest
  unfold Pool.Dealt at h ⊢
  dsimp only
  split
  · next p level nodes k tid hp =>
    rw [hp] at h hrest
    obtain ⟨hnodes, b, hk, htid, hq⟩ := h
    exact ⟨hnodes, b, hk, htid, hq.set_same hw (hm.rest (hrest rfl)).2.1⟩
  · next level hp =>
    rw [hp] at h hrest
    obtain ⟨nodes, hnodes, hn, hq⟩ := h
    exact ⟨nodes, hnodes, hn, hq.set_same hw (hm.rest (hrest (by simp))).2.1⟩
  · trivial

theorem Pool.Dealt.move (h : s.Dealt) (hi : Inv T s) (hm : SchedulerMove s s') : s'.Dealt := by
  have hloop := hi.loop
  unfold Pool.Dealt at h
  cases hm with
  | goto m hp hn =>
    cases hn with
    | runLevel hnodes hne hz =>
      -- the last level has been done, so every queue is empty
      refine ⟨hnodes, 0, (Nat.zero_mul _).symm, by rw [hz, Nat.zero_mod], fun t w hw => ?_⟩
      have hat := hi.threads t w hw
      rw [hp] at hat
      rw [hat.drained rfl (hat.rest rfl), EnqueuePc.pushed, dealt_zero]
      rfl
    | @pushed i level k nodes tid hi =>
      rw [hp] at h hloop
      obtain ⟨hnodes, b, hk, htid, hq⟩ := h
      obtain rfl : i = ntasks nodes k := by
        have := hloop.2.2 i rfl
        omega
      exact ⟨hnodes, b, hk, htid, hq⟩
    | _ => trivial
  | create hp hlt =>
    unfold Pool.Dealt
    rw [hp]
    trivial
  | queueLock m _ hp hw =>
    rw [hp] at h
    obtain ⟨hnodes, b, hk, htid, hq⟩ := h
    exact ⟨hnodes, b, hk, htid, hq.set_same hw rfl⟩
  | @queuePush i level k x nodes tid w hp hlt hx hw =>
    rw [hp] at h
    obtain ⟨hnodes, b, rfl, htid, hq⟩ := h
    refine ⟨hnodes, b, rfl, htid, hq.set ?_ fun t ht => dealt_ne (htid ▸ ht) _⟩
    have htasks := hq _ _ hw
    rw [htid] at htasks ⊢
    dsimp only
    rw [htasks]
    exact (dealt_push hx).symm
  | @queueNext level k nodes tid w m _ hp hw hne =>
    rw [hp] at h hloop
    obtain ⟨hnodes, b, rfl, htid, hq⟩ := h
    obtain ⟨hlt, hmax, -⟩ := hloop
    -- only the last batch is short
    have hn : ntasks nodes (b * minTasksPt) = minTasksPt := by
      unfold ntasks at hne ⊢
      split
      · rfl
      · next hfull =>
        rw [if_neg hfull] at hne
        omega
    rw [EnqueuePc.pushed, dealt_batch hlt] at hq
    refine ⟨hnodes, b + 1, by rw [hn, Nat.succ_mul], ?_, hq.set_same hw rfl⟩
    rw [tid.inc_val, htid, hmax, Nat.mod_add_mod]
  | @queueLast level k nodes tid w m _ hp hw hend =>
    rw [hp] at h hloop
    obtain ⟨hnodes, b, rfl, htid, hq⟩ := h
    obtain ⟨hlt, -, -⟩ := hloop
    have hb : nbatches nodes = b + 1 := by
      unfold nbatches
      unfold ntasks at hend
      unfold minTasksPt at hlt hend ⊢
      split at hend <;> omega
    rw [EnqueuePc.pushed, dealt_batch hlt, ← hb] at hq
    exact ⟨nodes, hnodes, by omega, hq.set_same hw rfl⟩
  | _ => trivial

theorem Pool.Dealt.wakeUp (hs : s.wakeUp = some s') : s'.Dealt := by
  unfold Pool.wakeUp at hs
  split at hs
  · cases hs
    trivial
  · cases hs

theorem Pool.Dealt.congr (h : s.Dealt) (hn : s'.nthread = s.nthread) (hl : s'.lists = s.lists)
    (ht : s'.threads = s.threads) (hp : s'.pc = s.pc) : s'.Dealt := by
  unfold Pool.Dealt at h ⊢
  rw [hn, hl, ht, hp]
  exact h

theorem Pool.Dealt.apply (h : s.Dealt) (tid : Nat) (e : Effect) : (s.apply tid e).Dealt := by
  cases e with
  | silent => exact h
  | decPpt =>
    rw [Pool.apply]
    exact h.congr rfl rfl rfl rfl
  | signalParent =>
    rw [Pool.apply]
    cases hu : s.wakeUp with
    | none => exact h
    | some s' => exact .wakeUp hu
  | task k =>
    rw [Pool.apply]
    exact h.congr rfl rfl rfl rfl

theorem Pool.Dealt.step (h : s.Dealt) (hi : Inv T s) (hT : 1 ≤ T) (hT' : T < 2 ^ 32) {l : Label}
    (hs : Pool.step l s = some s') : s'.Dealt := by
  cases l with
  | scheduler => exact h.move hi (hi.schedulerMove hT hT' hs)
  | call x =>
    rw [Pool.step] at hs
    split at hs
    · cases hs
      trivial
    · cases hs
  | worker tid =>
    obtain ⟨w, hw, hs⟩ := Option.bind_eq_some_iff.mp hs
    obtain ⟨⟨w', e⟩, hw', hs⟩ := Option.bind_eq_some_iff.mp hs
    cases hs
    exact (h.worker hi hw (step_moves (hi.threads tid w hw).ok hw')).apply tid e
  | spurious thread =>
    cases thread with
    | scheduler => exact .wakeUp hs
    | worker tid =>
      obtain ⟨w, hw, hs⟩ := Option.bind_eq_some_iff.mp hs
      obtain ⟨w', hw', hs⟩ := Option.bind_eq_some_iff.mp hs
      cases hs
      exact h.worker hi hw (wakeUp_moves (hi.threads tid w hw).ok hw')

/-- When the first worker is about to be woken, the queue of each worker is what `handOut` has for
    it, for every number of workers and every interleaving. -/
theorem queues_handOut {fanout level : Nat} (hT : 1 ≤ T) (hT' : T < 2 ^ 32)
    (h : Reachable Pool.step (.new T fanout) s) (hp : s.pc = .wake .acquire 0 level) :
    ∃ nodes batches, s.lists.getNodes level = .ok nodes ∧
      Returns (fun fuel => handOut fuel T nodes) batches ∧
      ∀ t w, s.threads[t]? = some w → w.taskQueue.tasks = forThread batches t := by
  obtain ⟨hi, hd⟩ : Inv T s ∧ s.Dealt :=
    h.invariant (I := fun s => Inv T s ∧ s.Dealt) ⟨inv_new T fanout, trivial⟩ fun _ _ _ hi hs =>
      ⟨hi.1.step hT hT' hs, hi.2.step hi.1 hT hT' hs⟩
  unfold Pool.Dealt at hd
  rw [hp] at hd
  obtain ⟨nodes, hnodes, hn, hq⟩ := hd
  refine ⟨nodes, _, hnodes, handOut_returns hn hT, fun t w hw => ?_⟩
  rw [hq t w hw, dealt_zero, hi.nthread]

end Dealing

end Monya.Structures
