/-
  `build` has no data race on its nodes.

  A step touches at most one node that exists: a worker trains one, the first loop of `build` spawns
  one, and its second loop reads the children of one. `no_data_race`: two steps that are possible in
  the same state never touch the same node. Two workers have different nodes, because their shares
  of the level are disjoint (`Inv.node_unshared`); and `build` goes on only while no worker is at
  work.

  This is about the nodes only. The passes of the first loop of `build` also read and write
  `one_spawned`, without a lock.
-/
import Monya.Examples.KdThreads

namespace Monya

open Monya.Lib Monya.Structures

namespace Structures

/-- The node that a worker trains. -/
def WorkerPc.node : WorkerPc → Option Nat
  | .prep x | .runNode x => some x
  | _ => none

section Pool

variable {T x t u : Nat} {s : Pool} {w w' : WorkerThread}

theorem todo_of_node (hx : w.pc.node = some x) :
    w.pc.decremented = false ∧ ∃ k ∈ w.todo, k.node = x := by
  unfold WorkerPc.node at hx
  unfold WorkerThread.todo
  split at hx
  · next hp =>
    cases hx
    rw [hp]
    exact ⟨rfl, .prep x, List.mem_cons_self, rfl⟩
  · next hp =>
    cases hx
    rw [hp]
    exact ⟨rfl, .run x, List.mem_cons_self, rfl⟩
  · cases hx

theorem state_of_node (hx : w.pc.node = some x) (hok : WorkerOk t w) : w.state = .build := by
  have hst := hok.state
  unfold WorkerPc.node at hx
  split at hx
  · next hp =>
    rw [hp] at hst
    exact hst
  · next hp =>
    rw [hp] at hst
    exact hst
  · cases hx

/-- A worker has a node only while a level is being run. -/
theorem Inv.running_of_node (hi : Inv T s) (hw : s.threads[t]? = some w)
    (hx : w.pc.node = some x) : ∃ level, s.pc.stage = .running level := by
  refine hi.running_of_work hw (state_of_node hx (hi.threads t w hw).ok) ?_
  rw [WorkerThread.resting, (todo_of_node hx).1]
  rfl

/-- No two workers have the same node. -/
theorem Inv.node_unshared (hi : Inv T s) (hnodup : ∀ level ∈ s.lists.nodes, level.Nodup)
    (hw : s.threads[t]? = some w) (hw' : s.threads[u]? = some w') (hx : w.pc.node = some x)
    (hx' : w'.pc.node = some x) : t = u := by
  obtain ⟨level, hstage⟩ := hi.running_of_node hw hx
  obtain ⟨full, pend, hl⟩ := hi.levels
  have hcur := hl.current
  rw [hstage] at hcur
  obtain ⟨-, nodes, hnodes, owner, hlen, -, htasks⟩ := hcur
  have hlevel : nodes.Nodup := by
    refine hnodup nodes ?_
    rw [hl.lists.nodes]
    exact List.mem_append_left _ (List.mem_of_getElem? hnodes)
  -- the node is in the share of each of the two
  have hmem : ∀ {v : Nat} {w : WorkerThread}, s.threads[v]? = some w → w.pc.node = some x →
      x ∈ share nodes owner v := by
    intro v w hw hx
    obtain ⟨-, k, hk, rfl⟩ := todo_of_node hx
    refine node_mem_of_mem_trained (t := k) ?_
    rw [← htasks v, Pool.todoOf_some hw]
    exact List.mem_append_right _ hk
  have hin : x ∈ nodes := by
    obtain ⟨p, hp, rfl⟩ := List.mem_map.mp (hmem hw hx)
    exact (List.of_mem_zip (List.mem_of_mem_filter hp)).1
  obtain ⟨o, -, ho⟩ := share_count_one hlen (List.count_eq_one_of_mem hlevel hin)
  have hone : ∀ {v : Nat}, x ∈ share nodes owner v → v = o := by
    intro v hv
    by_contra hne
    have hfilter : x ∈ (share nodes owner v).filter fun y => y = x :=
      List.mem_filter.mpr ⟨hv, by simp⟩
    rw [ho, if_neg hne] at hfilter
    cases hfilter
  rw [hone (hmem hw hx), hone (hmem hw' hx')]

end Pool

theorem Scheduler.scheduled_nodes (s : Scheduler) (x : Nat) :
    (s.scheduled x).nodes = (s.push x).nodes := by
  unfold Scheduler.scheduled
  split <;> rfl

end Structures

/-! ## The nodes that a step touches -/

/-- The node that the next step of a thread reads or writes. -/
def BuildRun.touches {α : Type} (s : BuildRun α) : BuildLabel → Option Nat
  | .thread (.worker t) => s.training.pool.threads[t]?.bind fun w => w.pc.node
  | .thread _ => none
  | .spawn x => some x
  | .build =>
      match s.pc with
      | .left (x :: _) | .right x _ => some x
      | _ => none

namespace KdTree

section Races

variable {α : Type} [LinearOrder α] {env : KdEnv α} {M : Nat → Nat → α} {n f T splitDim : Nat}
  {s : BuildRun α} {r : Nat × Nat}

/-- The pool is at rest, or no level of it has a node twice. -/
theorem Toward.quiet_or_nodup {q : Scheduler × TreeState α} {m : Training (KdNode α)}
    (h : Toward env T q m) : m.pool.pc.quiet ∨ ∀ level ∈ m.pool.lists.nodes, level.Nodup := by
  cases h with
  | arrived h => exact .inl h.pc
  | @call p x st hp hidle hnodup hseq hcall =>
    refine .inr ?_
    cases hcall.call with
    | filling _ hl _ =>
      rw [hl]
      exact (extends_push p.lists x).nodup hnodup
    | waiting _ _ hl _ | preparing _ _ hl _ | handed _ _ hl _ _ _ =>
      rw [hl, Scheduler.scheduled_nodes]
      exact hnodup

theorem BuildInv.quiet_or_nodup (h : BuildInv env M n f T splitDim r s) :
    s.training.pool.pc.quiet ∨ ∀ level ∈ s.training.pool.lists.nodes, level.Nodup := by
  cases h with
  | root h => exact .inl h.pc
  | head h _ _ => exact h.quiet_or_nodup
  | spawning _ _ _ _ h => exact .inl h.pc
  | left h _ _ _ => exact h.quiet_or_nodup
  | right h _ _ _ _ _ => exact h.quiet_or_nodup
  | returned h _ => exact .inl h.pc

omit [LinearOrder α] in
theorem worker_of_touches {k : Label} {x : Nat} (hx : s.touches (.thread k) = some x) :
    ∃ t, k = .worker t := by
  cases k with
  | worker t => exact ⟨t, rfl⟩
  | _ => cases hx

/-- While a worker has a node, a call of `schedule` is under way. -/
theorem BuildInv.not_quiet_of_node (h : BuildInv env M n f T splitDim r s) {k : Label} {x : Nat}
    (hx : s.touches (.thread k) = some x) : ¬ s.training.pool.pc.quiet := by
  intro hq
  obtain ⟨t, rfl⟩ := worker_of_touches hx
  obtain ⟨w, hw, hx⟩ := Option.bind_eq_some_iff.mp hx
  obtain ⟨level, hstage⟩ := h.inv.running_of_node hw hx
  rw [hq.stage] at hstage
  cases hstage

theorem BuildInv.workers_apart (h : BuildInv env M n f T splitDim r s) {t u x : Nat}
    (hx : s.touches (.thread (.worker t)) = some x)
    (hx' : s.touches (.thread (.worker u)) = some x) : t = u := by
  have hnodup := h.quiet_or_nodup.resolve_left (h.not_quiet_of_node hx)
  obtain ⟨w, hw, hx⟩ := Option.bind_eq_some_iff.mp hx
  obtain ⟨w', hw', hx'⟩ := Option.bind_eq_some_iff.mp hx'
  exact h.inv.node_unshared hnodup hw hw' hx hx'

variable [Zero α] {colwise : Bool}

/-- The first loop of `build` is over where its second one reads a node. -/
theorem no_spawn_of_build {x y : Nat} {s' : BuildRun α} {heap : Heap (KdNode α)}
    (hx : s.touches .build = some x) : s.spawnNode env heap y ≠ some s' := by
  intro hs
  unfold BuildRun.spawnNode at hs
  split at hs
  · next hp =>
    unfold BuildRun.touches at hx
    rw [hp] at hx
    cases hx
  · cases hs

/-- In no state of a run do two possible steps touch the same node. -/
theorem no_data_race (henv : env.io = .ofMatrix M n f colwise) (hn : 1 ≤ n) (hn' : n < 2 ^ 32)
    (hsplit : splitDim < f) (hT : 1 ≤ T) (hT' : T < 2 ^ 32)
    (hreach : Lib.Reachable (BuildRun.step env) (.start env T splitDim) s) {l l' : BuildLabel}
    (hne : l ≠ l') {s₁ s₂ : BuildRun α} (hs : BuildRun.step env l s = some s₁)
    (hs' : BuildRun.step env l' s = some s₂) {x : Nat} (hx : s.touches l = some x) :
    s.touches l' ≠ some x := by
  obtain ⟨r, hi⟩ : ∃ r, BuildInv env M n f T splitDim r s :=
    hreach.invariant (I := fun s => ∃ r, BuildInv env M n f T splitDim r s) ⟨_, buildInv_start⟩
      fun _ _ _ ⟨_, hi⟩ hs => by
      obtain ⟨r', h', -⟩ := hi.step henv hn hn' hsplit hT hT' hs
      exact ⟨r', h'⟩
  intro hx'
  rcases BuildRun.step_cases hs with
    ⟨heap, -, hidle, ⟨rfl, -⟩ | ⟨y, rfl, hsp⟩⟩ | ⟨k, m, rfl, -, -, rfl⟩
  · rcases BuildRun.step_cases hs' with
      ⟨heap', -, -, ⟨rfl, -⟩ | ⟨z, rfl, hsp⟩⟩ | ⟨k', m', rfl, -, -, rfl⟩
    · exact hne rfl
    · exact no_spawn_of_build hx hsp
    · exact hi.not_quiet_of_node hx' (.inr hidle)
  · rcases BuildRun.step_cases hs' with
      ⟨heap', -, -, ⟨rfl, -⟩ | ⟨z, rfl, -⟩⟩ | ⟨k', m', rfl, -, -, rfl⟩
    · exact no_spawn_of_build hx' hsp
    · cases hx
      cases hx'
      exact hne rfl
    · exact hi.not_quiet_of_node hx' (.inr hidle)
  · rcases BuildRun.step_cases hs' with
      ⟨heap', -, hidle', -⟩ | ⟨k', m', rfl, -, -, rfl⟩
    · exact hi.not_quiet_of_node hx (.inr hidle')
    · obtain ⟨t, rfl⟩ := worker_of_touches hx
      obtain ⟨u, rfl⟩ := worker_of_touches hx'
      exact hne (by rw [hi.workers_apart hx hx'])

end Races

/-- The children of the root have been trained, and the loop over the level can spawn both. -/
def childrenTrained : List BuildLabel := twoSamples.take 113

theorem no_data_race_siblings : ∃ s s₁ s₂,
    Lib.Reachable (BuildRun.step (rampEnv 2 1)) (.start (rampEnv 2 1) 1 0) s ∧
    BuildRun.step (rampEnv 2 1) (.spawn 1) s = some s₁ ∧
    BuildRun.step (rampEnv 2 1) (.spawn 2) s = some s₂ ∧
    s.touches (.spawn 1) = some 1 ∧ s.touches (.spawn 2) = some 2 ∧
    s.touches (.spawn 2) ≠ some 1 := by
  have hrun : (run (BuildRun.step (rampEnv 2 1)) childrenTrained (.start (rampEnv 2 1) 1 0)).map
      (fun s => (s.touches (.spawn 1), s.touches (.spawn 2),
        (BuildRun.step (rampEnv 2 1) (.spawn 1) s).isSome,
        (BuildRun.step (rampEnv 2 1) (.spawn 2) s).isSome)) =
      some (some 1, some 2, true, true) := by
    decide +kernel
  obtain ⟨s, hs, hpair⟩ := Option.map_eq_some_iff.mp hrun
  obtain ⟨hx, hx', hsp, hsp'⟩ : s.touches (.spawn 1) = some 1 ∧ _ ∧ _ ∧ _ := by
    simpa only [Prod.mk.injEq] using hpair
  obtain ⟨s₁, h₁⟩ := Option.isSome_iff_exists.mp hsp
  obtain ⟨s₂, h₂⟩ := Option.isSome_iff_exists.mp hsp'
  exact ⟨s, s₁, s₂, ⟨childrenTrained, hs⟩, h₁, h₂, hx, hx', no_data_race
    (show (rampEnv 2 1).io = .ofMatrix (fun i _ => i) 2 1 false from rfl) (by decide) (by decide)
    (by decide) (by decide) (by decide) ⟨childrenTrained, hs⟩ (fun h => by cases h) h₁ h₂ hx⟩

end KdTree

end Monya
