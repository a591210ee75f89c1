/-
  `BinaryTreeProgram::build` with its threads.

  `build` runs on the thread that owns the tree, which is also the scheduling thread of the pool: it
  goes on only while no call of `schedule` is under way. Its first loop is parallel (`omp parallel
  for`), so it may spawn the nodes of a level in any order, one `Label` each. Everything the workers
  do in between is in `Training`.

  `BuildInv` says how far the sequential reading of the program has got. A call of `schedule` is
  read by `schedule_refines`; its lists have no node twice, because each of them is a prefix of one
  that the round leaves, and those do not. `threads_build` is the result: in no interleaving, with
  no order of the spawns and no number of workers, does training fault, and the tree that `build`
  leaves is a `Built` one.
-/
import Monya.Examples.KdShape
import Monya.Examples.KdRounds
import Monya.Structures.Training

namespace Monya

open Monya.Lib Monya.Structures

/-- Where `build` is: `left` and `right` are the two calls in its second loop. -/
inductive BuildPc where
  | root
  | head
  | spawning (nodes rest : List Nat) (oneSpawned : Bool)
  | left (nodes : List Nat)
  | right (node : Nat) (nodes : List Nat)
  | returned
  deriving DecidableEq, Repr

/-- Which step is next: one of `build`, the spawning of a node in its first loop, or one of the
    scheduling thread inside a call, or of a worker. -/
inductive BuildLabel where
  | build
  | spawn (node : Nat)
  | thread (l : Label)

structure BuildRun (α : Type) where
  training : Training (KdNode α)
  pc : BuildPc

/-- What a worker does to a node. -/
def kdTask {α : Type} [LinearOrder α] (env : KdEnv α) : Task → KdNode α → Except Fault (KdNode α)
  | .prep _, k => KdNode.prep env k
  | .run x, k => KdNode.run env x k

namespace BuildRun

variable {α : Type} [LinearOrder α] [Zero α] (env : KdEnv α)

def fault (s : BuildRun α) (e : Fault) : Option (BuildRun α) :=
  some { s with training.heap := .error e }

/-- `if (p) scheduler->schedule(p)`, and on to `pc`. -/
def scheduleChild (s : BuildRun α) (p : Ptr) (pc : BuildPc) : Option (BuildRun α) :=
  match p with
  | none => some { s with pc := pc }
  | some a => (Training.step (kdTask env) (.call a) s.training).map fun m => ⟨m, pc⟩

/-- A step of `build`, with `h` the nodes. -/
def buildStep (s : BuildRun α) (h : Heap (KdNode α)) : Option (BuildRun α) :=
  let lists := s.training.pool.lists
  let procdLevel := lists.currentLevel - 1
  match s.pc with
  | .root => s.scheduleChild env (some 0) .head
  | .head =>
      if ¬ procdLevel ≤ env.maxDepth then s.fault .assertion
      else
        match lists.getNodes procdLevel with
        | .error e => s.fault e
        | .ok nodes => some { s with pc := .spawning nodes nodes false }
  | .spawning nodes [] oneSpawned =>
      some { s with
        pc := if procdLevel = env.maxDepth ∨ oneSpawned = false then .returned else .left nodes }
  | .spawning _ (_ :: _) _ => none
  | .left [] => some { s with pc := .head }
  | .left (x :: nodes) =>
      match h.read x with
      | .error e => s.fault e
      | .ok k => s.scheduleChild env k.left (.right x nodes)
  | .right x nodes =>
      match h.read x with
      | .error e => s.fault e
      | .ok k => s.scheduleChild env k.right (.left nodes)
  | .returned => none

/-- The body of the first loop, for the node `x`. -/
def spawnNode (s : BuildRun α) (h : Heap (KdNode α)) (x : Nat) : Option (BuildRun α) :=
  match s.pc with
  | .spawning nodes rest oneSpawned =>
      if x ∈ rest then
        match KdTree.spawnStep env (⟨h, []⟩, oneSpawned) x with
        | .error e => s.fault e
        | .ok (st, oneSpawned) =>
            some ⟨⟨s.training.pool, .ok st.heap⟩, .spawning nodes (rest.erase x) oneSpawned⟩
      else none
  | _ => none

/-- The thread that owns the tree is not in a call of `schedule`. -/
def atBuild (s : BuildRun α) (f : Heap (KdNode α) → Option (BuildRun α)) : Option (BuildRun α) :=
  match s.training.heap with
  | .error _ => none
  | .ok h => if s.training.pool.pc = .idle then f h else none

def step : BuildLabel → BuildRun α → Option (BuildRun α)
  | .build, s => s.atBuild (s.buildStep env)
  | .spawn x, s => s.atBuild fun h => s.spawnNode env h x
  | .thread l, s =>
      if l.isCall then none
      else (Training.step (kdTask env) l s.training).map fun m => { s with training := m }

/-- `main` has made the tree program and its root, and calls `build`. -/
def start (nworkers splitDim : Nat) : BuildRun α :=
  ⟨⟨.new nworkers 2, .ok (KdTree.init env splitDim).2.heap⟩, .root⟩

variable {env} {s s' : BuildRun α}

omit [LinearOrder α] [Zero α] in
theorem atBuild_cases {g : Heap (KdNode α) → Option (BuildRun α)} (h : s.atBuild g = some s') :
    ∃ heap, s.training.heap = .ok heap ∧ s.training.pool.pc = .idle ∧ g heap = some s' := by
  unfold atBuild at h
  split at h
  · cases h
  · next heap hheap =>
    split at h
    · next hidle => exact ⟨heap, hheap, hidle, h⟩
    · cases h

/-- What a step can do. -/
theorem step_cases {l : BuildLabel} (h : step env l s = some s') :
    (∃ heap, s.training.heap = .ok heap ∧ s.training.pool.pc = .idle ∧
      (l = .build ∧ s.buildStep env heap = some s' ∨
        ∃ x, l = .spawn x ∧ s.spawnNode env heap x = some s')) ∨
    ∃ k m, l = .thread k ∧ k.isCall = false ∧
      Training.step (kdTask env) k s.training = some m ∧ s' = { s with training := m } := by
  cases l with
  | build =>
    obtain ⟨heap, hheap, hidle, hs⟩ := atBuild_cases h
    exact .inl ⟨heap, hheap, hidle, .inl ⟨rfl, hs⟩⟩
  | spawn x =>
    obtain ⟨heap, hheap, hidle, hs⟩ := atBuild_cases h
    exact .inl ⟨heap, hheap, hidle, .inr ⟨x, rfl, hs⟩⟩
  | thread k =>
    rw [step] at h
    cases hk : k.isCall with
    | true =>
      rw [hk, if_pos rfl] at h
      cases h
    | false =>
      rw [hk, if_neg Bool.false_ne_true] at h
      obtain ⟨m, hm, rfl⟩ := Option.map_eq_some_iff.mp h
      exact .inr ⟨k, m, rfl, hk, hm, rfl⟩

end BuildRun

/-! ## The sequential reading -/

namespace KdTree

section Sequential

variable {α : Type} [LinearOrder α] {env : KdEnv α}

theorem trainNode_kdTask (x : Nat) (st : TreeState α) :
    trainNode (kdTask env) x st.heap = (train env x st).map TreeState.heap := by
  dsimp only [trainNode, train, kdTask]
  cases hr : st.heap.read x with
  | error e => rfl
  | ok k =>
    rw [ok_bind, ok_bind]
    cases hp : KdNode.prep env k with
    | error e => rfl
    | ok k₁ =>
      rw [ok_bind, ok_bind]
      cases hk : KdNode.run env x k₁ with
      | error e => rfl
      | ok k₂ =>
        rw [ok_bind, ok_bind]
        cases hm : st.heap.modify x fun _ => k₂ <;> rfl

/-- The log of the sequential reading is not read. -/
theorem schedule_kdTask {s : Scheduler} {full : List (List Nat)} {pend : List Nat}
    (hat : s.At full pend) (x : Nat) (st : TreeState α) :
    Scheduler.schedule (trainNode (kdTask env)) x (s, st.heap) =
      (Scheduler.schedule (train env) x (s, st)).map fun r => (r.1, r.2.heap) := by
  rw [hat.schedule_eq, hat.schedule_eq]
  cases hx : s.fills x with
  | false => rfl
  | true =>
    rw [if_pos rfl, if_pos rfl, foldlM_map (fun st x => trainNode_kdTask x st)]
    cases (pend ++ [x]).foldlM (fun st x => train env x st) st <;> rfl

/-- The lists of `s'` extend those of `s`. -/
def Extends (s s' : Scheduler) : Prop :=
  ∀ (i : Nat) (l : List Nat), s.nodes[i]? = some l → ∃ l', s'.nodes[i]? = some l' ∧ l <+: l'

theorem Extends.refl (s : Scheduler) : Extends s s := fun _ l hl => ⟨l, hl, List.prefix_rfl⟩

theorem Extends.trans {s₁ s₂ s₃ : Scheduler} (h : Extends s₁ s₂) (h' : Extends s₂ s₃) :
    Extends s₁ s₃ := by
  intro i l hl
  obtain ⟨l₂, hl₂, hp⟩ := h i l hl
  obtain ⟨l₃, hl₃, hp'⟩ := h' i l₂ hl₂
  exact ⟨l₃, hl₃, hp.trans hp'⟩

theorem Extends.nodup {s s' : Scheduler} (h : Extends s s') (hs : ∀ l ∈ s'.nodes, l.Nodup) :
    ∀ l ∈ s.nodes, l.Nodup := by
  intro l hl
  obtain ⟨i, hi⟩ := List.mem_iff_getElem?.mp hl
  obtain ⟨l', hl', hp⟩ := h i l hi
  exact (hs l' (List.mem_of_getElem? hl')).sublist hp.sublist

theorem extends_push (s : Scheduler) (x : Nat) : Extends s (s.push x) := by
  intro i l hl
  unfold Scheduler.push
  split
  · exact ⟨l, by rw [List.getElem?_append_left (List.getElem?_eq_some_iff.mp hl).1, hl],
      List.prefix_rfl⟩
  · by_cases hi : i = s.currentLevel
    · subst hi
      exact ⟨l ++ [x], by simp [hl], List.prefix_append _ _⟩
    · exact ⟨l, by simp [Ne.symm hi, hl], List.prefix_rfl⟩

theorem extends_schedule {x : Nat} {q q' : Scheduler × TreeState α}
    (h : Scheduler.schedule (train env) x q = .ok q') : Extends (q.1.push x) q'.1 := by
  unfold Scheduler.schedule at h
  obtain ⟨level, -, h⟩ := bind_ok h
  split at h
  · obtain ⟨st, -, h⟩ := bind_ok h
    cases h
    exact fun _ l hl => ⟨l, hl, List.prefix_rfl⟩
  · cases h
    exact .refl _

theorem extends_scheduleChild {p : Ptr} {q q' : Scheduler × TreeState α}
    (h : scheduleChild env p q = .ok q') : Extends q.1 q'.1 := by
  cases p with
  | none =>
    cases h
    exact .refl _
  | some a => exact (extends_push q.1 a).trans (extends_schedule h)

theorem extends_scheduleChildren {x : Nat} {q q' : Scheduler × TreeState α}
    (h : scheduleChildren env q x = .ok q') : Extends q.1 q'.1 := by
  unfold scheduleChildren at h
  obtain ⟨k, -, h⟩ := bind_ok h
  obtain ⟨q₁, h₁, h⟩ := bind_ok h
  obtain ⟨k', -, h⟩ := bind_ok h
  exact (extends_scheduleChild h₁).trans (extends_scheduleChild h)

theorem extends_scheduleAll {P : List Nat} {q q' : Scheduler × TreeState α}
    (h : P.foldlM (scheduleChildren env) q = .ok q') : Extends q.1 q'.1 :=
  foldlM_rel (R := fun q q' => Extends q.1 q'.1) (fun q => .refl q.1) (fun _ _ _ => .trans)
    (fun _ _ _ => extends_scheduleChildren) h

/-- No level has a node twice. -/
theorem Building.lists_nodup {D : Nat} {M : Nat → Nat → α} {n f : Nat} {s : Scheduler}
    {st : TreeState α} {full : List (List Nat)} {P pend : List Nat}
    (b : Building D M n f s st full P pend) : ∀ l ∈ s.nodes, l.Nodup := by
  intro l hl
  rw [b.lists.nodes] at hl
  have hnodup := List.nodup_append.mp b.levels.nodup
  rcases List.mem_append.mp hl with hl | hl
  · exact (List.nodup_flatten.mp hnodup.1).1 l hl
  · split at hl
    · cases hl
    · rw [List.mem_singleton.mp hl]
      exact hnodup.2.1

end Sequential

/-! ## A call under way -/

section Toward

variable {α : Type} [LinearOrder α] (env : KdEnv α)

/-- The threads are between two calls, at the sequential state `q`. -/
structure Arrived (T : Nat) (q : Scheduler × TreeState α) (m : Training (KdNode α)) : Prop where
  inv : Inv T m.pool
  pc : m.pool.pc.quiet
  lists : m.pool.lists = q.1
  heap : m.heap = .ok q.2.heap

/-- The threads are at the sequential state `q`, or in the call that leads to it. -/
inductive Toward (T : Nat) (q : Scheduler × TreeState α) (m : Training (KdNode α)) : Prop
  | arrived (h : Arrived T q m)
  | call {p : Pool} {x : Nat} {st : TreeState α} (hp : Inv T p) (hidle : p.pc = .idle)
      (hnodup : ∀ l ∈ (p.lists.push x).nodes, l.Nodup)
      (hseq : Scheduler.schedule (train env) x (p.lists, st) = .ok q)
      (hcall : SinceCall (kdTask env) T p x st.heap m)

variable {env} {T : Nat} {q : Scheduler × TreeState α} {m m' : Training (KdNode α)}

theorem Toward.refines (h : Toward env T q m) :
    (∃ h', m.heap = .ok h') ∧ (m.pool.pc = .idle → Arrived T q m) := by
  cases h with
  | arrived h => exact ⟨⟨_, h.heap⟩, fun _ => h⟩
  | @call p x st hp hidle hnodup hseq hcall =>
    obtain ⟨full, pend, hl⟩ := hp.levels
    obtain ⟨hok, heq⟩ := hcall.refines hp hidle hnodup
    have hheap : Scheduler.schedule (trainNode (kdTask env)) x (p.lists, st.heap) =
        .ok (q.1, q.2.heap) := by
      rw [schedule_kdTask hl.lists, hseq]
      rfl
    obtain ⟨h', hh⟩ := hok _ hheap
    refine ⟨⟨h', hh⟩, fun hid => ?_⟩
    have hsame := ((heq hid h').mp hh).symm.trans hheap
    have hpair := Except.ok.inj hsame
    exact ⟨hcall.inv, .inr hid, congrArg Prod.fst hpair,
      hh.trans (congrArg Except.ok (congrArg Prod.snd hpair))⟩

/-- Between two calls the workers do nothing to the nodes, and the lists stay. -/
theorem Arrived.step (h : Arrived T q m) (hT : 1 ≤ T) (hT' : T < 2 ^ 32) {l : Label}
    (hl : l.isCall = false) (hs : Training.step (kdTask env) l m = some m') : Arrived T q m' := by
  obtain ⟨h₁, p, hh, hp, rfl⟩ := Training.step_cases hs
  obtain ⟨hq, hlists, hlog⟩ := h.inv.step_quiet hT hT' h.pc hl hp
  refine ⟨h.inv.step hT hT' hp, hq, hlists.trans h.lists, ?_⟩
  show doTasks _ (p.log.drop m.pool.log.length) h₁ = _
  rw [hlog, List.drop_length, ← h.heap, hh]
  rfl

theorem Toward.step (h : Toward env T q m) (hT : 1 ≤ T) (hT' : T < 2 ^ 32) {l : Label}
    (hl : l.isCall = false) (hs : Training.step (kdTask env) l m = some m') :
    Toward env T q m' := by
  cases h with
  | arrived h => exact .arrived (h.step hT hT' hl hs)
  | call hp hidle hnodup hseq hcall =>
    exact .call hp hidle hnodup hseq (hcall.step hT hT' hl hs)

theorem Arrived.call (h : Arrived T q m) (hT : 1 ≤ T) (hT' : T < 2 ^ 32) {x : Nat}
    {q' : Scheduler × TreeState α} (hseq : Scheduler.schedule (train env) x q = .ok q')
    (hnodup : ∀ l ∈ q'.1.nodes, l.Nodup)
    (hs : Training.step (kdTask env) (.call x) m = some m') : Toward env T q' m' := by
  obtain ⟨p, heap⟩ := m
  obtain rfl : heap = .ok q.2.heap := h.heap
  have hlists : p.lists = q.1 := h.lists
  have hrun : run (Training.step (kdTask env)) (.call x :: []) ⟨p, .ok q.2.heap⟩ = some m' := by
    rw [run, hs]
    rfl
  obtain ⟨hidle, hcall⟩ := SinceCall.of_run h.inv hT hT'
    (fun l hl => absurd hl List.not_mem_nil) hrun
  refine .call h.inv hidle ?_ ?_ hcall
  · show ∀ l ∈ (p.lists.push x).nodes, l.Nodup
    rw [hlists]
    exact (extends_schedule hseq).nodup hnodup
  · show Scheduler.schedule (train env) x (p.lists, q.2) = .ok q'
    rw [hlists]
    exact hseq

end Toward

/-! ## Every state of every run -/

section Threads

variable {α : Type} [LinearOrder α]

/-- The order in which the first loop spawns the nodes does not matter, but for the log. -/
theorem SpawnedAll.perm {M : Nat → Nat → α} {n f D : Nat} {P P' : List Nat} {st st' : TreeState α}
    (h : SpawnedAll M n f D P st st') (hp : P.Perm P') :
    SpawnedAll M n f D P' st
      ⟨st'.heap, st.log ++ (P'.filter (canSpawn D st.heap)).map .spawn⟩ := by
  have hmem : ∀ x, x ∈ P.filter (canSpawn D st.heap) ↔ x ∈ P'.filter (canSpawn D st.heap) :=
    fun x => (hp.filter _).mem_iff
  refine ⟨h.heapOk, h.keeps, h.brk, rfl, fun y hy hn => h.same y hy fun hm => hn ((hmem y).mp hm),
    fun y hy => h.spawned y ((hmem y).mpr hy), fun a c ha hc => ?_, fun hnil => ?_⟩
  · obtain ⟨hcl, hd, y, hy, hay⟩ := h.new a c ha hc
    exact ⟨hcl, hd, y, (hmem y).mp hy, hay⟩
  · have hnil' : P.filter (canSpawn D st.heap) = [] :=
      List.perm_nil.mp (hnil ▸ hp.filter (canSpawn D st.heap))
    rw [h.idle hnil', hnil, List.map_nil, List.append_nil]

variable (env : KdEnv α) (M : Nat → Nat → α) (n f T splitDim : Nat)

/-- How far the sequential reading of `build` has got. The two numbers go down: the first with each
    half of a round, by the bound of `Building.round`, and the second with each node of a loop. -/
inductive BuildInv : Nat × Nat → BuildRun α → Prop
  | root {m : Training (KdNode α)} (h : Arrived T (init env splitDim) m) :
      BuildInv (2 * remaining n 0 0 + 3, 0) ⟨m, .root⟩
  | head {m : Training (KdNode α)} {q : Scheduler × TreeState α} {full : List (List Nat)}
      {P pend : List Nat} (h : Toward env T q m)
      (b : Rounds env.maxDepth M n f q.1 q.2 full P pend) (hr : Root n splitDim q.2.heap) :
      BuildInv (2 * remaining n full.length pend.length + 2, 0) ⟨m, .head⟩
  | spawning {m : Training (KdNode α)} {s : Scheduler} {st st₁ : TreeState α}
      {full : List (List Nat)} {P pend done rest : List Nat}
      (b : Rounds env.maxDepth M n f s st full P pend) (hr : Root n splitDim st.heap)
      (hs : SpawnedAll M n f env.maxDepth done st st₁) (hperm : (done ++ rest).Perm P)
      (h : Arrived T (s, st₁) m) :
      BuildInv (2 * remaining n full.length pend.length + 1, 2 * P.length + rest.length + 2)
        ⟨m, .spawning P rest (done.any (canSpawn env.maxDepth st.heap))⟩
  | left {m : Training (KdNode α)} {q q' : Scheduler × TreeState α} {full : List (List Nat)}
      {P pend rest : List Nat} (h : Toward env T q m)
      (hrest : rest.foldlM (scheduleChildren env) q = .ok q')
      (b : Rounds env.maxDepth M n f q'.1 q'.2 full P pend) (hr : Root n splitDim q'.2.heap) :
      BuildInv (2 * remaining n full.length pend.length + 3, 2 * rest.length + 1) ⟨m, .left rest⟩
  | right {m : Training (KdNode α)} {q q₁ q' : Scheduler × TreeState α} {full : List (List Nat)}
      {P pend rest : List Nat} {x : Nat} {k : KdNode α} (h : Toward env T q m)
      (hk : q.2.heap.read x = .ok k) (hright : scheduleChild env k.right q = .ok q₁)
      (hrest : rest.foldlM (scheduleChildren env) q₁ = .ok q')
      (b : Rounds env.maxDepth M n f q'.1 q'.2 full P pend) (hr : Root n splitDim q'.2.heap) :
      BuildInv (2 * remaining n full.length pend.length + 3, 2 * rest.length + 2)
        ⟨m, .right x rest⟩
  | returned {m : Training (KdNode α)} {q : Scheduler × TreeState α} {full : List (List Nat)}
      {P pend : List Nat} (h : Arrived T q m)
      (b : Rounds env.maxDepth M n f q.1 q.2 full P pend) (hr : Root n splitDim q.2.heap)
      (hend : P.any (canSpawn env.maxDepth q.2.heap) = false) : BuildInv (0, 0) ⟨m, .returned⟩

/-- The order of `BuildInv`. -/
def Lower (r' r : Nat × Nat) : Prop := Prod.Lex (· < ·) (· < ·) r' r

variable {env M n f T splitDim} {colwise : Bool} {s s' : BuildRun α} {r : Nat × Nat}

theorem Toward.inv {q : Scheduler × TreeState α} {m : Training (KdNode α)} (h : Toward env T q m) :
    Inv T m.pool := by
  cases h with
  | arrived h => exact h.inv
  | call _ _ _ _ hcall => exact hcall.inv

theorem BuildInv.inv (h : BuildInv env M n f T splitDim r s) : Inv T s.training.pool := by
  cases h with
  | root h => exact h.inv
  | head h _ _ => exact h.inv
  | spawning _ _ _ _ h => exact h.inv
  | left h _ _ _ => exact h.inv
  | right h _ _ _ _ _ => exact h.inv
  | returned h _ _ _ => exact h.inv

/-- No node has faulted. -/
theorem BuildInv.heap_ok (h : BuildInv env M n f T splitDim r s) :
    ∃ heap, s.training.heap = .ok heap := by
  cases h with
  | root h => exact ⟨_, h.heap⟩
  | head h _ _ => exact h.refines.1
  | spawning _ _ _ _ h => exact ⟨_, h.heap⟩
  | left h _ _ _ => exact h.refines.1
  | right h _ _ _ _ _ => exact h.refines.1
  | returned h _ _ _ => exact ⟨_, h.heap⟩

/-- When `build` has returned, its last round had nothing to spawn. -/
theorem BuildInv.rounds (h : BuildInv env M n f T splitDim r s) (hret : s.pc = .returned)
    {heap : Heap (KdNode α)} (hheap : s.training.heap = .ok heap) :
    ∃ lists st full P pend, Rounds env.maxDepth M n f lists st full P pend ∧ st.heap = heap ∧
      Root n splitDim heap ∧ P.any (canSpawn env.maxDepth heap) = false := by
  cases h with
  | returned h b hr hend =>
    cases h.heap.symm.trans hheap
    exact ⟨_, _, _, _, _, b, rfl, hr, hend⟩
  | _ => cases hret

theorem BuildInv.built (h : BuildInv env M n f T splitDim r s) (hret : s.pc = .returned)
    {heap : Heap (KdNode α)} (hheap : s.training.heap = .ok heap) :
    Built M n f env.maxDepth splitDim heap := by
  obtain ⟨_, st, _, _, _, b, rfl, hr, hend⟩ := h.rounds hret hheap
  exact b.building.built hr hend

theorem BuildInv.thread (h : BuildInv env M n f T splitDim r s) (hT : 1 ≤ T) (hT' : T < 2 ^ 32)
    {l : Label} (hl : l.isCall = false) {m' : Training (KdNode α)}
    (hs : Training.step (kdTask env) l s.training = some m') :
    BuildInv env M n f T splitDim r { s with training := m' } := by
  cases h with
  | root h => exact .root (h.step hT hT' hl hs)
  | head h b hr => exact .head (h.step hT hT' hl hs) b hr
  | spawning b hr hsp hperm h => exact .spawning b hr hsp hperm (h.step hT hT' hl hs)
  | left h hrest b hr => exact .left (h.step hT hT' hl hs) hrest b hr
  | right h hk hright hrest b hr => exact .right (h.step hT hT' hl hs) hk hright hrest b hr
  | returned h b hr hend => exact .returned (h.step hT hT' hl hs) b hr hend

/-- A child is scheduled, if there is one. -/
theorem Arrived.scheduleChild {m : Training (KdNode α)} {q q' : Scheduler × TreeState α}
    (h : Arrived T q m) (hT : 1 ≤ T) (hT' : T < 2 ^ 32) {p : Ptr} {pc pc' : BuildPc}
    (hseq : KdTree.scheduleChild env p q = .ok q') (hnodup : ∀ l ∈ q'.1.nodes, l.Nodup)
    (hs : BuildRun.scheduleChild env ⟨m, pc⟩ p pc' = some s') :
    ∃ m', s' = ⟨m', pc'⟩ ∧ Toward env T q' m' := by
  cases p with
  | none =>
    cases hseq
    cases hs
    exact ⟨m, rfl, .arrived h⟩
  | some a =>
    obtain ⟨m', hm', rfl⟩ := Option.map_eq_some_iff.mp hs
    exact ⟨m', rfl, h.call hT hT' hseq hnodup hm'⟩

theorem BuildInv.build (henv : env.io = .ofMatrix M n f colwise) (hn : 1 ≤ n) (hn' : n < 2 ^ 32)
    (hsplit : splitDim < f) (h : BuildInv env M n f T splitDim r s) (hT : 1 ≤ T) (hT' : T < 2 ^ 32)
    {heap : Heap (KdNode α)} (hheap : s.training.heap = .ok heap)
    (hidle : s.training.pool.pc = .idle) (hs : s.buildStep env heap = some s') :
    ∃ r', BuildInv env M n f T splitDim r' s' ∧ Lower r' r := by
  cases h with
  | @root m h =>
    obtain ⟨s₁, st₁, hseq, hr, hb⟩ := rounds_start henv hn hn' hsplit
    obtain ⟨m', rfl, h'⟩ := h.scheduleChild (p := some 0) hT hT' hseq hb.building.lists_nodup hs
    exact ⟨_, .head h' hb hr, .left _ _ (Nat.lt_succ_self _)⟩
  | @head m q full P pend h b hr =>
    have ha := h.refines.2 hidle
    have hlevel : q.1.currentLevel - 1 = full.length := by
      rw [b.building.lists.level, List.length_append, List.length_singleton, Nat.add_sub_cancel]
    have hnodes : q.1.getNodes full.length = .ok P := by
      rw [b.building.lists.getNodes (by simp)]
      simp
    simp only [BuildRun.buildStep, ha.lists, hlevel, hnodes] at hs
    rw [if_neg (not_not.mpr b.building.depthLe)] at hs
    cases hs
    exact ⟨_, .spawning b hr (.nil b.building.levels.heapOk) (List.Perm.refl P) ha,
      .left _ _ (Nat.lt_succ_self _)⟩
  | @spawning m s st st₁ full P pend done rest b hr hsp hperm ha =>
    cases rest with
    | cons x xs => cases hs
    | nil =>
      rw [List.append_nil] at hperm
      have hsp' := hsp.perm hperm
      have hany : done.any (canSpawn env.maxDepth st.heap) =
          P.any (canSpawn env.maxDepth st.heap) := hperm.any_eq
      have hlevel : s.currentLevel - 1 = full.length := by
        rw [b.building.lists.level, List.length_append, List.length_singleton, Nat.add_sub_cancel]
      simp only [BuildRun.buildStep, ha.lists, hlevel, hany] at hs
      by_cases hP : P.any (canSpawn env.maxDepth st.heap) = true
      · obtain ⟨hD, -⟩ := b.building.level_of_spawn hP
        obtain ⟨s', st', full', P', pend', hrun, hround, hb, hlt⟩ :=
          b.building.scheduled henv hn hn' hP hsp'
        rw [if_neg (by simp [hP, Nat.ne_of_lt hD])] at hs
        cases hs
        have ha' : Arrived T (s, ⟨st₁.heap,
            st.log ++ (P.filter (canSpawn env.maxDepth st.heap)).map .spawn⟩) m :=
          ⟨ha.inv, ha.pc, ha.lists, ha.heap⟩
        refine ⟨_, .left (.arrived ha') hrun (b.next hP hround hb) (hr.keeps hround.keeps), ?_⟩
        rw [Lower, Prod.lex_def]
        simp only [List.length_nil]
        omega
      · have hfalse := Bool.eq_false_iff.mpr hP
        have hst : st₁ = st := hsp.idle (List.filter_eq_nil_iff.mpr fun x hx hxs =>
          hP (List.any_eq_true.mpr ⟨x, hperm.mem_iff.mp hx, hxs⟩))
        subst hst
        rw [if_pos (Or.inr hfalse)] at hs
        cases hs
        exact ⟨_, .returned ha b hr hfalse, .left _ _ (Nat.succ_pos _)⟩
  | @left m q q' full P pend rest h hrest b hr =>
    have ha := h.refines.2 hidle
    cases ha.heap.symm.trans hheap
    cases rest with
    | nil =>
      cases hrest
      cases hs
      exact ⟨_, .head h b hr, .left _ _ (Nat.lt_succ_self _)⟩
    | cons x rest =>
      rw [List.foldlM_cons] at hrest
      obtain ⟨q₁, hx, hrest⟩ := bind_ok hrest
      obtain ⟨k, hk, hx⟩ := bind_ok hx
      obtain ⟨q₂, hleft, hx⟩ := bind_ok hx
      obtain ⟨k', hk', hright⟩ := bind_ok hx
      have hnodup : ∀ l ∈ q₂.1.nodes, l.Nodup :=
        ((extends_scheduleChild hright).trans (extends_scheduleAll hrest)).nodup
          b.building.lists_nodup
      simp only [BuildRun.buildStep, hk] at hs
      obtain ⟨m', rfl, h'⟩ := ha.scheduleChild hT hT' hleft hnodup hs
      exact ⟨_, .right h' hk' hright hrest b hr, .right _ (Nat.lt_succ_self _)⟩
  | @right m q q₁ q' full P pend rest x k h hk hright hrest b hr =>
    have ha := h.refines.2 hidle
    cases ha.heap.symm.trans hheap
    simp only [BuildRun.buildStep, hk] at hs
    obtain ⟨m', rfl, h'⟩ := ha.scheduleChild hT hT' hright
      ((extends_scheduleAll hrest).nodup b.building.lists_nodup) hs
    exact ⟨_, .left h' hrest b hr, .right _ (Nat.lt_succ_self _)⟩
  | returned h b hr hend => cases hs

variable [Zero α]

/-- The first loop spawns a node, or leaves it. -/
theorem BuildInv.spawn (henv : env.io = .ofMatrix M n f colwise) (hn' : n < 2 ^ 32)
    (h : BuildInv env M n f T splitDim r s) {heap : Heap (KdNode α)}
    (hheap : s.training.heap = .ok heap) {x : Nat} (hs : s.spawnNode env heap x = some s') :
    ∃ r', BuildInv env M n f T splitDim r' s' ∧ Lower r' r := by
  cases h with
  | @spawning m s st st₁ full P pend done rest b hr hsp hperm ha =>
    cases ha.heap.symm.trans hheap
    simp only [BuildRun.spawnNode] at hs
    split at hs
    · next hx =>
      have hxP : x ∈ P := hperm.mem_iff.mp (List.mem_append_right _ hx)
      have hxdone : x ∉ done := fun hd =>
        (List.nodup_append.mp (hperm.nodup_iff.mpr b.building.nodup)).2.2 x hd x hx rfl
      have hperm' : ((done ++ [x]) ++ rest.erase x).Perm P := by
        rw [List.append_assoc]
        exact ((List.perm_cons_erase hx).symm.append_left done).trans hperm
      obtain ⟨k, hk, htr⟩ := b.building.levels.cell (P := P) (by simp) hxP
      have hk₁ : st₁.heap.cell x = some k :=
        (hsp.same x (st.heap.lt_brk hk) fun hm => hxdone (List.mem_filter.mp hm).1).trans hk
      have hany : (done ++ [x]).any (canSpawn env.maxDepth st.heap) =
          (done.any (canSpawn env.maxDepth st.heap) || canSpawn env.maxDepth st.heap x) := by
        simp
      have hlt : Lower (2 * remaining n full.length pend.length + 1,
            2 * P.length + (rest.erase x).length + 2)
          (2 * remaining n full.length pend.length + 1, 2 * P.length + rest.length + 2) := by
        have hpos := List.length_pos_of_mem hx
        refine .right _ ?_
        rw [List.length_erase_of_mem hx]
        omega
      unfold spawnStep at hs
      by_cases hc : canSpawn env.maxDepth st.heap x = true
      · rw [Heap.read_ok hk₁, ok_bind, if_pos ((canSpawn_cell hk).mp hc), spawn_ok hk₁] at hs
        cases hs
        have hnew := BuildInv.spawning (m := ⟨m.pool, .ok (spawned env x k st₁.heap)⟩) b hr
          (hsp.spawn henv hn' hc hxdone hk htr) hperm' ⟨ha.inv, ha.pc, ha.lists, rfl⟩
        rw [hany, hc, Bool.or_true] at hnew
        exact ⟨_, hnew, hlt⟩
      · rw [Heap.read_ok hk₁, ok_bind, if_neg fun h => hc ((canSpawn_cell hk).mpr h)] at hs
        cases hs
        have hnew := BuildInv.spawning (m := ⟨m.pool, .ok st₁.heap⟩) b hr
          (hsp.skip (Bool.eq_false_iff.mpr hc)) hperm' ⟨ha.inv, ha.pc, ha.lists, rfl⟩
        rw [hany, Bool.eq_false_iff.mpr hc, Bool.or_false] at hnew
        exact ⟨_, hnew, hlt⟩
    · cases hs
  | _ => cases hs

/-- A step of `build` lowers the numbers, and one of the threads leaves them. -/
theorem BuildInv.step (henv : env.io = .ofMatrix M n f colwise) (hn : 1 ≤ n) (hn' : n < 2 ^ 32)
    (hsplit : splitDim < f) (h : BuildInv env M n f T splitDim r s) (hT : 1 ≤ T) (hT' : T < 2 ^ 32)
    {l : BuildLabel} (hs : BuildRun.step env l s = some s') :
    ∃ r', BuildInv env M n f T splitDim r' s' ∧
      (Lower r' r ∨ r' = r ∧ ∃ l', l = .thread l' ∧
        Pool.step l' s.training.pool = some s'.training.pool) := by
  rcases BuildRun.step_cases hs with
    ⟨heap, hheap, hidle, ⟨rfl, hb⟩ | ⟨x, rfl, hsp⟩⟩ | ⟨k, m, rfl, hk, hm, rfl⟩
  · obtain ⟨r', h', hlt⟩ := h.build henv hn hn' hsplit hT hT' hheap hidle hb
    exact ⟨r', h', .inl hlt⟩
  · obtain ⟨r', h', hlt⟩ := h.spawn henv hn' hheap hsp
    exact ⟨r', h', .inl hlt⟩
  · obtain ⟨_, p, -, hp, rfl⟩ := Training.step_cases hm
    exact ⟨r, h.thread hT hT' hk hm, .inr ⟨rfl, k, rfl, hp⟩⟩

omit [Zero α] in
theorem buildInv_start :
    BuildInv env M n f T splitDim (2 * remaining n 0 0 + 3, 0) (.start env T splitDim) :=
  .root ⟨inv_new T 2, .inl rfl, rfl, rfl⟩

/-- Training does not fault, and the tree that it leaves is a `Built` one, for every number of
    workers, every interleaving and every order of the parallel loop. -/
theorem threads_build (henv : env.io = .ofMatrix M n f colwise) (hn : 1 ≤ n) (hn' : n < 2 ^ 32)
    (hsplit : splitDim < f) (hT : 1 ≤ T) (hT' : T < 2 ^ 32)
    (hreach : Lib.Reachable (BuildRun.step env) (.start env T splitDim) s) :
    ∃ heap, s.training.heap = .ok heap ∧
      (s.pc = .returned → Built M n f env.maxDepth splitDim heap ∧ Partition n heap) := by
  obtain ⟨r, hi⟩ : ∃ r, BuildInv env M n f T splitDim r s :=
    hreach.invariant (I := fun s => ∃ r, BuildInv env M n f T splitDim r s) ⟨_, buildInv_start⟩
      fun _ _ _ ⟨_, hi⟩ hs => by
      obtain ⟨r', h', -⟩ := hi.step henv hn hn' hsplit hT hT' hs
      exact ⟨r', h'⟩
  obtain ⟨heap, hheap⟩ := hi.heap_ok
  refine ⟨heap, hheap, fun hret => ?_⟩
  have hb := hi.built hret hheap
  exact ⟨hb, hb.partition⟩

end Threads

/-- One worker and two samples: the root is trained and spawned, and then its children. -/
def twoSamples : List BuildLabel :=
  bursts [(5, .thread .scheduler), (6, .thread (.worker 0)), (3, .thread .scheduler), (1, .build),
    (8, .thread .scheduler), (2, .thread (.worker 0)), (9, .thread .scheduler),
    (17, .thread (.worker 0)), (4, .thread .scheduler), (1, .build), (1, .spawn 0), (2, .build),
    (3, .thread .scheduler), (1, .build), (9, .thread .scheduler), (2, .thread (.worker 0)),
    (9, .thread .scheduler), (24, .thread (.worker 0)), (4, .thread .scheduler), (2, .build),
    (1, .spawn 2), (1, .spawn 1), (1, .build)]

theorem threads_build_two : ∃ s heap,
    Lib.Reachable (BuildRun.step (rampEnv 2 1)) (.start (rampEnv 2 1) 1 0) s ∧
    s.pc = .returned ∧ s.training.heap = .ok heap ∧ Built (fun i _ => i) 2 1 1 0 heap ∧
    Partition 2 heap := by
  have hpc : (run (BuildRun.step (rampEnv 2 1)) twoSamples (.start (rampEnv 2 1) 1 0)).map
      BuildRun.pc = some .returned := by
    decide +kernel
  obtain ⟨s, hs, hret⟩ := Option.map_eq_some_iff.mp hpc
  obtain ⟨heap, hheap, hb⟩ := threads_build
    (show (rampEnv 2 1).io = .ofMatrix (fun i _ => i) 2 1 false from rfl) (by decide) (by decide)
    (by decide) (by decide) (by decide) ⟨twoSamples, hs⟩
  exact ⟨s, heap, ⟨twoSamples, hs⟩, hret, hheap, hb hret⟩

end KdTree

end Monya
