/-
  `build` with its threads comes to an end.

  Each step of `build` lowers the numbers of `BuildInv`, and each step of a thread the rank of the
  pool (`Ranked.step`), so there is no infinite run without spurious wake-ups. A run that has lost
  no signal can go on, one way or another, until `build` has returned (`Alive.exists_step`).
-/
import Monya.Examples.KdThreads
import Monya.Structures.Progress

namespace Monya

open Monya.Lib Monya.Structures

/-- The steps of the threads themselves: no wake-up without a signal. -/
def BuildLabel.isThread : BuildLabel → Bool
  | .thread l => l.isThread
  | _ => true

def BuildLabel.losesSignal {α : Type} (l : BuildLabel) (s : BuildRun α) : Prop :=
  match l with
  | .thread l => LosesSignal l s.training.pool
  | _ => False

instance {α : Type} (l : BuildLabel) (s : BuildRun α) : Decidable (l.losesSignal s) :=
  match l with
  | .thread l => inferInstanceAs (Decidable (LosesSignal l s.training.pool))
  | .build => .isFalse id
  | .spawn _ => .isFalse id

namespace BuildRun

section Pool

variable {α : Type} [LinearOrder α] {env : KdEnv α} {s s' : BuildRun α}

/-- `build` leaves the pool alone, or calls `schedule`. -/
def Calls (s s' : BuildRun α) : Prop :=
  s'.training.pool = s.training.pool ∨
    ∃ x, Pool.step (.call x) s.training.pool = some s'.training.pool

theorem calls_scheduleChild {p : Ptr} {pc : BuildPc} (h : s.scheduleChild env p pc = some s') :
    Calls s s' := by
  cases p with
  | none =>
    cases h
    exact .inl rfl
  | some a =>
    obtain ⟨m, hm, rfl⟩ := Option.map_eq_some_iff.mp h
    obtain ⟨_, q, -, hq, rfl⟩ := Training.step_cases hm
    exact .inr ⟨a, hq⟩

theorem calls_buildStep {heap : Heap (KdNode α)} (h : s.buildStep env heap = some s') :
    Calls s s' := by
  unfold buildStep at h
  dsimp only at h
  split at h
  · exact calls_scheduleChild h
  · split at h
    · cases h
      exact .inl rfl
    · split at h <;> cases h <;> exact .inl rfl
  · cases h
    exact .inl rfl
  · cases h
  · cases h
    exact .inl rfl
  · split at h
    · cases h
      exact .inl rfl
    · exact calls_scheduleChild h
  · split at h
    · cases h
      exact .inl rfl
    · exact calls_scheduleChild h
  · cases h

variable [Zero α]

theorem calls_spawnNode {heap : Heap (KdNode α)} {x : Nat}
    (h : s.spawnNode env heap x = some s') : Calls s s' := by
  unfold spawnNode at h
  split at h
  · split at h
    · split at h <;> cases h <;> exact .inl rfl
    · cases h
  · cases h

theorem calls_of_step {l : BuildLabel} (h : step env l s = some s') :
    Calls s s' ∨ ∃ l', l = .thread l' ∧ Pool.step l' s.training.pool = some s'.training.pool := by
  rcases step_cases h with ⟨heap, -, -, ⟨rfl, hs⟩ | ⟨x, rfl, hs⟩⟩ | ⟨k, m, rfl, -, hm, rfl⟩
  · exact .inl (calls_buildStep hs)
  · exact .inl (calls_spawnNode hs)
  · obtain ⟨_, q, -, hq, rfl⟩ := Training.step_cases hm
    exact .inr ⟨k, rfl, hq⟩

/-- The steps that lose no signal. -/
def safeStep (env : KdEnv α) : BuildLabel → BuildRun α → Option (BuildRun α) :=
  only (fun l s => ¬ l.losesSignal s) (step env)

end Pool

end BuildRun

namespace KdTree

section Progress

variable {α : Type} [LinearOrder α] [Zero α] {env : KdEnv α} {M : Nat → Nat → α}
  {n f T splitDim : Nat} {colwise : Bool} {s s' : BuildRun α} {r : Nat × Nat}

theorem live_step {l : BuildLabel} (hi : Inv T s.training.pool) (hT : 1 ≤ T) (hT' : T < 2 ^ 32)
    (hwake : AllWakeful s.training.pool) (hsig : Signalled s.training.pool)
    (hsafe : ¬ l.losesSignal s) (hs : BuildRun.step env l s = some s') :
    AllWakeful s'.training.pool ∧ Signalled s'.training.pool := by
  rcases BuildRun.calls_of_step hs with (heq | ⟨x, hx⟩) | ⟨l', rfl, hl'⟩
  · rw [heq]
    exact ⟨hwake, hsig⟩
  · refine ⟨hwake.step hi hT hT' hx, hsig.step ?_ hx⟩
    rintro ⟨_, _, _, _, hl, _⟩
    cases hl
  · exact ⟨hwake.step hi hT hT' hl', hsig.step hsafe hl'⟩

variable (env) in
omit [Zero α] in
theorem exists_scheduleChild {heap : Heap (KdNode α)} (hheap : s.training.heap = .ok heap)
    (hidle : s.training.pool.pc = .idle) (p : Ptr) (pc : BuildPc) :
    ∃ s', s.scheduleChild env p pc = some s' := by
  cases p with
  | none => exact ⟨_, rfl⟩
  | some a =>
    have hcall : Pool.step (.call a) s.training.pool =
        some { s.training.pool with pc := .scheduleLock a } := by
      rw [Pool.step, if_pos hidle]
      rfl
    unfold BuildRun.scheduleChild Training.step
    rw [hheap]
    dsimp only
    rw [hcall]
    exact ⟨_, rfl⟩

variable (env) in
/-- `build` can go on when it is not in a call. -/
theorem build_goes_on {heap : Heap (KdNode α)} (hheap : s.training.heap = .ok heap)
    (hidle : s.training.pool.pc = .idle) (hp : s.pc ≠ .returned) :
    ∃ l s', l.isThread = true ∧ ¬ l.losesSignal s ∧ BuildRun.step env l s = some s' := by
  have hat : ∀ g : Heap (KdNode α) → Option (BuildRun α), s.atBuild g = g heap := fun g => by
    rw [BuildRun.atBuild, hheap]
    exact if_pos hidle
  have hbuild : (∃ s', s.buildStep env heap = some s') →
      ∃ l s', l.isThread = true ∧ ¬ l.losesSignal s ∧ BuildRun.step env l s = some s' := by
    rintro ⟨s', hs⟩
    exact ⟨.build, s', rfl, id, by rw [BuildRun.step, hat, hs]⟩
  cases hpc : s.pc with
  | root =>
    obtain ⟨s', hs⟩ := exists_scheduleChild env hheap hidle (some 0) .head
    exact hbuild ⟨s', by rw [BuildRun.buildStep, hpc]; exact hs⟩
  | head =>
    refine hbuild ?_
    rw [BuildRun.buildStep, hpc]
    dsimp only
    split
    · exact ⟨_, rfl⟩
    · split <;> exact ⟨_, rfl⟩
  | spawning nodes rest oneSpawned =>
    cases rest with
    | nil =>
      refine hbuild ?_
      rw [BuildRun.buildStep, hpc]
      exact ⟨_, rfl⟩
    | cons x rest =>
      have hspawn : ∃ s', s.spawnNode env heap x = some s' := by
        unfold BuildRun.spawnNode
        rw [hpc]
        dsimp only
        rw [if_pos List.mem_cons_self]
        split <;> exact ⟨_, rfl⟩
      obtain ⟨s', hs⟩ := hspawn
      exact ⟨.spawn x, s', rfl, id, by rw [BuildRun.step, hat, hs]⟩
  | left nodes =>
    refine hbuild ?_
    rw [BuildRun.buildStep, hpc]
    cases nodes with
    | nil => exact ⟨_, rfl⟩
    | cons x nodes =>
      dsimp only
      split
      · exact ⟨_, rfl⟩
      · exact exists_scheduleChild env hheap hidle _ _
  | right x nodes =>
    refine hbuild ?_
    rw [BuildRun.buildStep, hpc]
    dsimp only
    split
    · exact ⟨_, rfl⟩
    · exact exists_scheduleChild env hheap hidle _ _
  | returned => exact absurd hpc hp

variable (env M n f T splitDim) in
/-- What holds in every state of a run that has lost no signal. -/
structure Alive (s : BuildRun α) : Prop where
  inv : ∃ r, BuildInv env M n f T splitDim r s
  wakeful : AllWakeful s.training.pool
  signalled : Signalled s.training.pool

omit [Zero α] in
theorem alive_start : Alive env M n f T splitDim (.start env T splitDim) :=
  ⟨⟨_, buildInv_start⟩, fun t w hw => by simp [BuildRun.start, Pool.new] at hw,
    fun hs => by cases hs⟩

theorem Alive.step (h : Alive env M n f T splitDim s) (henv : env.io = .ofMatrix M n f colwise)
    (hn : 1 ≤ n) (hn' : n < 2 ^ 32) (hsplit : splitDim < f) (hT : 1 ≤ T) (hT' : T < 2 ^ 32)
    {l : BuildLabel} (hs : BuildRun.safeStep env l s = some s') :
    Alive env M n f T splitDim s' := by
  obtain ⟨hsafe, hs⟩ := only_eq_some.mp hs
  obtain ⟨r, hb⟩ := h.inv
  obtain ⟨r', hb', -⟩ := hb.step henv hn hn' hsplit hT hT' hs
  obtain ⟨hwake, hsig⟩ := live_step hb.inv hT hT' h.wakeful h.signalled hsafe hs
  exact ⟨⟨r', hb'⟩, hwake, hsig⟩

/-- A run that has lost no signal can go on until `build` has returned. -/
theorem Alive.exists_step (h : Alive env M n f T splitDim s) (hp : s.pc ≠ .returned) :
    ∃ l s', l.isThread = true ∧ BuildRun.safeStep env l s = some s' := by
  obtain ⟨r, hb⟩ := h.inv
  obtain ⟨heap, hheap⟩ := hb.heap_ok
  by_cases hidle : s.training.pool.pc = .idle
  · obtain ⟨l, s', hl, hsafe, hs⟩ := build_goes_on env hheap hidle hp
    exact ⟨l, s', hl, only_eq_some.mpr ⟨hsafe, hs⟩⟩
  · obtain ⟨l, p, hl, hsafe, hs⟩ := hb.inv.exists_step h.wakeful h.signalled hidle
    have hcall : l.isCall = false := by
      cases l with
      | call x => cases hl
      | _ => rfl
    refine ⟨.thread l, ⟨⟨p, doTasks (kdTask env) (p.log.drop s.training.pool.log.length) heap⟩,
      s.pc⟩, hl, only_eq_some.mpr ⟨hsafe, ?_⟩⟩
    rw [BuildRun.step, hcall, if_neg Bool.false_ne_true, Training.step, hheap]
    dsimp only
    rw [hs]
    rfl

variable (env M n f T splitDim) in
/-- The numbers of `BuildInv` and the rank of the pool, in this order. -/
def Ranked (r : (Nat × Nat) × Nat) (s : BuildRun α) : Prop :=
  BuildInv env M n f T splitDim r.1 s ∧ r.2 = s.training.pool.rank

theorem Ranked.step {r : (Nat × Nat) × Nat} (h : Ranked env M n f T splitDim r s)
    (henv : env.io = .ofMatrix M n f colwise) (hn : 1 ≤ n) (hn' : n < 2 ^ 32)
    (hsplit : splitDim < f) (hT : 1 ≤ T) (hT' : T < 2 ^ 32) {l : BuildLabel}
    (hl : l.isThread = true) (hs : BuildRun.step env l s = some s') :
    ∃ r', Ranked env M n f T splitDim r' s' ∧ Prod.Lex Lower (· < ·) r' r := by
  obtain ⟨r, k⟩ := r
  obtain ⟨hb, hk⟩ := h
  obtain rfl : k = s.training.pool.rank := hk
  obtain ⟨r', hb', hlt | ⟨rfl, l', rfl, hp⟩⟩ := hb.step henv hn hn' hsplit hT hT' hs
  · exact ⟨(r', s'.training.pool.rank), ⟨hb', rfl⟩, .left _ _ hlt⟩
  · exact ⟨(r', s'.training.pool.rank), ⟨hb', rfl⟩, .right _ (hb.inv.rank_lt hT hT' hl hp)⟩

theorem lower_wf : WellFounded (Prod.Lex Lower (· < · : Nat → Nat → Prop)) :=
  (wellFounded_lt.prod_lex wellFounded_lt).prod_lex wellFounded_lt

end Progress

end KdTree

end Monya
