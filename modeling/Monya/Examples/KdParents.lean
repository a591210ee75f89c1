/-
  The parent links of a trained tree.

  `NodeView` and `BinaryNode` both have a field `parent`. `bestow` is a member of `NodeView` and
  writes the field of that class; `get_parent` is a member of `BinaryNode` and reads the other one,
  which the constructor sets to null and nothing writes after it (`noParents_build`). So the links
  are in order only in a tree without children (`parentLinks_iff`).

  What a build keeps is what training and spawning a node keep (`rounds_keep`).
-/
import Monya.Examples.KdLevels

namespace Monya.KdTree

open Monya.Lib Monya.Structures KdNode

/-! ## What a build keeps -/

section Keep

variable {α : Type} [LinearOrder α] [Zero α] {env : KdEnv α} {P : Heap (KdNode α) → Prop}
  (htrain : ∀ x st st', train env x st = .ok st' → P st.heap → P st'.heap)
  (hspawn : ∀ x h h', spawn env x h = .ok h' → P h → P h')

include htrain

omit [Zero α] in
theorem scheduleRound_keeps {xs : List Nat} {s s' : Scheduler × TreeState α}
    (h : xs.foldlM (scheduleChildren env) s = .ok s') (hs : P s.2.heap) : P s'.2.heap := by
  have hchild : ∀ p (s s' : Scheduler × TreeState α), scheduleChild env p s = .ok s' →
      P s.2.heap → P s'.2.heap := by
    intro p s s' h hs
    cases p with
    | none =>
      cases h
      exact hs
    | some a => exact schedule_keeps (P := fun st => P st.heap) htrain h hs
  refine foldlM_rel (R := fun s s' : Scheduler × TreeState α => P s.2.heap → P s'.2.heap)
    (fun _ h => h) (fun _ _ _ h h' hp => h' (h hp)) (fun s x s' h hs => ?_) h hs
  unfold scheduleChildren at h
  obtain ⟨k, -, h⟩ := bind_ok h
  obtain ⟨s₁, h₁, h⟩ := bind_ok h
  obtain ⟨k', -, h⟩ := bind_ok h
  exact hchild _ _ _ h (hchild _ _ _ h₁ hs)

include hspawn

omit htrain in
theorem spawnRound_keeps {xs : List Nat} {acc acc' : TreeState α × Bool}
    (h : xs.foldlM (spawnStep env) acc = .ok acc') (hs : P acc.1.heap) : P acc'.1.heap := by
  refine foldlM_rel (R := fun acc acc' : TreeState α × Bool => P acc.1.heap → P acc'.1.heap)
    (fun _ h => h) (fun _ _ _ h h' hp => h' (h hp)) (fun acc x acc' h hs => ?_) h hs
  unfold spawnStep at h
  obtain ⟨k, -, h⟩ := bind_ok h
  split at h
  · obtain ⟨h', hsp, h⟩ := bind_ok h
    cases h
    exact hspawn x _ _ hsp hs
  · cases h
    exact hs

theorem buildStep_keeps {s s' : Scheduler × TreeState α}
    {p : Pass (Scheduler × TreeState α) (Scheduler × TreeState α)} (h : buildStep env s = .ok p)
    (hp : p = .next s' ∨ p = .done s') (hs : P s.2.heap) : P s'.2.heap := by
  unfold buildStep at h
  simp only at h
  split at h
  · cases h
  · obtain ⟨xs, -, h⟩ := bind_ok h
    obtain ⟨⟨st₁, b⟩, hsp, h⟩ := bind_ok h
    have h₁ : P st₁.heap := spawnRound_keeps hspawn hsp hs
    dsimp only at h
    split at h
    · cases h
      rcases hp with hp | hp
      · cases hp
      · cases hp
        exact h₁
    · obtain ⟨s₂, hsch, h⟩ := bind_ok h
      cases h
      rcases hp with hp | hp
      · cases hp
        exact scheduleRound_keeps htrain hsch h₁
      · cases hp

theorem rounds_keep {fuel : Nat} {s s' : Scheduler × TreeState α}
    (h : loop (buildStep env) fuel s = .ok s') (hs : P s.2.heap) : P s'.2.heap :=
  loop_ok_keeps (I := fun s => P s.2.heap) (Q := fun s => P s.2.heap)
    (fun _ _ hb hs => buildStep_keeps htrain hspawn hb (Or.inl rfl) hs)
    (fun _ _ hb hs => buildStep_keeps htrain hspawn hb (Or.inr rfl) hs) h hs

end Keep

/-! ## The links -/

section Links

variable {α : Type}

/-- Every child knows its parent, and the root has none. -/
structure ParentLinks (h : Heap (KdNode α)) : Prop where
  root : ∃ k, h.cell 0 = some k ∧ k.getParent = none
  child : ∀ x k c, Reachable h x → h.cell x = some k → (k.left = some c ∨ k.right = some c) →
    ∃ kc, h.cell c = some kc ∧ kc.getParent = some x

/-- `BinaryNode::parent` is null everywhere. -/
def NoParents (h : Heap (KdNode α)) : Prop := ∀ x k, h.cell x = some k → k.parent = none

/-- The root has been spawned. -/
def RootSpawned (h : Heap (KdNode α)) : Prop := ∃ k l, h.cell 0 = some k ∧ k.left = some l

theorem NoParents.not_parentLinks {h : Heap (KdNode α)} (hno : NoParents h) (hr : RootSpawned h) :
    ¬ ParentLinks h := by
  intro hl
  obtain ⟨k, l, hk, hleft⟩ := hr
  obtain ⟨kc, hkc, hp⟩ := hl.child 0 k l ⟨0, .root⟩ hk (Or.inl hleft)
  have hnone : kc.getParent = none := hno l kc hkc
  rw [hnone] at hp
  cases hp

/-- A root on its own. -/
theorem NoParents.parentLinks {h : Heap (KdNode α)} (hno : NoParents h) {k : KdNode α}
    (hk : h.cell 0 = some k) (hc : Childless k) : ParentLinks h := by
  have honly : ∀ d x, AtDepth h d x → x = 0 := by
    intro d x hx
    induction hx with
    | root => rfl
    | child _ ha ih =>
      rw [ih, hc.kids hk] at ha
      cases ha
  refine ⟨⟨k, hk, hno 0 k hk⟩, ?_⟩
  rintro x k' c ⟨d, hx⟩ hk' hchild
  rw [honly d x hx] at hk'
  cases hk.symm.trans hk'
  rw [hc.1, hc.2] at hchild
  rcases hchild with h | h <;> cases h

variable [LinearOrder α] {env : KdEnv α}

theorem noParents_train (x : Nat) (st st' : TreeState α) (h : train env x st = .ok st')
    (hs : NoParents st.heap) : NoParents st'.heap := by
  obtain ⟨k, k', hk, hheap, hsame⟩ := train_same h
  intro a c hc
  rw [hheap] at hc
  rcases update_const_cell hk hc with ⟨-, rfl⟩ | ⟨-, hc⟩
  · exact hsame.parent.trans (hs x k hk)
  · exact hs a c hc

theorem rootSpawned_train (x : Nat) (st st' : TreeState α) (h : train env x st = .ok st')
    (hs : RootSpawned st.heap) : RootSpawned st'.heap := by
  obtain ⟨k, l, hk, hl⟩ := hs
  obtain ⟨k', hk', hleft, -⟩ := train_links h 0 k hk
  exact ⟨k', l, hk', hleft.trans hl⟩

variable [Zero α]

theorem spawned_of_spawn {x : Nat} {h h' : Heap (KdNode α)} (hsp : spawn env x h = .ok h') :
    ∃ k, h.cell x = some k ∧ h' = spawned env x k h := by
  have hread := hsp
  unfold spawn at hread
  obtain ⟨k, hk, -⟩ := bind_ok hread
  have hk := Heap.cell_of_read hk
  exact ⟨k, hk, Except.ok.inj (hsp.symm.trans (spawn_ok hk))⟩

/-- `bestow` writes the parent field that `get_parent` does not read. -/
theorem noParents_spawn (x : Nat) (h h' : Heap (KdNode α)) (hsp : spawn env x h = .ok h')
    (hs : NoParents h) : NoParents h' := by
  obtain ⟨k, hk, rfl⟩ := spawned_of_spawn hsp
  intro a c hc
  rcases spawned_cell_cases hk hc with ⟨-, rfl⟩ | ⟨-, rfl⟩ | ⟨-, rfl⟩ | ⟨-, hc⟩
  · exact hs x k hk
  · rfl
  · rfl
  · exact hs a c hc

theorem rootSpawned_spawn (x : Nat) (h h' : Heap (KdNode α)) (hsp : spawn env x h = .ok h')
    (hs : RootSpawned h) : RootSpawned h' := by
  obtain ⟨k, hk, rfl⟩ := spawned_of_spawn hsp
  obtain ⟨k₀, l, hk₀, hl⟩ := hs
  rcases eq_or_ne x 0 with rfl | hx
  · exact ⟨_, _, spawned_cell_self env hk, rfl⟩
  · exact ⟨k₀, l, by rw [spawned_cell_old env k (h.lt_brk hk₀) hx.symm, hk₀], hl⟩

/-- The parent fields after the first call to `schedule` and the rounds. -/
theorem noParents_build {splitDim fuel : Nat} {s₁ s : Scheduler × TreeState α}
    (hsch : Scheduler.schedule (train env) 0 (init env splitDim) = .ok s₁)
    (hloop : loop (buildStep env) fuel s₁ = .ok s) : NoParents s.2.heap := by
  have hinit : NoParents (init env splitDim).2.heap := by
    intro x k hk
    simp only [init, Heap.alloc_cell] at hk
    split at hk
    · cases hk
      rfl
    · cases hk
  exact rounds_keep noParents_train noParents_spawn hloop
    (schedule_keeps (P := fun st => NoParents st.heap) noParents_train hsch hinit)

/-- The first round spawns the root if it is above the depth limit and has two samples; otherwise
    the build ends there. -/
theorem first_round {fuel : Nat} {k : KdNode α} {s₁ s : Scheduler × TreeState α}
    (hat : s₁.1.At [[0]] []) (hk : s₁.2.heap.cell 0 = some k) (hd : k.depth = 0)
    (hloop : loop (buildStep env) fuel s₁ = .ok s) :
    if 0 < env.maxDepth ∧ 1 < k.size then RootSpawned s.2.heap else s = s₁ := by
  obtain ⟨sched, st⟩ := s₁
  have hlast : sched.At ([] ++ [[0]]) [] := hat
  have hspawn : [0].foldlM (spawnStep env) (st, false) =
      if 0 < env.maxDepth ∧ 1 < k.size then
        .ok (⟨spawned env 0 k st.heap, st.log ++ [.spawn 0]⟩, true)
      else .ok (st, false) := by
    rw [List.foldlM_cons]
    simp only [List.foldlM_nil, spawnStep, Heap.read_ok hk, ok_bind, hd, spawn_ok hk, pure_ok]
    split <;> rfl
  split
  · next hcan =>
    rw [if_pos hcan] at hspawn
    have hstep := buildStep_eq hlast (Nat.zero_le _) hspawn
    rw [if_neg (by simp; omega)] at hstep
    have hroot : RootSpawned (spawned env 0 k st.heap) := ⟨_, _, spawned_cell_self env hk, rfl⟩
    rcases loop_ok_cases hloop with hdone | ⟨s₂, fuel', hnext, hrest, -⟩
    · rw [hstep] at hdone
      obtain ⟨s₂, -, h⟩ := bind_ok hdone
      cases h
    · rw [hstep] at hnext
      obtain ⟨s₃, hsch, h⟩ := bind_ok hnext
      cases h
      exact rounds_keep rootSpawned_train rootSpawned_spawn hrest
        (scheduleRound_keeps rootSpawned_train hsch hroot)
  · next hcan =>
    rw [if_neg hcan] at hspawn
    have hstep := buildStep_eq hlast (Nat.zero_le _) hspawn
    rw [if_pos (Or.inr rfl)] at hstep
    rcases loop_ok_cases hloop with hdone | ⟨s₂, fuel', hnext, -⟩
    · rw [hstep] at hdone
      cases hdone
      rfl
    · rw [hstep] at hnext
      cases hnext

/-- The tree that a build leaves: no node has a parent, and whether the root has children. -/
theorem build_links {splitDim : Nat} {s : Scheduler} {st : TreeState α}
    (hret : Returns (fun fuel => build env fuel 0 (init env splitDim)) (s, st)) :
    NoParents st.heap ∧
      if 0 < env.maxDepth ∧ 1 < env.io.nsamples then RootSpawned st.heap
      else ∃ k, st.heap.cell 0 = some k ∧ Childless k := by
  obtain ⟨N, hN⟩ := hret
  have hok := hN N (le_refl N)
  unfold build at hok
  obtain ⟨s₁, hsch, hloop⟩ := bind_ok hok
  obtain ⟨k₁, k, hrun, hsize, hd, hc, hat, hk⟩ := schedule_root hsch
  have hsame := run_same hrun
  have hfirst := first_round hat hk (hsame.depth.trans hd) hloop
  rw [size_of_run hrun, hsize] at hfirst
  refine ⟨noParents_build hsch hloop, ?_⟩
  split
  · next hcan => rwa [if_pos hcan] at hfirst
  · next hcan =>
    rw [if_neg hcan] at hfirst
    subst hfirst
    exact ⟨k, hk, hsame.left.trans hc.1, hsame.right.trans hc.2⟩

/-- When `build` returns, the parent links are in order exactly if the root has no children: there
    is only one sample, or the depth limit is 0. -/
theorem parentLinks_iff {splitDim : Nat} {s : Scheduler} {st : TreeState α}
    (hret : Returns (fun fuel => build env fuel 0 (init env splitDim)) (s, st)) :
    ParentLinks st.heap ↔ env.io.nsamples ≤ 1 ∨ env.maxDepth = 0 := by
  obtain ⟨hno, hroot⟩ := build_links hret
  split at hroot
  · next hcan => exact iff_of_false (hno.not_parentLinks hroot) (by omega)
  · next hcan =>
    obtain ⟨k, hk, hc⟩ := hroot
    exact iff_of_true (hno.parentLinks hk hc) (by omega)

/-- The ramps can be built. -/
theorem rampEnv_returns (n D : Nat) (hn : 1 ≤ n) (hn' : n < 2 ^ 32) :
    ∃ s st, Returns (fun fuel => build (rampEnv n D) fuel 0 (init (rampEnv n D) 0)) (s, st) := by
  have henv : (rampEnv n D).io = .ofMatrix (fun i _ => i) n 1 false := rfl
  obtain ⟨s, st, full, P, pend, hret, -⟩ := build_returns henv hn hn' (show 0 < 1 by decide)
    (fun _ _ _ _ => True) (fun _ _ _ => trivial) (fun _ _ _ _ _ _ _ _ _ _ _ _ _ => trivial)
  exact ⟨s, st, hret⟩

/-- One sample: the root has no children. -/
theorem parentLinks_one :
    ∃ s st, Returns (fun fuel => build (rampEnv 1 3) fuel 0 (init (rampEnv 1 3) 0)) (s, st) ∧
      ParentLinks st.heap := by
  obtain ⟨s, st, hret⟩ := rampEnv_returns 1 3 (by decide) (by decide)
  exact ⟨s, st, hret, (parentLinks_iff hret).mpr (Or.inl (by decide))⟩

/-- Two samples, one level: the children of the root have null parents. -/
theorem orphans_two :
    ∃ s st, Returns (fun fuel => build (rampEnv 2 1) fuel 0 (init (rampEnv 2 1) 0)) (s, st) ∧
      ¬ ParentLinks st.heap := by
  obtain ⟨s, st, hret⟩ := rampEnv_returns 2 1 (by decide) (by decide)
  obtain ⟨hno, hroot⟩ := build_links hret
  rw [if_pos (by decide)] at hroot
  exact ⟨s, st, hret, hno.not_parentLinks hroot⟩

end Links

end Monya.KdTree
