/-
  The rounds of `build`, level by level.

  Halving the samples of a node leaves `n / 2 ^ p` or one more of them to each node of level `p`
  (`Building.halves`), so every node above level `log n` is spawned and each of those levels is
  filled by one round. The nodes of level `log n` have one sample or two; those with two are
  spawned again in every round, with new children each time, until enough nodes of level
  `log n + 1` have been scheduled to fill it. No node of that level has more than one sample and
  the build ends there.

  `Building.round` is the step: one round either ends the build or leads to the next state, and
  `Round` says what it did. `build_returns` is the run.
-/
import Mathlib.Data.Nat.Log
import Monya.Examples.KdRound

namespace Monya.KdTree

open Monya.Lib Monya.Structures KdNode

/-! ## Halving -/

section Halving

/-- `k` samples is what a node of level `p` can have. -/
def Halved (n p k : Nat) : Prop := n / 2 ^ p ≤ k ∧ k ≤ n / 2 ^ p + 1

variable {n p k : Nat}

theorem Halved.half (h : Halved n p k) : Halved n (p + 1) (k / 2) := by
  unfold Halved at *
  rw [pow_succ, ← Nat.div_div_eq_div_mul]
  omega

theorem Halved.rest (h : Halved n p k) : Halved n (p + 1) (k - k / 2) := by
  unfold Halved at *
  rw [pow_succ, ← Nat.div_div_eq_div_mul]
  omega

/-- Above level `log n` there are two samples to a node. -/
theorem Halved.two_le (h : Halved n p k) (hn : 1 ≤ n) (hp : p < Nat.log 2 n) : 2 ≤ k := by
  have hpow : 2 ^ (p + 1) ≤ n := Nat.pow_le_of_le_log (by omega) hp
  rw [pow_succ, Nat.mul_comm] at hpow
  exact ((Nat.le_div_iff_mul_le (Nat.two_pow_pos p)).mpr hpow).trans h.1

theorem Halved.one_le (h : Halved n p k) (hn : 1 ≤ n) (hp : p ≤ Nat.log 2 n) : 1 ≤ k := by
  have hpow : 2 ^ p ≤ n := Nat.pow_le_of_le_log (by omega) hp
  exact (Nat.div_pos hpow (Nat.two_pow_pos p)).trans_le h.1

/-- Below it there is one. -/
theorem Halved.le_one (h : Halved n p k) (hp : Nat.log 2 n < p) : k ≤ 1 := by
  have hpow : n < 2 ^ p :=
    (Nat.lt_pow_succ_log_self (by omega) n).trans_le (Nat.pow_le_pow_right (by omega) hp)
  have := h.2
  rw [Nat.div_eq_of_lt hpow] at this
  exact this

end Halving

/-! ## The state between two rounds -/

section Building

variable {α : Type} [LinearOrder α]

/-- Level `full.length`, the nodes of `P`, is the last one that has been run. -/
structure Building (D : Nat) (M : Nat → Nat → α) (n f : Nat) (s : Scheduler) (st : TreeState α)
    (full : List (List Nat)) (P pend : List Nat) : Prop where
  fanout : s.fanout = 2
  lists : s.At (full ++ [P]) pend
  levels : Levels M n f D st (full ++ [P]) pend
  depthLe : full.length ≤ D
  levelLe : full.length ≤ Nat.log 2 n + 1
  width : P.length = 2 ^ full.length
  room : pend.length < 2 ^ (full.length + 1)
  nodes : ∀ x ∈ P, ∃ k, st.heap.cell x = some k ∧ k.depth = full.length ∧
    Halved n full.length k.size
  sum : full.length ≤ Nat.log 2 n → (P.map (sizeAt st.heap)).sum = n
  early : full.length < Nat.log 2 n → pend = []
  waiting : full.length ≤ Nat.log 2 n → ∀ x ∈ pend, ∃ k, st.heap.cell x = some k ∧
    k.depth = full.length + 1 ∧ Halved n (full.length + 1) k.size
  late : Nat.log 2 n < full.length → ∀ x ∈ pend, sizeAt st.heap x ≤ 1
  leaves : ∀ x k, st.heap.cell x = some k → Childless k → canSpawn D st.heap x = true →
    x ∈ P ++ pend

/-- What a round that does not end the build has done. -/
inductive Round (D : Nat) (M : Nat → Nat → α) (n f : Nat) (st : TreeState α)
    (full : List (List Nat)) (P pend : List Nat) :
    TreeState α → List (List Nat) → List Nat → List Nat → Prop
  /-- The new children wait: their level is not full yet. -/
  | wait {st'} (spawned : SpawnedAll M n f D P st st') (level : full.length = Nat.log 2 n) :
      Round D M n f st full P pend st' full P (pend ++ P.flatMap (kids st'.heap))
  /-- The children `ys` have filled their level. -/
  | fill {st₁ st'} {ys zs : List Nat} (spawned : SpawnedAll M n f D P st st₁)
      (children : P.flatMap (kids st₁.heap) = ys ++ zs)
      (trained : TrainedAll M n f D (pend ++ ys) st₁ st')
      (width : pend.length + ys.length = 2 ^ (full.length + 1))
      (early : full.length < Nat.log 2 n → pend = [] ∧ zs = []) :
      Round D M n f st full P pend st' (full ++ [P]) (pend ++ ys) zs

variable {D : Nat} {M : Nat → Nat → α} {n f : Nat} {s : Scheduler} {st st₁ : TreeState α}
  {full : List (List Nat)} {P pend : List Nat}

theorem Building.cell (b : Building D M n f s st full P pend) :
    ∀ x ∈ P, ∃ k, st.heap.cell x = some k := fun x hx => by
  obtain ⟨k, hk, -⟩ := b.nodes x hx
  exact ⟨k, hk⟩

theorem Building.nodup (b : Building D M n f s st full P pend) : P.Nodup := by
  have h := (List.nodup_append.mp b.levels.nodup).1
  rw [List.flatten_append, List.flatten_singleton] at h
  exact (List.nodup_append.mp h).2.1

omit [LinearOrder α] in
/-- A level that is kept by what comes after it. -/
theorem nodes_keeps {h h' : Heap (KdNode α)} (hk : Keeps h h') {Q : List Nat} {p : Nat}
    (hQ : ∀ x ∈ Q, ∃ k, h.cell x = some k ∧ k.depth = p ∧ Halved n p k.size) :
    ∀ x ∈ Q, ∃ k, h'.cell x = some k ∧ k.depth = p ∧ Halved n p k.size := by
  intro x hx
  obtain ⟨k, hc, hd, hs⟩ := hQ x hx
  obtain ⟨k', hc', hs'⟩ := hk x k hc
  exact ⟨k', hc', hs'.depth.trans hd, hs'.size ▸ hs⟩

omit [LinearOrder α] in
theorem sum_keeps {h h' : Heap (KdNode α)} (hk : Keeps h h') {Q : List Nat}
    (hQ : ∀ x ∈ Q, ∃ k, h.cell x = some k) :
    (Q.map (sizeAt h')).sum = (Q.map (sizeAt h)).sum := by
  congr 1
  refine List.map_congr_left fun x hx => ?_
  obtain ⟨k, hc⟩ := hQ x hx
  exact hk.sizeAt hc

/-- The children are what nodes of the next level are. -/
theorem Building.children (b : Building D M n f s st full P pend)
    (hs : SpawnedAll M n f D P st st₁) :
    ∀ a ∈ P.flatMap (kids st₁.heap), ∃ c, st₁.heap.cell a = some c ∧ c.depth = full.length + 1 ∧
      Halved n (full.length + 1) c.size := by
  intro a ha
  obtain ⟨x, hx, hax⟩ := List.mem_flatMap.mp ha
  obtain ⟨k, hk, hd, hh⟩ := nodes_keeps hs.keeps b.nodes x hx
  obtain ⟨k', c, hk', hc, -, -, -, ids, hco, -⟩ := hs.heapOk.child hax
  cases hk.symm.trans hk'
  refine ⟨c, hc, by rw [hco.depth, hd], ?_⟩
  have hsize := hs.heapOk.child_size hax
  rw [sizeAt_eq hk, sizeAt_eq hc] at hsize
  rcases hsize with h | h
  · rw [h]; exact hh.half
  · rw [h]; exact hh.rest

/-- Above level `log n` every node is spawned. -/
theorem Building.all_spawn (b : Building D M n f s st full P pend) (hn : 1 ≤ n)
    (hD : full.length < D) (hp : full.length < Nat.log 2 n) :
    ∀ x ∈ P, canSpawn D st.heap x = true := by
  intro x hx
  obtain ⟨k, hk, hd, hh⟩ := b.nodes x hx
  rw [canSpawn_cell hk, hd]
  exact ⟨hD, hh.two_le hn hp⟩

/-- Where there is something to spawn. -/
theorem Building.level_of_spawn (b : Building D M n f s st full P pend)
    (hany : P.any (canSpawn D st.heap) = true) :
    full.length < D ∧ full.length ≤ Nat.log 2 n := by
  obtain ⟨x, hx, hxs⟩ := List.any_eq_true.mp hany
  obtain ⟨k, hk, hd, hh⟩ := b.nodes x hx
  have hcond := (canSpawn_cell hk).mp hxs
  refine ⟨hd ▸ hcond.1, ?_⟩
  by_contra hlt
  have := hh.le_one (Nat.lt_of_not_le hlt)
  omega

/-- How many children a round makes. -/
theorem Building.length_children (b : Building D M n f s st full P pend)
    (hs : SpawnedAll M n f D P st st₁)
    (hany : P.any (canSpawn D st.heap) = true) :
    0 < (P.flatMap (kids st₁.heap)).length ∧
      (P.flatMap (kids st₁.heap)).length ≤ 2 ^ (full.length + 1) := by
  have hC := hs.length_kids b.cell
  have hpos : 0 < P.countP (canSpawn D st.heap) :=
    List.countP_pos_iff.mpr (List.any_eq_true.mp hany)
  have hle : P.countP (canSpawn D st.heap) ≤ 2 ^ full.length :=
    b.width ▸ List.countP_le_length
  rw [pow_succ]
  omega

theorem Building.length_children_early (b : Building D M n f s st full P pend) (hn : 1 ≤ n)
    (hs : SpawnedAll M n f D P st st₁) (hD : full.length < D)
    (hp : full.length < Nat.log 2 n) :
    (P.flatMap (kids st₁.heap)).length = 2 ^ (full.length + 1) := by
  rw [hs.length_kids b.cell, List.countP_eq_length.mpr (b.all_spawn hn hD hp), b.width, pow_succ,
    Nat.mul_comm]

/-- The children that are scheduled together with the nodes already waiting. -/
theorem Building.candidates (b : Building D M n f s st full P pend)
    (hs : SpawnedAll M n f D P st st₁) (hp : full.length ≤ Nat.log 2 n) :
    ∀ a ∈ pend ++ P.flatMap (kids st₁.heap), ∃ c, st₁.heap.cell a = some c ∧
      c.depth = full.length + 1 ∧ Halved n (full.length + 1) c.size := by
  intro a ha
  rcases List.mem_append.mp ha with ha | ha
  · exact nodes_keeps hs.keeps (b.waiting hp) a ha
  · exact b.children hs a ha

/-- After the first loop, only waiting nodes are still to be spawned. -/
theorem Building.leaves_spawned (b : Building D M n f s st full P pend)
    (hs : SpawnedAll M n f D P st st₁) {x : Nat} {k : KdNode α} (hk : st₁.heap.cell x = some k)
    (hc : Childless k) (hx : canSpawn D st₁.heap x = true) :
    x ∈ pend ++ P.flatMap (kids st₁.heap) := by
  by_cases hlt : x < st.heap.brk
  · have hnot : x ∉ P.filter (canSpawn D st.heap) := fun hm => by
      obtain ⟨hP, hcan⟩ := List.mem_filter.mp hm
      obtain ⟨l, r, hkids, -⟩ := hs.kids_spawned hP hcan
      rw [hc.kids hk] at hkids
      cases hkids
    have hk' : st.heap.cell x = some k := (hs.same x hlt hnot).symm.trans hk
    have hx' : canSpawn D st.heap x = true :=
      (canSpawn_cell hk').mpr ((canSpawn_cell hk).mp hx)
    rcases List.mem_append.mp (b.leaves x k hk' hc hx') with hP | hp
    · exact absurd (List.mem_filter.mpr ⟨hP, hx'⟩) hnot
    · exact List.mem_append_left _ hp
  · obtain ⟨-, -, y, hy, hxy⟩ := hs.new x k (Nat.le_of_not_lt hlt) hk
    exact List.mem_append_right _
      (List.mem_flatMap.mpr ⟨y, (List.mem_filter.mp hy).1, hxy⟩)

theorem Building.wait {s' : Scheduler} (b : Building D M n f s st full P pend)
    (hs : SpawnedAll M n f D P st st₁) (hp : full.length = Nat.log 2 n) (hfan : s'.fanout = 2)
    (hat : s'.At (full ++ [P]) (pend ++ P.flatMap (kids st₁.heap)))
    (hlt : pend.length + (P.flatMap (kids st₁.heap)).length < 2 ^ (full.length + 1)) :
    Building D M n f s' st₁ full P (pend ++ P.flatMap (kids st₁.heap)) where
  fanout := hfan
  lists := hat
  levels := b.levels.spawnedAll (by simp) hs b.nodup
  depthLe := b.depthLe
  levelLe := b.levelLe
  width := b.width
  room := by rwa [List.length_append]
  nodes := nodes_keeps hs.keeps b.nodes
  sum hle := (sum_keeps hs.keeps b.cell).trans (b.sum hle)
  early hlt := absurd hp (Nat.ne_of_lt hlt)
  waiting := b.candidates hs
  late hlt := absurd hp (Nat.ne_of_gt hlt)
  leaves x k hk hc hx := List.mem_append_right _ (b.leaves_spawned hs hk hc hx)

theorem Building.fill {s' : Scheduler} {st₂ : TreeState α} {ys zs : List Nat}
    (b : Building D M n f s st full P pend) (hn : 1 ≤ n) (hs : SpawnedAll M n f D P st st₁)
    (hp : full.length ≤ Nat.log 2 n) (hD : full.length < D) (hfan : s'.fanout = 2)
    (hat : s'.At (full ++ [P] ++ [pend ++ ys]) zs)
    (hl : Levels M n f D st₂ (full ++ [P] ++ [pend ++ ys]) zs)
    (hC : P.flatMap (kids st₁.heap) = ys ++ zs)
    (heq : pend.length + ys.length = 2 ^ (full.length + 1))
    (hzs : zs.length < 2 ^ (full.length + 2))
    (htr : TrainedAll M n f D (pend ++ ys) st₁ st₂)
    (hearly : full.length < Nat.log 2 n → pend = [] ∧ zs = []) :
    Building D M n f s' st₂ (full ++ [P]) (pend ++ ys) zs := by
  have hlen : (full ++ [P]).length = full.length + 1 := by simp
  refine ⟨hfan, hat, hl, ?_, ?_, ?_, ?_, ?_, ?_, ?_, ?_, ?_, ?_⟩
  · rw [hlen]; exact hD
  · rw [hlen]; omega
  · rw [hlen, List.length_append]; exact heq
  · rw [hlen]; exact hzs
  · rw [hlen]
    refine nodes_keeps htr.keeps fun x hx => b.candidates hs hp x ?_
    rw [hC, ← List.append_assoc]
    exact List.mem_append_left _ hx
  · -- no node of an earlier level is left out, so the samples are all still there
    intro hle
    rw [hlen] at hle
    obtain ⟨rfl, rfl⟩ := hearly (by omega)
    rw [List.append_nil] at hC
    have hall := b.all_spawn hn hD (by omega)
    have hcell : ∀ a ∈ ys, ∃ c, st₁.heap.cell a = some c := fun a ha => by
      obtain ⟨c, hc, -⟩ := b.children hs a (hC ▸ ha)
      exact ⟨c, hc⟩
    calc (([] ++ ys).map (sizeAt st₂.heap)).sum
        = (ys.map (sizeAt st₁.heap)).sum := sum_keeps htr.keeps hcell
      _ = (P.map fun x => ((kids st₁.heap x).map (sizeAt st₁.heap)).sum).sum := by
          rw [← hC, List.map_flatMap, List.flatMap_def, List.sum_flatten, List.map_map]
          rfl
      _ = (P.map (sizeAt st₁.heap)).sum := by
          congr 1
          refine List.map_congr_left fun x hx => hs.heapOk.sum_kids ?_
          obtain ⟨l, r, hkids, -⟩ := hs.kids_spawned hx (hall x hx)
          rw [hkids]
          exact List.cons_ne_nil _ _
      _ = n := (sum_keeps hs.keeps b.cell).trans (b.sum (by omega))
  · intro hlt
    rw [hlen] at hlt
    exact (hearly (by omega)).2
  · intro hle x hx
    rw [hlen] at hle
    rw [(hearly (by omega)).2] at hx
    cases hx
  · intro hlt x hx
    rw [hlen] at hlt
    obtain ⟨c, hc, -, hh⟩ := b.children hs x (hC ▸ List.mem_append_right _ hx)
    rw [htr.keeps.sizeAt hc, sizeAt_eq hc]
    exact hh.le_one hlt
  · intro x k hk hcl hx
    by_cases hm : x ∈ pend ++ ys
    · exact List.mem_append_left _ hm
    · have hk' := (htr.same x hm).symm.trans hk
      have := b.leaves_spawned hs hk' hcl ((canSpawn_cell hk').mpr ((canSpawn_cell hk).mp hx))
      rwa [hC, ← List.append_assoc] at this

end Building

/-! ## A round -/

/-- A bound on the rounds to come. -/
def remaining (n level waiting : Nat) : Nat :=
  if Nat.log 2 n < level then 0
  else if level = Nat.log 2 n then 1 + (2 ^ (Nat.log 2 n + 1) - waiting)
  else 2 ^ (Nat.log 2 n + 1) + 2 + (Nat.log 2 n - level)

theorem remaining_wait {n p m k : Nat} (hp : p = Nat.log 2 n) (hk : 0 < k)
    (hlt : m + k < 2 ^ (p + 1)) : remaining n p (m + k) < remaining n p m := by
  subst hp
  simp only [remaining, lt_irrefl, if_false, if_true]
  omega

theorem remaining_fill {n p m k : Nat} (hp : p ≤ Nat.log 2 n) :
    remaining n (p + 1) k < remaining n p m := by
  have := Nat.two_pow_pos (Nat.log 2 n)
  unfold remaining
  split_ifs <;> omega

/-- The first of the children fill the level. -/
theorem exists_fill {pend C : List Nat} {N : Nat} (hroom : pend.length < N)
    (hle : N ≤ pend.length + C.length) :
    ∃ ys zs, C = ys ++ zs ∧ ys ≠ [] ∧ pend.length + ys.length = N := by
  have hlen : (C.take (N - pend.length)).length = N - pend.length := by
    rw [List.length_take]
    omega
  refine ⟨C.take (N - pend.length), C.drop (N - pend.length), ?_, ?_, ?_⟩
  · exact (List.take_append_drop _ _).symm
  · rw [← List.length_pos_iff, hlen]
    omega
  · omega

section Rounds

variable {α : Type} [LinearOrder α] [Zero α] {env : KdEnv α} {M : Nat → Nat → α} {n f : Nat}
  {colwise : Bool} {s : Scheduler} {st : TreeState α} {full : List (List Nat)} {P pend : List Nat}

omit [Zero α] in
/-- The second loop of a round, after a first one that has spawned a node: the children wait, or
    they fill their level and it is run. -/
theorem Building.scheduled (henv : env.io = .ofMatrix M n f colwise) (hn : 1 ≤ n) (hn' : n < 2 ^ 32)
    (b : Building env.maxDepth M n f s st full P pend)
    (hany : P.any (canSpawn env.maxDepth st.heap) = true) {st₁ : TreeState α}
    (hs : SpawnedAll M n f env.maxDepth P st st₁) :
    ∃ s' st' full' P' pend', P.foldlM (scheduleChildren env) (s, st₁) = .ok (s', st') ∧
      Round env.maxDepth M n f st full P pend st' full' P' pend' ∧
      Building env.maxDepth M n f s' st' full' P' pend' ∧
      remaining n full'.length pend'.length < remaining n full.length pend.length := by
  obtain ⟨hD, hp⟩ := b.level_of_spawn hany
  obtain ⟨hpos, hle⟩ := b.length_children hs hany
  have hall := b.length_children_early hn hs hD
  have hl := b.levels.spawnedAll (P := P) (by simp) hs b.nodup
  by_cases hlt : pend.length + (P.flatMap (kids st₁.heap)).length < 2 ^ (full.length + 1)
  · have hpeq : full.length = Nat.log 2 n := by
      by_contra hne
      have := hall (lt_of_le_of_ne hp hne)
      omega
    obtain ⟨s', hrun, hfan, hat⟩ := scheduleRound_pend b.lists b.fanout hl hlt
    refine ⟨s', st₁, full, P, _, hrun, .wait hs hpeq, b.wait hs hpeq hfan hat hlt, ?_⟩
    rw [List.length_append]
    exact remaining_wait hpeq hpos hlt
  · obtain ⟨ys, zs, hsplit, hys, hylen⟩ := exists_fill b.room (Nat.le_of_not_lt hlt)
    have hclen := congrArg List.length hsplit
    rw [List.length_append] at hclen
    have hearly : full.length < Nat.log 2 n → pend = [] ∧ zs = [] := fun hlt => by
      have hnil := b.early hlt
      rw [hall hlt] at hclen
      rw [hnil, List.length_nil] at hylen
      exact ⟨hnil, List.length_eq_zero_iff.mp (by omega)⟩
    have hzlen : zs.length < 2 ^ (full.length + 2) := by
      rw [pow_succ]
      omega
    obtain ⟨s', st₂, hrun, hfan, hat, htr, hl₂⟩ := scheduleRound_full henv hn hn' b.lists b.fanout
      hl hsplit hys hylen hzlen
    refine ⟨s', st₂, _, _, _, hrun, .fill hs hsplit htr hylen hearly,
      b.fill hn hs hp hD hfan hat hl₂ hsplit hylen hzlen htr hearly, ?_⟩
    rw [List.length_append, List.length_singleton]
    exact remaining_fill hp

/-- A round ends the build, without having done anything, or it leads on. -/
theorem Building.round (henv : env.io = .ofMatrix M n f colwise) (hn : 1 ≤ n) (hn' : n < 2 ^ 32)
    (b : Building env.maxDepth M n f s st full P pend) :
    (P.any (canSpawn env.maxDepth st.heap) = false ∧
        buildStep env (s, st) = .ok (.done (s, st))) ∨
      P.any (canSpawn env.maxDepth st.heap) = true ∧
      ∃ s' st' full' P' pend', buildStep env (s, st) = .ok (.next (s', st')) ∧
        Round env.maxDepth M n f st full P pend st' full' P' pend' ∧
        Building env.maxDepth M n f s' st' full' P' pend' ∧
        remaining n full'.length pend'.length < remaining n full.length pend.length := by
  obtain ⟨st₁, hspawn, hs⟩ := spawnAll_ok henv hn' b.nodup b.levels.heapOk
    fun x hx => b.levels.cell (P := P) (by simp) hx
  have hstep := buildStep_eq b.lists b.depthLe hspawn
  by_cases hany : P.any (canSpawn env.maxDepth st.heap) = true
  · obtain ⟨hD, -⟩ := b.level_of_spawn hany
    rw [if_neg (by simp [hany, Nat.ne_of_lt hD])] at hstep
    obtain ⟨s', st', full', P', pend', hrun, hround, hb, hlt⟩ := b.scheduled henv hn hn' hany hs
    refine Or.inr ⟨hany, s', st', full', P', pend', ?_, hround, hb, hlt⟩
    rw [hstep, hrun]
    rfl
  · have hfalse := Bool.eq_false_iff.mpr hany
    have hidle : st₁ = st := hs.idle (List.filter_eq_nil_iff.mpr fun x hx hxs =>
      hany (List.any_eq_true.mpr ⟨x, hx, hxs⟩))
    refine Or.inl ⟨hfalse, ?_⟩
    rw [hstep, if_pos (Or.inr hfalse), hidle]

end Rounds

/-! ## The whole build -/

section Build

variable {α : Type} [LinearOrder α] {M : Nat → Nat → α} {n f D splitDim : Nat} {colwise : Bool}

/-- The root, with all the samples. -/
structure Root (n splitDim : Nat) (h : Heap (KdNode α)) : Prop where
  node : ∃ k, h.cell 0 = some k ∧ k.viewParent = none ∧ k.depth = 0 ∧ k.splitDim = splitDim ∧
    k.ids.Perm (List.range n)

omit [LinearOrder α] in
theorem Root.keeps {h h' : Heap (KdNode α)} (hr : Root n splitDim h) (hk : Keeps h h') :
    Root n splitDim h' := by
  obtain ⟨k, hc, hv, hd, hs, hi⟩ := hr.node
  obtain ⟨k', hc', hsame⟩ := hk 0 k hc
  exact ⟨k', hc', hsame.viewParent.trans hv, hsame.depth.trans hd, hsame.splitDim.trans hs,
    hsame.ids.trans hi⟩

theorem Round.keeps {st st' : TreeState α} {full full' : List (List Nat)}
    {P pend P' pend' : List Nat}
    (r : Round D M n f st full P pend st' full' P' pend') : Keeps st.heap st'.heap := by
  cases r with
  | wait hs _ => exact hs.keeps
  | fill hs _ ht _ _ => exact hs.keeps.trans ht.keeps

/-- A tree as `build` leaves it. -/
structure Built (M : Nat → Nat → α) (n f D splitDim : Nat) (h : Heap (KdNode α)) : Prop where
  heapOk : HeapOk M n f D h
  root : Root n splitDim h
  leaf : ∀ x k, h.cell x = some k → Childless k → ¬ (k.depth < D ∧ 1 < k.size)

variable {env : KdEnv α}

/-- The first call to `schedule` trains the root. -/
theorem start_ok (henv : env.io = .ofMatrix M n f colwise) (hn : 1 ≤ n) (hn' : n < 2 ^ 32)
    (hsplit : splitDim < f) :
    ∃ s st, Scheduler.schedule (train env) 0 (init env splitDim) = .ok (s, st) ∧
      st.log = [.prep 0, .run 0] ∧ kids st.heap 0 = [] ∧ Root n splitDim st.heap ∧
      Building env.maxDepth M n f s st [] [0] [] := by
  set root := ((KdNode.new (env.uninit 0)).setSplitDim splitDim).setIndex splitDim with hroot
  set h₀ : Heap (KdNode α) := Heap.empty.alloc root with hh₀
  have hc₀ : h₀.cell 0 = some root := Heap.alloc_cell_self _ _
  obtain ⟨k₁, k₂, hprep, hrun, hs, hp, ht⟩ :=
    train_ok henv hn hn' 0 (k := root) ⟨rfl, hsplit, fun _ hi => (by cases hi), Nat.zero_le _⟩
  rw [if_pos (show root.ids = [] from rfl)] at hp
  have hsize : k₂.size = n := by rw [← length_ids, hp.length_eq, List.length_range]
  have htrain : train env 0 ⟨h₀, []⟩ = .ok ⟨h₀.update 0 fun _ => k₂, [.prep 0, .run 0]⟩ := by
    unfold train
    rw [Heap.read_ok hc₀, ok_bind, hprep, ok_bind, hrun, ok_bind, Heap.modify_ok hc₀]
    rfl
  have hcell : ∀ x k, (h₀.update 0 fun _ => k₂).cell x = some k → x = 0 ∧ k = k₂ := by
    intro x k hk
    rcases update_const_cell hc₀ hk with h | ⟨hx, hk⟩
    · exact h
    · rw [hh₀, Heap.alloc_cell_ne _ _ hx] at hk
      cases hk
  have hcell₀ : (h₀.update 0 fun _ => k₂).cell 0 = some k₂ := by
    rw [Heap.update_cell_self, hc₀]
    rfl
  have hlevel : ([] ++ [0]).foldlM (fun st x => train env x st) ⟨h₀, []⟩ =
      .ok ⟨h₀.update 0 fun _ => k₂, [.prep 0, .run 0]⟩ := by
    rw [List.nil_append, List.foldlM_cons, htrain]
    rfl
  obtain ⟨s, hsch, hfan, hat⟩ :=
    Scheduler.schedule_full (train env) (Scheduler.at_new 2) 0 rfl ⟨h₀, []⟩ hlevel
  have hc : Childless k₂ := ⟨hs.left, hs.right⟩
  refine ⟨s, _, hsch, rfl, hc.kids hcell₀,
    ⟨k₂, hcell₀, hs.viewParent, hs.depth, hs.splitDim, hp⟩, ?_⟩
  have hnode : NodeOk n f k₂ := by
    refine ⟨?_, ?_, fun i hi => List.mem_range.mp (hp.mem_iff.mp hi), hsize.le, fun hd => ?_⟩
    · rw [hs.reqIndxs, hs.splitDim]
      rfl
    · rw [hs.splitDim]
      exact hsplit
    · exact absurd hs.depth hd
  refine ⟨hfan, hat, ⟨⟨?_, ?_⟩, ?_, ?_, ?_⟩, ?_, ?_, rfl, ?_, ?_, ?_, ?_, ?_, ?_, ?_⟩
  · rintro x k hk
    obtain ⟨rfl, rfl⟩ := hcell x k hk
    exact hnode
  · rintro x k hk
    obtain ⟨rfl, rfl⟩ := hcell x k hk
    exact Or.inl hc
  · simp
  · intro x hx
    obtain rfl : x = 0 := by simpa using hx
    exact ⟨k₂, hcell₀, ht⟩
  · exact fun x hx => by cases hx
  · exact Nat.zero_le _
  · exact Nat.zero_le _
  · simp
  · intro x hx
    obtain rfl : x = 0 := by simpa using hx
    exact ⟨k₂, hcell₀, hs.depth, by rw [hsize]; unfold Halved; simp⟩
  · intro _
    simp [sizeAt_eq hcell₀, hsize]
  · exact fun _ => rfl
  · exact fun _ x hx => by cases hx
  · exact fun _ x hx => by cases hx
  · intro x k hk _ _
    obtain ⟨rfl, rfl⟩ := hcell x k hk
    simp

/-- The first call to `schedule`, if it returns. -/
theorem schedule_root {s' : Scheduler × TreeState α}
    (h : Scheduler.schedule (train env) 0 (init env splitDim) = .ok s') :
    ∃ k₁ k₂, KdNode.run env 0 k₁ = .ok k₂ ∧ k₁.size = env.io.nsamples ∧ k₁.depth = 0 ∧
      Childless k₁ ∧ s'.1.At [[0]] [] ∧ s'.2.heap.cell 0 = some k₂ := by
  have hsch : Scheduler.schedule (train env) 0 (init env splitDim) =
      (do let st ← train env 0 (init env splitDim).2
          return (⟨2, 1, [[0]]⟩, st)) := by
    change (([0].foldlM (fun st x => train env x st) (init env splitDim).2) >>= _) = _
    rw [List.foldlM_cons]
    simp only [List.foldlM_nil, bind_pure]
    rfl
  have hc₀ := Heap.alloc_cell_self (Heap.empty (V := KdNode α))
    (((KdNode.new (env.uninit 0)).setSplitDim splitDim).setIndex splitDim)
  rw [hsch] at h
  obtain ⟨st, htr, h⟩ := bind_ok h
  cases h
  unfold train at htr
  obtain ⟨k, hk, htr⟩ := bind_ok htr
  obtain rfl := Option.some.inj (hc₀.symm.trans (Heap.cell_of_read hk))
  obtain ⟨k₁, hprep, htr⟩ := bind_ok htr
  obtain ⟨k₂, hrun, htr⟩ := bind_ok htr
  obtain ⟨h', hmod, htr⟩ := bind_ok htr
  cases htr
  obtain ⟨rfl, -⟩ := Heap.of_modify hmod
  have hsame := prep_same hprep
  refine ⟨k₁, k₂, hrun, size_of_prep rfl hprep, hsame.depth, ⟨hsame.left, hsame.right⟩, ⟨rfl, rfl⟩,
    ?_⟩
  rw [Heap.update_cell_self]
  exact congrArg (Option.map _) hc₀

variable [Zero α]

/-- `build` returns. What holds of the first state and is kept by every round holds at the end,
    where there is nothing left to spawn. -/
theorem build_returns (henv : env.io = .ofMatrix M n f colwise) (hn : 1 ≤ n) (hn' : n < 2 ^ 32)
    (hsplit : splitDim < f)
    (H : TreeState α → List (List Nat) → List Nat → List Nat → Prop)
    (hstart : ∀ st, st.log = [.prep 0, .run 0] → kids st.heap 0 = [] → H st [] [0] [])
    (hround : ∀ s st full P pend st' full' P' pend',
      Building env.maxDepth M n f s st full P pend →
      P.any (canSpawn env.maxDepth st.heap) = true →
      Round env.maxDepth M n f st full P pend st' full' P' pend' → H st full P pend →
      H st' full' P' pend') :
    ∃ s st full P pend, Returns (fun fuel => build env fuel 0 (init env splitDim)) (s, st) ∧
      Building env.maxDepth M n f s st full P pend ∧ Root n splitDim st.heap ∧
      P.any (canSpawn env.maxDepth st.heap) = false ∧ H st full P pend := by
  obtain ⟨s₀, st₀, hsch, hlog, hkids, hroot, hb⟩ := start_ok henv hn hn' hsplit
  -- the invariant, at a measure, and what holds at the end
  let I : Nat → Scheduler × TreeState α → Prop := fun m s =>
    ∃ full P pend, Building env.maxDepth M n f s.1 s.2 full P pend ∧
      Root n splitDim s.2.heap ∧ H s.2 full P pend ∧ m = remaining n full.length pend.length
  let Q : Scheduler × TreeState α → Prop := fun s =>
    ∃ full P pend, Building env.maxDepth M n f s.1 s.2 full P pend ∧
      Root n splitDim s.2.heap ∧ P.any (canSpawn env.maxDepth s.2.heap) = false ∧
      H s.2 full P pend
  have hstep : ∀ m s, I m s →
      (∃ m' s', buildStep env s = .ok (.next s') ∧ I m' s' ∧ m' < m) ∨
      (∃ s', buildStep env s = .ok (.done s') ∧ Q s') := by
    rintro m ⟨s, st⟩ ⟨full, P, pend, hb, hroot, hH, rfl⟩
    rcases hb.round henv hn hn' with ⟨hany, hdone⟩ |
      ⟨hany, s', st', full', P', pend', hnext, hr, hb', hlt⟩
    · exact Or.inr ⟨(s, st), hdone, full, P, pend, hb, hroot, hany, hH⟩
    · exact Or.inl ⟨_, (s', st'), hnext, ⟨full', P', pend', hb', hroot.keeps hr.keeps,
        hround s st full P pend st' full' P' pend' hb hany hr hH, rfl⟩, hlt⟩
  obtain ⟨⟨s, st⟩, ⟨full, P, pend, hb, hroot, hany, hH⟩, hr⟩ := loop_returns I Q hstep _ (s₀, st₀)
    ⟨[], [0], [], hb, hroot, hstart st₀ hlog hkids, rfl⟩
  refine ⟨s, st, full, P, pend, ?_, hb, hroot, hany, hH⟩
  refine hr.of_eq fun fuel => ?_
  unfold build
  rw [hsch, ok_bind]

/-- A build that is `ok` with some fuel. -/
theorem build_ok_returns {fuel : Nat} {s s' : Scheduler × TreeState α}
    (h : build env fuel 0 s = .ok s') : Returns (fun fuel => build env fuel 0 s) s' := by
  unfold build at h
  obtain ⟨s₁, h₁, h₂⟩ := bind_ok h
  refine (loop_ok_returns h₂).of_eq fun fuel => ?_
  unfold build
  rw [h₁, ok_bind]

omit [Zero α] in
/-- Nothing is left to spawn, so the childless nodes are leaves. -/
theorem Building.built {s : Scheduler} {st : TreeState α} {full : List (List Nat)}
    {P pend : List Nat} (b : Building D M n f s st full P pend) (hr : Root n splitDim st.heap)
    (hany : P.any (canSpawn D st.heap) = false) : Built M n f D splitDim st.heap := by
  refine ⟨b.levels.heapOk, hr, fun x k hk hc hcan => ?_⟩
  have hsize : k.size = sizeAt st.heap x := (sizeAt_eq hk).symm
  have hx := (canSpawn_cell (D := D) hk).mpr hcan
  rcases List.mem_append.mp (b.leaves x k hk hc hx) with hP | hp
  · rw [List.any_eq_false] at hany
    exact hany x hP hx
  · -- a node that is waiting has only one sample
    rcases Nat.lt_or_ge (Nat.log 2 n) full.length with hlt | hle
    · have := b.late hlt x hp
      omega
    · obtain ⟨k', hk', -, hh⟩ := b.waiting hle x hp
      cases hk.symm.trans hk'
      rcases Nat.lt_or_ge full.length (Nat.log 2 n) with hlt | hge
      · rw [b.early hlt] at hp
        cases hp
      · have := hh.le_one (by omega)
        omega

end Build

end Monya.KdTree
