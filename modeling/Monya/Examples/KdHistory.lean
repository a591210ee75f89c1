/-
  What a build does to each node: `trainedOnce_iff` says exactly when every node is spawned at most
  once and trained exactly once.

  Up to level `log n` the build is `Clean`: a round fills a level with all the children of the one
  before it, and the log is the levels one after the other. If the depth limit stops the build
  there, or if `n` is a power of two and no node of that level has two samples, that is the whole
  history. Otherwise some node of level `log n` has two samples but not all do, their children do
  not fill a level, and the next round spawns the same nodes again.
-/
import Monya.Examples.KdLevels

namespace Monya.KdTree

open Monya.Lib Monya.Structures KdNode

/-- The event is part of the training of `x`. -/
def Event.trains (x : Nat) : Event → Bool
  | .spawn _ => false
  | .prep y => y = x
  | .run y => y = x

/-- Every tree node is trained exactly once. -/
structure TrainedOnce {α : Type} [LinearOrder α] (M : Nat → Nat → α) (s : Scheduler)
    (st : TreeState α) : Prop where
  /-- No node is spawned twice. -/
  spawn : ∀ x, st.log.count (.spawn x) ≤ 1
  /-- Every node that was scheduled is in the tree, at the depth of its level. -/
  placed : ∀ l xs, s.nodes[l]? = some xs → ∀ x ∈ xs, AtDepth st.heap l x
  /-- A node of the tree has been prepared and then run, once, and has the median to show for
      it. -/
  trained : ∀ x, Reachable st.heap x → st.log.filter (Event.trains x) = [.prep x, .run x] ∧
    ∃ k, st.heap.cell x = some k ∧ Trained M k

/-! ## The log of a clean build -/

section Log

/-- The training of a level. -/
def trainLog (xs : List Nat) : List Event := xs.flatMap fun x => [.prep x, .run x]

/-- The levels of `full` have been trained and spawned, one after the other, and those of `P`
    trained. -/
def cleanLog (full : List (List Nat)) (P : List Nat) : List Event :=
  full.flatMap (fun xs => trainLog xs ++ xs.map .spawn) ++ trainLog P

theorem cleanLog_snoc (full : List (List Nat)) (P C : List Nat) :
    cleanLog (full ++ [P]) C = cleanLog full P ++ (P.map .spawn ++ trainLog C) := by
  simp [cleanLog, List.append_assoc]

theorem count_spawn_trainLog (xs : List Nat) (x : Nat) : (trainLog xs).count (.spawn x) = 0 := by
  simp [trainLog, List.count_eq_zero]

theorem count_spawn_map (xs : List Nat) (x : Nat) :
    (xs.map Event.spawn).count (.spawn x) = xs.count x :=
  List.count_map_of_injective xs Event.spawn (fun _ _ h => Event.spawn.inj h) x

theorem count_spawn_cleanLog (full : List (List Nat)) (P : List Nat) (x : Nat) :
    (cleanLog full P).count (.spawn x) = full.flatten.count x := by
  unfold cleanLog
  rw [List.count_append, count_spawn_trainLog, Nat.add_zero]
  induction full with
  | nil => rfl
  | cons xs full ih =>
    rw [List.flatMap_cons, List.count_append, List.count_append, count_spawn_trainLog,
      count_spawn_map, ih, List.flatten_cons, List.count_append]
    omega

theorem filter_trains_spawn (xs : List Nat) (x : Nat) :
    (xs.map Event.spawn).filter (Event.trains x) = [] := by
  rw [List.filter_eq_nil_iff]
  intro e he
  obtain ⟨y, _, rfl⟩ := List.mem_map.mp he
  simp [Event.trains]

theorem filter_trains_trainLog {xs : List Nat} (hxs : xs.Nodup) (x : Nat) :
    (trainLog xs).filter (Event.trains x) = if x ∈ xs then [.prep x, .run x] else [] := by
  induction xs with
  | nil => rfl
  | cons y xs ih =>
    obtain ⟨hy, hxs⟩ := List.nodup_cons.mp hxs
    have hcons : trainLog (y :: xs) = [.prep y, .run y] ++ trainLog xs := rfl
    rw [hcons, List.filter_append, ih hxs]
    by_cases hyx : y = x
    · subst hyx
      simp [Event.trains, hy]
    · simp [Event.trains, hyx, Ne.symm hyx]

theorem trainLog_append (xs ys : List Nat) : trainLog (xs ++ ys) = trainLog xs ++ trainLog ys :=
  List.flatMap_append

theorem filter_trains_cleanLog (full : List (List Nat)) (P : List Nat) (x : Nat) :
    (cleanLog full P).filter (Event.trains x) =
      (trainLog (full ++ [P]).flatten).filter (Event.trains x) := by
  unfold cleanLog
  rw [List.flatten_append, List.flatten_singleton, trainLog_append, List.filter_append,
    List.filter_append]
  congr 1
  induction full with
  | nil => rfl
  | cons xs full ih =>
    rw [List.flatMap_cons, List.filter_append, List.filter_append, filter_trains_spawn,
      List.append_nil, ih, List.flatten_cons, trainLog_append, List.filter_append]

end Log

/-! ## Clean builds -/

section Clean

variable {α : Type} [LinearOrder α] {D : Nat} {M : Nat → Nat → α} {n f : Nat} {s : Scheduler}
  {st st₁ st₂ : TreeState α} {full : List (List Nat)} {P pend : List Nat}

/-- The levels are the levels of the tree, and nothing else has happened. -/
structure Clean (st : TreeState α) (full : List (List Nat)) (P : List Nat) : Prop where
  log : st.log = cleanLog full P
  first : (full ++ [P])[0]? = some [0]
  chain : ∀ i xs ys, (full ++ [P])[i]? = some xs → (full ++ [P])[i + 1]? = some ys →
    ys = xs.flatMap (kids st.heap)
  last : ∀ x ∈ P, kids st.heap x = []

omit [LinearOrder α] in
theorem Keeps.canSpawn {h h' : Heap (KdNode α)} (hk : Keeps h h') {x : Nat} {k : KdNode α}
    (hx : h.cell x = some k) : canSpawn D h' x = canSpawn D h x := by
  obtain ⟨k', hx', hs⟩ := hk x k hx
  simp only [KdTree.canSpawn, hx, hx', hs.depth, hs.size]

theorem TrainedAll.kids {Q : List Nat} (h : TrainedAll M n f D Q st st₁) (x : Nat) :
    kids st₁.heap x = kids st.heap x := by
  by_cases hx : x ∈ Q
  · obtain ⟨k, k', hk, hk', hs, -⟩ := h.trained x hx
    rw [kids_eq hk, kids_eq hk', hs.left, hs.right]
  · simp only [KdTree.kids, h.same x hx]

/-- A node of an earlier level keeps its children. -/
theorem SpawnedAll.kids_same (h : SpawnedAll M n f D P st st₁) {x : Nat} {k : KdNode α}
    (hk : st.heap.cell x = some k) (hx : x ∉ P) : kids st₁.heap x = kids st.heap x := by
  simp only [KdTree.kids,
    h.same x (st.heap.lt_brk hk) fun hm => hx (List.mem_filter.mp hm).1]

theorem Building.not_mem_of_full (b : Building D M n f s st full P pend) {x : Nat}
    (hx : x ∈ full.flatten) : x ∉ P := by
  have h := (List.nodup_append.mp b.levels.nodup).1
  rw [List.flatten_append, List.flatten_singleton] at h
  exact fun hP => (List.nodup_append.mp h).2.2 x hx x hP rfl

/-- A level that is filled at once by the children of the one before it. -/
theorem Clean.fill (c : Clean st full P) (b : Building D M n f s st full P [])
    (hs : SpawnedAll M n f D P st st₁) (hall : ∀ x ∈ P, canSpawn D st.heap x = true)
    (ht : TrainedAll M n f D (P.flatMap (kids st₁.heap)) st₁ st₂) :
    Clean st₂ (full ++ [P]) (P.flatMap (kids st₁.heap)) := by
  have hkids : ∀ x, kids st₂.heap x = kids st₁.heap x := ht.kids
  refine ⟨?_, ?_, ?_, ?_⟩
  · rw [ht.log, hs.log, List.filter_eq_self.mpr hall, c.log, cleanLog_snoc, List.append_assoc]
    rfl
  · rw [List.getElem?_append_left (by simp)]
    exact c.first
  · intro i xs ys hxs hys
    have hlen := (List.getElem?_eq_some_iff.mp hys).1
    simp only [List.length_append, List.length_singleton] at hlen
    rw [List.getElem?_append_left (by simp; omega)] at hxs
    rcases Nat.lt_or_ge (i + 1) (full ++ [P]).length with hi | hi
    · rw [List.getElem?_append_left hi] at hys
      rw [c.chain i xs ys hxs hys]
      refine List.flatMap_congr fun x hx => ?_
      -- `x` is in a level before `P`
      have hi' : i < full.length := by simpa using hi
      rw [List.getElem?_append_left hi'] at hxs
      have hmem : x ∈ full.flatten := List.mem_flatten_of_mem (List.mem_of_getElem? hxs) hx
      obtain ⟨k, hk, -⟩ := b.levels.trained x (by simp [hmem])
      rw [hkids, hs.kids_same hk (b.not_mem_of_full hmem)]
    · simp only [List.length_append, List.length_singleton] at hi
      obtain rfl : i = full.length := by omega
      have hP : xs = P := by simpa using hxs.symm
      have hC : ys = P.flatMap (kids st₁.heap) := by
        simpa [List.getElem?_append_right] using hys.symm
      rw [hP, hC]
      exact List.flatMap_congr fun x _ => (hkids x).symm
  · intro x hx
    obtain ⟨-, k, hk, -, hc⟩ := hs.new_of_kid b.cell hx
    rw [hkids, hc.kids hk]

omit [LinearOrder α] in
theorem Clean.atDepth (c : Clean st full P) {l x : Nat} {xs : List Nat}
    (hxs : (full ++ [P])[l]? = some xs) (hx : x ∈ xs) : AtDepth st.heap l x := by
  induction l generalizing x xs with
  | zero =>
    cases c.first.symm.trans hxs
    rw [List.mem_singleton.mp hx]
    exact .root
  | succ l ih =>
    have hlt := (List.getElem?_eq_some_iff.mp hxs).1
    obtain ⟨ys, hys⟩ : ∃ ys, (full ++ [P])[l]? = some ys :=
      ⟨_, List.getElem?_eq_getElem (Nat.lt_of_succ_lt hlt)⟩
    rw [c.chain l ys xs hys hxs] at hx
    obtain ⟨y, hy, hxy⟩ := List.mem_flatMap.mp hx
    exact .child (ih hys hy) hxy

omit [LinearOrder α] in
theorem Clean.mem_level (c : Clean st full P) {l x : Nat} (h : AtDepth st.heap l x) :
    ∃ xs, (full ++ [P])[l]? = some xs ∧ x ∈ xs := by
  induction h with
  | root => exact ⟨_, c.first, List.mem_singleton_self _⟩
  | @child l x a _ ha ih =>
    obtain ⟨xs, hxs, hx⟩ := ih
    have hlt := (List.getElem?_eq_some_iff.mp hxs).1
    rcases Nat.lt_or_ge (l + 1) (full ++ [P]).length with hl | hl
    · obtain ⟨ys, hys⟩ : ∃ ys, (full ++ [P])[l + 1]? = some ys := ⟨_, List.getElem?_eq_getElem hl⟩
      refine ⟨ys, hys, ?_⟩
      rw [c.chain l xs ys hxs hys]
      exact List.mem_flatMap.mpr ⟨x, hx, ha⟩
    · -- the last level has no children
      simp only [List.length_append, List.length_singleton] at hlt hl
      obtain rfl : l = full.length := by omega
      have hP : xs = P := by simpa using hxs.symm
      rw [c.last x (hP ▸ hx)] at ha
      cases ha

/-- After a clean build every node has been trained once. -/
theorem Clean.trainedOnce (c : Clean st full P) (b : Building D M n f s st full P []) :
    TrainedOnce M s st := by
  have hnodup : (full ++ [P]).flatten.Nodup := by
    have h := b.levels.nodup
    rwa [List.append_nil] at h
  have hnodes : s.nodes = full ++ [P] := by
    have h := b.lists.nodes
    rwa [if_pos rfl, List.append_nil] at h
  refine ⟨fun x => ?_, fun l xs hxs x hx => ?_, fun x hx => ?_⟩
  · rw [c.log, count_spawn_cleanLog]
    rw [List.flatten_append] at hnodup
    exact List.nodup_iff_count_le_one.mp (List.nodup_append.mp hnodup).1 x
  · rw [hnodes] at hxs
    exact c.atDepth hxs hx
  · obtain ⟨l, hl⟩ := hx
    obtain ⟨xs, hxs, hx⟩ := c.mem_level hl
    have hmem : x ∈ (full ++ [P]).flatten :=
      List.mem_flatten_of_mem (List.mem_of_getElem? hxs) hx
    refine ⟨?_, b.levels.trained x hmem⟩
    rw [c.log, filter_trains_cleanLog, filter_trains_trainLog hnodup, if_pos hmem]

end Clean

/-! ## Builds that are not clean -/

section History

variable {α : Type} [LinearOrder α] {D : Nat} {M : Nat → Nat → α} {n f : Nat} {s s' : Scheduler}
  {st st' : TreeState α} {full full' : List (List Nat)} {P pend P' pend' : List Nat}

/-- How far the history is clean, and what follows when it no longer is. -/
structure History (D n : Nat) (st : TreeState α) (full : List (List Nat)) (P pend : List Nat) :
    Prop where
  clean : full.length ≤ Nat.log 2 n → pend = [] → Clean st full P
  again : full.length = Nat.log 2 n → pend ≠ [] →
    P.any (canSpawn D st.heap) = true ∧
    ∀ x ∈ P, canSpawn D st.heap x = true → Event.spawn x ∈ st.log
  twice : Nat.log 2 n < full.length → n ≠ 2 ^ Nat.log 2 n ∧ ∃ x, 2 ≤ st.log.count (.spawn x)

omit [LinearOrder α] in
theorem History.start (hlog : st.log = [.prep 0, .run 0]) (hkids : kids st.heap 0 = []) :
    History D n st [] [0] [] where
  clean _ _ :=
    ⟨hlog, rfl, fun i xs ys _ hys => (by simp at hys), fun x hx => (by simp_all)⟩
  again _ h := absurd rfl h
  twice h := absurd h (Nat.not_lt_zero _)

/-- The nodes of level `log n` that are spawned do not have enough children to fill a level. -/
theorem Building.some_idle (b : Building D M n f s st full P pend)
    (hp : full.length = Nat.log 2 n) : P.countP (canSpawn D st.heap) < 2 ^ full.length := by
  by_contra hge
  have hall : ∀ x ∈ P, canSpawn D st.heap x = true := by
    refine List.countP_eq_length.mp (le_antisymm List.countP_le_length ?_)
    rw [b.width]
    exact Nat.le_of_not_lt hge
  have htwo : ∀ k ∈ P.map (sizeAt st.heap), 2 ≤ k := by
    intro k hk
    obtain ⟨x, hx, rfl⟩ := List.mem_map.mp hk
    obtain ⟨kx, hkx, -⟩ := b.nodes x hx
    rw [sizeAt_eq hkx]
    exact ((canSpawn_cell hkx).mp (hall x hx)).2
  have hsum := List.card_nsmul_le_sum _ 2 htwo
  rw [b.sum hp.le, List.length_map, b.width, hp, smul_eq_mul, ← pow_succ] at hsum
  exact absurd hsum (Nat.not_le.mpr (Nat.lt_pow_succ_log_self (by omega) n))

/-- Level `log n` has a node to spawn only if `n` is not a power of two. -/
theorem Building.ne_pow (b : Building D M n f s st full P pend) (hn : 1 ≤ n)
    (hp : full.length = Nat.log 2 n) (hany : P.any (canSpawn D st.heap) = true) :
    n ≠ 2 ^ Nat.log 2 n := by
  have hone : ∀ x ∈ P, 1 ≤ sizeAt st.heap x := by
    intro x hx
    obtain ⟨k, hk, -, hh⟩ := b.nodes x hx
    rw [sizeAt_eq hk]
    exact hh.one_le hn hp.le
  have htwo : ∃ x ∈ P, 1 < sizeAt st.heap x := by
    obtain ⟨x, hx, hxs⟩ := List.any_eq_true.mp hany
    obtain ⟨k, hk⟩ := b.cell x hx
    exact ⟨x, hx, by rw [sizeAt_eq hk]; exact ((canSpawn_cell hk).mp hxs).2⟩
  have hsum := List.sum_lt_sum (fun _ => 1) (sizeAt st.heap) hone htwo
  rw [b.sum hp.le, List.map_const', List.sum_replicate, smul_eq_mul, Nat.mul_one, b.width, hp]
    at hsum
  exact Nat.ne_of_gt hsum

/-- It has none only if `n` is one, or if the depth limit forbids it. -/
theorem Building.eq_pow (b : Building D M n f s st full P pend) (hn : 1 ≤ n)
    (hp : full.length = Nat.log 2 n) (hD : full.length < D)
    (hany : P.any (canSpawn D st.heap) = false) : n = 2 ^ Nat.log 2 n := by
  have hone : ∀ k ∈ P.map (sizeAt st.heap), k ≤ 1 := by
    intro k hk
    obtain ⟨x, hx, rfl⟩ := List.mem_map.mp hk
    obtain ⟨kx, hkx, hd, -⟩ := b.nodes x hx
    rw [sizeAt_eq hkx]
    by_contra hgt
    exact List.any_eq_false.mp hany x hx ((canSpawn_cell hkx).mpr ⟨by omega, by omega⟩)
  have hsum := List.sum_le_card_nsmul _ 1 hone
  rw [b.sum hp.le, List.length_map, b.width, hp, smul_eq_mul, Nat.mul_one] at hsum
  exact le_antisymm hsum (Nat.pow_log_le_self 2 (by omega))

theorem History.wait {st₁ : TreeState α} (b : Building D M n f s st full P pend)
    (hany : P.any (canSpawn D st.heap) = true) (hs : SpawnedAll M n f D P st st₁)
    (hp : full.length = Nat.log 2 n) :
    History D n st₁ full P (pend ++ P.flatMap (kids st₁.heap)) := by
  have hcan : ∀ x ∈ P, canSpawn D st₁.heap x = canSpawn D st.heap x := fun x hx => by
    obtain ⟨k, hk⟩ := b.cell x hx
    exact hs.keeps.canSpawn hk
  refine ⟨fun _ hnil => ?_, fun _ _ => ⟨?_, fun x hx hxs => ?_⟩, fun hlt => absurd hp (by omega)⟩
  · have hpos := (b.length_children hs hany).1
    rw [(List.append_eq_nil_iff.mp hnil).2] at hpos
    cases hpos
  · obtain ⟨x, hx, hxs⟩ := List.any_eq_true.mp hany
    exact List.any_eq_true.mpr ⟨x, hx, (hcan x hx).trans hxs⟩
  · rw [hs.log]
    refine List.mem_append_right _ (List.mem_map_of_mem ?_)
    exact List.mem_filter.mpr ⟨hx, (hcan x hx).symm.trans hxs⟩

theorem History.fill {st₁ : TreeState α} {ys zs : List Nat} (hn : 1 ≤ n)
    (b : Building D M n f s st full P pend) (hany : P.any (canSpawn D st.heap) = true)
    (hs : SpawnedAll M n f D P st st₁) (hC : P.flatMap (kids st₁.heap) = ys ++ zs)
    (ht : TrainedAll M n f D (pend ++ ys) st₁ st')
    (hwidth : pend.length + ys.length = 2 ^ (full.length + 1))
    (hearly : full.length < Nat.log 2 n → pend = [] ∧ zs = [])
    (h : History D n st full P pend) : History D n st' (full ++ [P]) (pend ++ ys) zs := by
  have hlen : (full ++ [P]).length = full.length + 1 := by simp
  obtain ⟨hD, hle⟩ := b.level_of_spawn hany
  refine ⟨fun hle _ => ?_, fun heq hne => ?_, fun hlt => ?_⟩
  · rw [hlen] at hle
    obtain ⟨rfl, rfl⟩ := hearly (by omega)
    rw [List.append_nil] at hC
    subst hC
    exact (h.clean (by omega) rfl).fill b hs (b.all_spawn hn hD (by omega)) ht
  · rw [hlen] at heq
    exact absurd (hearly (by omega)).2 hne
  · rw [hlen] at hlt
    have hp : full.length = Nat.log 2 n := by omega
    refine ⟨b.ne_pow hn hp hany, ?_⟩
    -- one round is not enough to fill the level: the same nodes were spawned before
    have hpend : pend ≠ [] := by
      rintro rfl
      have hc := hs.length_kids b.cell
      have hfew := b.some_idle hp
      rw [hC, List.length_append] at hc
      rw [List.length_nil, pow_succ] at hwidth
      omega
    obtain ⟨-, hspawned⟩ := h.again hp hpend
    obtain ⟨x, hx, hxs⟩ := List.any_eq_true.mp hany
    refine ⟨x, ?_⟩
    have hbefore : 0 < st.log.count (.spawn x) := List.count_pos_iff.mpr (hspawned x hx hxs)
    have hnow : 0 < (P.filter (canSpawn D st.heap)).count x :=
      List.count_pos_iff.mpr (List.mem_filter.mpr ⟨hx, hxs⟩)
    rw [ht.log, hs.log, List.count_append, List.count_append, count_spawn_map]
    omega

/-- A build that has ended is clean exactly if it did not get past level `log n`. -/
theorem History.once_iff_clean (hn : 1 ≤ n) (b : Building D M n f s st full P pend)
    (hany : P.any (canSpawn D st.heap) = false) (h : History D n st full P pend) :
    TrainedOnce M s st ↔ n = 2 ^ Nat.log 2 n ∨ D ≤ Nat.log 2 n := by
  have hD := b.depthLe
  rcases Nat.lt_or_ge (Nat.log 2 n) full.length with hlt | hle
  · obtain ⟨hne, x, hx⟩ := h.twice hlt
    refine iff_of_false (fun ht => ?_) (fun hc => ?_)
    · have := ht.spawn x
      omega
    · rcases hc with hc | hc
      · exact hne hc
      · omega
  · have hpend : pend = [] := by
      by_contra hne
      rcases Nat.lt_or_ge full.length (Nat.log 2 n) with hlt | hge
      · exact hne (b.early hlt)
      · rw [(h.again (by omega) hne).1] at hany
        cases hany
    subst hpend
    refine iff_of_true ((h.clean hle rfl).trainedOnce b) ?_
    by_cases hlast : full.length = D
    · exact Or.inr (by omega)
    · refine Or.inl (b.eq_pow hn (le_antisymm hle ?_) (by omega) hany)
      -- a level above `log n` still has something to spawn
      by_contra hlt
      have hall := b.all_spawn hn (by omega) (Nat.lt_of_not_le hlt)
      obtain ⟨x, hx⟩ := List.exists_mem_of_length_pos
        (show 0 < P.length by rw [b.width]; exact Nat.two_pow_pos _)
      exact List.any_eq_false.mp hany x hx (hall x hx)

end History

section Main

variable {α : Type} [LinearOrder α] [Zero α]

/-- Every tree node is trained exactly once if the number of samples is a power of two or the depth
    limit is at most its logarithm, and not otherwise. -/
theorem trainedOnce_iff (env : KdEnv α) {M : Nat → Nat → α} {n f splitDim : Nat} {colwise : Bool}
    (henv : env.io = .ofMatrix M n f colwise) (hn : 1 ≤ n) (hn' : n < 2 ^ 32)
    (hsplit : splitDim < f) :
    ∃ s st, Returns (fun fuel => build env fuel 0 (init env splitDim)) (s, st) ∧
      (TrainedOnce M s st ↔ n = 2 ^ Nat.log 2 n ∨ env.maxDepth ≤ Nat.log 2 n) := by
  obtain ⟨s, st, full, P, pend, hret, hb, -, hany, hH⟩ :=
    build_returns henv hn hn' hsplit (History env.maxDepth n) (fun st => History.start)
      (fun s st full P pend st' full' P' pend' hb hany hr hH => by
        cases hr with
        | wait hs hp => exact History.wait hb hany hs hp
        | fill hs hC ht hw hearly => exact History.fill hn hb hany hs hC ht hw hearly hH)
  exact ⟨s, st, hret, hH.once_iff_clean hn hb hany⟩

/-- Four samples fill every level. -/
theorem trainedOnce_four :
    ∃ s st, Returns (fun fuel => build (rampEnv 4 3) fuel 0 (init (rampEnv 4 3) 0)) (s, st) ∧
      TrainedOnce (fun i _ => i) s st := by
  have henv : (rampEnv 4 3).io = .ofMatrix (fun i _ => i) 4 1 false := rfl
  obtain ⟨s, st, hret, hiff⟩ := trainedOnce_iff (rampEnv 4 3) henv (by decide) (by decide)
    (show 0 < 1 by decide)
  exact ⟨s, st, hret, hiff.mpr (Or.inl (by decide))⟩

/-- Three samples do not: the right child of the root, with two of them, is spawned twice. -/
theorem respawn_three :
    ∃ s st, Returns (fun fuel => build (rampEnv 3 2) fuel 0 (init (rampEnv 3 2) 0)) (s, st) ∧
      st.log.count (.spawn 2) = 2 ∧ ¬ TrainedOnce (fun i _ => i) s st := by
  have hlog : (build (rampEnv 3 2) 4 0 (init (rampEnv 3 2) 0)).map (fun r => r.2.log) =
      .ok [.prep 0, .run 0, .spawn 0, .prep 1, .run 1, .prep 2, .run 2, .spawn 2, .spawn 2,
        .prep 3, .run 3, .prep 4, .run 4, .prep 5, .run 5, .prep 6, .run 6] := rfl
  cases hrun : build (rampEnv 3 2) 4 0 (init (rampEnv 3 2) 0) with
  | error e =>
    rw [hrun] at hlog
    cases hlog
  | ok r =>
    rw [hrun] at hlog
    have hcount : r.2.log.count (.spawn 2) = 2 := by
      rw [show r.2.log = _ from Except.ok.inj hlog]
      rfl
    refine ⟨r.1, r.2, build_ok_returns hrun, hcount, fun ht => ?_⟩
    have := ht.spawn 2
    omega

end Main

end Monya.KdTree
