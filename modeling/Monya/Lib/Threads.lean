/-
  Programs of several threads: labelled steps, error-checking mutexes, and counting threads.

  `step l s` is the state after the step that the label `l` names, and `none` where that step
  cannot be taken, because its thread is blocked. `Reachable step s₀ s` says that some sequence of
  labels, that is some interleaving, leads from `s₀` to `s`; `only ok step` leaves out the steps
  that `ok` forbids.

  `Reachable.invariant` is the rule for all runs, and `run_history` the one for what depends on the
  steps made so far; `afterNth` says what follows the `k`-th step of a thread. `sideBySide` puts
  programs next to each other that share nothing: an invariant of each is one of all
  (`Reachable.of_each`), and if each ends, all do (`no_infinite_sideBySide`). `Mutex.lock` and
  `Mutex.unlock` are a mutex of type `PTHREAD_MUTEX_ERRORCHECK`: relocking it and unlocking another
  thread's are errors.
-/
import Mathlib.Tactic
import Mathlib.Data.Finset.Card
import Mathlib.Logic.Hydra

namespace Monya.Lib

/-! ## Runs -/

section Runs

variable {ℓ σ : Type} {step : ℓ → σ → Option σ} {s₀ s s' : σ}

/-- The state after the steps `ls`, if each can be taken. -/
def run (step : ℓ → σ → Option σ) : List ℓ → σ → Option σ
  | [], s => some s
  | l :: ls, s => (step l s).bind (run step ls)

/-- The steps of an interleaving that is given turn by turn, with how many steps each turn has. -/
def bursts (turns : List (Nat × ℓ)) : List ℓ := turns.flatMap fun t => List.replicate t.1 t.2

/-- Some interleaving leads from `s₀` to `s`. -/
def Reachable (step : ℓ → σ → Option σ) (s₀ s : σ) : Prop := ∃ ls, run step ls s₀ = some s

/-- The steps that `ok` allows. -/
def only (ok : ℓ → σ → Prop) [∀ l s, Decidable (ok l s)] (step : ℓ → σ → Option σ) (l : ℓ)
    (s : σ) : Option σ :=
  if ok l s then step l s else none

/-- What holds at the start and is kept by each step holds in every state of a run. -/
theorem Reachable.invariant {I : σ → Prop} (h : Reachable step s₀ s) (h₀ : I s₀)
    (hstep : ∀ l s s', I s → step l s = some s' → I s') : I s := by
  obtain ⟨ls, hls⟩ := h
  induction ls generalizing s₀ with
  | nil => exact Option.some.inj hls ▸ h₀
  | cons l ls ih =>
    obtain ⟨s₁, h₁, hrest⟩ := Option.bind_eq_some_iff.mp hls
    exact ih (hstep l s₀ s₁ h₀ h₁) hrest

theorem run_append (ls ls' : List ℓ) (s : σ) :
    run step (ls ++ ls') s = (run step ls s).bind (run step ls') := by
  induction ls generalizing s with
  | nil => rfl
  | cons l ls ih =>
    rw [List.cons_append, run, run]
    cases step l s with
    | none => rfl
    | some s₁ => exact ih s₁

theorem Reachable.run_of {ls : List ℓ} (h : Reachable step s₀ s) (hr : run step ls s = some s') :
    Reachable step s₀ s' := by
  obtain ⟨ls₀, h₀⟩ := h
  exact ⟨ls₀ ++ ls, by rw [run_append, h₀]; exact hr⟩

/-- What holds at the start of a run and is kept by each of its steps holds at its end. -/
theorem run_invariant {I : σ → Prop} {ls : List ℓ} (h : run step ls s = some s') (h₀ : I s)
    (hstep : ∀ l ∈ ls, ∀ s s', I s → step l s = some s' → I s') : I s' := by
  induction ls generalizing s with
  | nil => exact Option.some.inj h ▸ h₀
  | cons l ls ih =>
    obtain ⟨s₁, h₁, hrest⟩ := Option.bind_eq_some_iff.mp h
    exact ih hrest (hstep l List.mem_cons_self s s₁ h₀ h₁) fun l' hl' =>
      hstep l' (List.mem_cons_of_mem _ hl')

/-- The same for what holds of a state together with the steps that led to it. -/
theorem run_history {I : List ℓ → σ → Prop} {ls : List ℓ} (h : run step ls s = some s')
    (h₀ : I [] s)
    (hstep : ∀ pre l s s', I pre s → step l s = some s' → I (pre ++ [l]) s') : I ls s' := by
  induction ls using List.reverseRecOn generalizing s' with
  | nil => exact Option.some.inj h ▸ h₀
  | append_singleton ls l ih =>
    rw [run_append] at h
    obtain ⟨s₁, h₁, h⟩ := Option.bind_eq_some_iff.mp h
    obtain ⟨s₂, h₂, h⟩ := Option.bind_eq_some_iff.mp h
    exact Option.some.inj h ▸ hstep ls l s₁ s₂ (ih h₁) h₂

/-- A run has a state before each of its steps. -/
theorem run_take {ls : List ℓ} (h : run step ls s = some s') {i : Nat} {l : ℓ}
    (hi : ls[i]? = some l) :
    ∃ s₁ s₂, run step (ls.take i) s = some s₁ ∧ step l s₁ = some s₂ ∧
      run step (ls.take (i + 1)) s = some s₂ := by
  obtain ⟨hlt, hl⟩ := List.getElem?_eq_some_iff.mp hi
  have hsplit : ls.take i ++ l :: ls.drop (i + 1) = ls := by
    rw [← hl, ← List.drop_eq_getElem_cons hlt, List.take_append_drop]
  rw [← hsplit, run_append] at h
  obtain ⟨s₁, h₁, h⟩ := Option.bind_eq_some_iff.mp h
  obtain ⟨s₂, h₂, -⟩ := Option.bind_eq_some_iff.mp h
  refine ⟨s₁, s₂, h₁, h₂, ?_⟩
  rw [List.take_add_one, hi, run_append, h₁]
  simp [run, h₂]

/-- Steps that each lower a rank are no more than the rank. -/
theorem run_length_le {I : σ → Prop} (rank : σ → Nat) {ls : List ℓ} (h : run step ls s = some s')
    (h₀ : I s)
    (hstep : ∀ l ∈ ls, ∀ s s', I s → step l s = some s' → I s' ∧ rank s' < rank s) :
    ls.length + rank s' ≤ rank s := by
  induction ls generalizing s with
  | nil => rw [Option.some.inj h, List.length_nil, Nat.zero_add]
  | cons l ls ih =>
    obtain ⟨s₁, h₁, hrest⟩ := Option.bind_eq_some_iff.mp h
    obtain ⟨hi, hlt⟩ := hstep l List.mem_cons_self s s₁ h₀ h₁
    have hle := ih hrest hi fun l' hl' => hstep l' (List.mem_cons_of_mem _ hl')
    rw [List.length_cons]
    omega

/-- If every step that `ok` allows lowers the index of an invariant, no run of them is infinite. -/
theorem no_infinite_run {ρ : Type} {lt : ρ → ρ → Prop} (hwf : WellFounded lt) {I : ρ → σ → Prop}
    {ok : ℓ → Prop}
    (hstep : ∀ r l s s', I r s → ok l → step l s = some s' → ∃ r', I r' s' ∧ lt r' r)
    (states : Nat → σ) {r : ρ} (h₀ : I r (states 0)) :
    ¬ ∀ i, ∃ l, ok l ∧ step l (states i) = some (states (i + 1)) := by
  induction r using hwf.induction generalizing states with
  | _ r ih =>
    intro hrun
    obtain ⟨l, hl, hs⟩ := hrun 0
    obtain ⟨r', h₁, hlt⟩ := hstep r l _ _ h₀ hl hs
    exact ih r' hlt (fun i => states (i + 1)) h₁ fun i => hrun (i + 1)

theorem only_eq_some {ok : ℓ → σ → Prop} [∀ l s, Decidable (ok l s)] {l : ℓ} :
    only ok step l s = some s' ↔ ok l s ∧ step l s = some s' := by
  unfold only
  by_cases h : ok l s
  · rw [if_pos h]
    exact ⟨fun hs => ⟨h, hs⟩, And.right⟩
  · rw [if_neg h]
    exact ⟨fun hs => (by cases hs), fun hs => absurd hs.1 h⟩

end Runs

/-! ## Places in an interleaving -/

section AfterNth

variable {ℓ : Type} [DecidableEq ℓ] {a : ℓ} {k : Nat} {ls : List ℓ}

/-- The labels that follow the first `k` labels `a`. -/
def afterNth (a : ℓ) : Nat → List ℓ → List ℓ
  | 0, ls => ls
  | _ + 1, [] => []
  | k + 1, l :: ls => afterNth a (if l = a then k else k + 1) ls

theorem afterNth_append_of_le (h : k ≤ ls.count a) (ls' : List ℓ) :
    afterNth a k (ls ++ ls') = afterNth a k ls ++ ls' := by
  induction ls generalizing k with
  | nil =>
    obtain rfl : k = 0 := Nat.le_zero.mp h
    simp [afterNth]
  | cons l ls ih =>
    cases k with
    | zero => simp [afterNth]
    | succ k =>
      rw [List.cons_append, afterNth, afterNth]
      apply ih
      by_cases hl : l = a
      · subst hl
        rw [List.count_cons_self] at h
        rw [if_pos rfl]
        omega
      · rwa [if_neg hl, ← List.count_cons_of_ne hl]

/-- After the `k`-th of them itself there is nothing yet. -/
theorem afterNth_append_self (h : ls.count a + 1 = k) : afterNth a k (ls ++ [a]) = [] := by
  induction ls generalizing k with
  | nil =>
    subst h
    simp [afterNth]
  | cons l ls ih =>
    subst h
    rw [List.cons_append, afterNth]
    apply ih
    by_cases hl : l = a
    · rw [if_pos hl, hl, List.count_cons_self]
    · rw [if_neg hl, List.count_cons_of_ne hl]

end AfterNth

/-! ## Programs side by side -/

section SideBySide

variable {ℓ σ : Type} {step : Nat → ℓ → σ → Option σ} {ss ss' : List σ}

/-- A step of one of several programs, each with a state of its own. -/
def sideBySide (step : Nat → ℓ → σ → Option σ) : Nat × ℓ → List σ → Option (List σ)
  | (i, l), ss => ss[i]?.bind fun s => (step i l s).map (ss.set i)

theorem sideBySide_cases {i : Nat} {l : ℓ} (h : sideBySide step (i, l) ss = some ss') :
    ∃ s s', ss[i]? = some s ∧ step i l s = some s' ∧ ss' = ss.set i s' := by
  obtain ⟨s, hs, h⟩ := Option.bind_eq_some_iff.mp h
  obtain ⟨s', hs', rfl⟩ := Option.map_eq_some_iff.mp h
  exact ⟨s, s', hs, hs', rfl⟩

theorem getElem?_set_cases {i j : Nat} {s' t : σ} (h : (ss.set i s')[j]? = some t) :
    (j = i ∧ t = s') ∨ (j ≠ i ∧ ss[j]? = some t) := by
  by_cases hj : i = j
  · subst hj
    rw [List.getElem?_set_self'] at h
    obtain ⟨_, -, rfl⟩ := Option.map_eq_some_iff.mp h
    exact .inl ⟨rfl, rfl⟩
  · rw [List.getElem?_set_ne hj] at h
    exact .inr ⟨Ne.symm hj, h⟩

/-- What each program keeps holds of all of them in every state of a run. -/
theorem Reachable.of_each {I : Nat → σ → Prop} (h : Reachable (sideBySide step) ss ss')
    (h₀ : ∀ i s, ss[i]? = some s → I i s)
    (hstep : ∀ i l s s', I i s → step i l s = some s' → I i s') :
    ss'.length = ss.length ∧ ∀ i s, ss'[i]? = some s → I i s := by
  refine h.invariant (I := fun ts => ts.length = ss.length ∧ ∀ i s, ts[i]? = some s → I i s)
    ⟨rfl, h₀⟩ ?_
  rintro ⟨i, l⟩ ts ts' ⟨hlen, hall⟩ hs
  obtain ⟨s, s', hi, hs', rfl⟩ := sideBySide_cases hs
  refine ⟨by rw [List.length_set, hlen], fun j t hj => ?_⟩
  rcases getElem?_set_cases hj with ⟨rfl, rfl⟩ | ⟨-, hj⟩
  · exact hstep j l s t (hall j s hi) hs'
  · exact hall j t hj

/-- Changing one of the numbers `g 0, …, g (n - 1)` to a lower one. -/
theorem cutExpand_update {ρ : Type} {lt : ρ → ρ → Prop} {g : Nat → ρ} {n i : Nat} (hi : i < n)
    {r : ρ} (hr : lt r (g i)) :
    Relation.CutExpand lt ((Multiset.range n).map (Function.update g i r))
      ((Multiset.range n).map g) := by
  have hmem : i ∈ Multiset.range n := Multiset.mem_range.mpr hi
  have hrest : ((Multiset.range n).erase i).map (Function.update g i r) =
      ((Multiset.range n).erase i).map g := by
    refine Multiset.map_congr rfl fun j hj => Function.update_of_ne ?_ _ _
    exact ((Multiset.nodup_range n).mem_erase_iff.mp hj).1
  refine ⟨{r}, g i, fun a ha => by rw [Multiset.mem_singleton.mp ha]; exact hr, ?_⟩
  rw [← Multiset.cons_erase hmem, Multiset.map_cons, Multiset.map_cons, hrest,
    Function.update_self, Multiset.add_comm _ {r}, Multiset.add_comm _ {g i},
    Multiset.singleton_add, Multiset.singleton_add, Multiset.cons_swap]

/-- Programs side by side have no infinite run if each step lowers an index of its program. -/
theorem no_infinite_sideBySide {ρ : Type} {lt : ρ → ρ → Prop} (hwf : WellFounded lt)
    {I : Nat → ρ → σ → Prop} (ok : ℓ → Prop)
    (hstep : ∀ i r l s s', I i r s → ok l → step i l s = some s' → ∃ r', I i r' s' ∧ lt r' r)
    (states : Nat → List σ) (g : Nat → ρ) (h₀ : ∀ i s, (states 0)[i]? = some s → I i (g i) s) :
    ¬ ∀ n, ∃ l : Nat × ℓ, ok l.2 ∧ sideBySide step l (states n) = some (states (n + 1)) := by
  -- the index of all programs is the multiset of theirs
  refine no_infinite_run hwf.cutExpand (I := fun m ss => ∃ g : Nat → ρ,
    m = (Multiset.range ss.length).map g ∧ ∀ i s, ss[i]? = some s → I i (g i) s)
    ?_ states ⟨g, rfl, h₀⟩
  rintro m ⟨i, l⟩ ss ss' ⟨g, rfl, hall⟩ hl hs
  obtain ⟨s, s', hi, hs', rfl⟩ := sideBySide_cases hs
  obtain ⟨r, hr, hlt⟩ := hstep i (g i) l s s' (hall i s hi) hl hs'
  refine ⟨_, ⟨Function.update g i r, rfl, fun j t hj => ?_⟩, ?_⟩
  · rcases getElem?_set_cases hj with ⟨rfl, rfl⟩ | ⟨hne, hj⟩
    · rwa [Function.update_self]
    · rw [Function.update_of_ne hne]
      exact hall j t hj
  · rw [List.length_set]
    exact cutExpand_update (List.getElem?_eq_some_iff.mp hi).1 hlt

end SideBySide

/-! ## Mutexes -/

structure Mutex (τ : Type) where
  owner : Option τ
  deriving DecidableEq, Repr

namespace Mutex

variable {τ σ : Type} [DecidableEq τ]

def new : Mutex τ := ⟨none⟩

/-- The call blocks while another thread owns the mutex. -/
def lock (m : Mutex τ) (me : τ) (acquired : Mutex τ → Option σ) (error : Option σ) : Option σ :=
  match m.owner with
  | none => acquired ⟨some me⟩
  | some o => if o = me then error else none

def unlock (m : Mutex τ) (me : τ) (released : Mutex τ → Option σ) (error : Option σ) : Option σ :=
  if m.owner = some me then released ⟨none⟩ else error

variable {m : Mutex τ} {me : τ} {f : Mutex τ → Option σ} {e : Option σ} {s : σ}

/-- A thread that does not own the mutex gets past `lock` by acquiring it. -/
theorem lock_eq_some (hm : m.owner ≠ some me) (h : m.lock me f e = some s) :
    m.owner = none ∧ f ⟨some me⟩ = some s := by
  unfold lock at h
  cases ho : m.owner with
  | none => exact ⟨rfl, by rwa [ho] at h⟩
  | some o =>
    have hne : o ≠ me := fun heq => hm (by rw [ho, heq])
    rw [ho] at h
    dsimp only at h
    rw [if_neg hne] at h
    cases h

theorem lock_cases (h : m.lock me f e = some s) : f ⟨some me⟩ = some s ∨ e = some s := by
  unfold lock at h
  split at h
  · exact .inl h
  · split at h
    · exact .inr h
    · cases h

theorem unlock_cases (h : m.unlock me f e = some s) : f ⟨none⟩ = some s ∨ e = some s := by
  unfold unlock at h
  split at h
  · exact .inl h
  · exact .inr h

theorem lock_free (hm : m.owner = none) : m.lock me f e = f ⟨some me⟩ := by
  unfold lock
  rw [hm]

theorem unlock_owner (hm : m.owner = some me) : m.unlock me f e = f ⟨none⟩ := by
  unfold unlock
  rw [if_pos hm]

end Mutex

/-! ## Counting threads -/

section Count

variable {N t : Nat} {p q : Nat → Bool}

/-- One more thread is counted. -/
theorem card_filter_enter (ht : t < N) (hp : p t = false) (hq : q t = true)
    (h : ∀ u, u ≠ t → q u = p u) :
    ((Finset.range N).filter fun u => q u = true).card =
      ((Finset.range N).filter fun u => p u = true).card + 1 := by
  have hins : ((Finset.range N).filter fun u => q u = true) =
      insert t ((Finset.range N).filter fun u => p u = true) := by
    ext u
    by_cases hu : u = t
    · subst hu
      simp [ht, hq]
    · simp [hu, h u hu]
  rw [hins, Finset.card_insert_of_notMem (by simp [hp])]

/-- The same threads are counted. -/
theorem card_filter_same (h : ∀ u, q u = p u) :
    ((Finset.range N).filter fun u => q u = true).card =
      ((Finset.range N).filter fun u => p u = true).card := by
  simp only [h]

end Count

/-- A sum over threads after one of them has changed. -/
theorem sum_map_set {τ : Type} (f : τ → Nat) {ts : List τ} {i : Nat} {w : τ} (w' : τ)
    (h : ts[i]? = some w) : ((ts.set i w').map f).sum + f w = (ts.map f).sum + f w' := by
  induction ts generalizing i with
  | nil => cases h
  | cons t ts ih =>
    cases i with
    | zero =>
      obtain rfl : t = w := by simpa using h
      simp only [List.set_cons_zero, List.map_cons, List.sum_cons]
      omega
    | succ i =>
      have hi := ih (i := i) (by simpa using h)
      simp only [List.set_cons_succ, List.map_cons, List.sum_cons]
      omega

end Monya.Lib
