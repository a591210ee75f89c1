/-
  Loops of an imperative program, run with fuel.

  `loop body n s` runs `body` from `s` for at most `n` passes: a pass either asks for
  another pass (`Pass.next`) or leaves the loop (`Pass.done`). Running out of fuel is the
  fault `outOfFuel`, so a fuelled run that is `ok` is a run of the real loop, and a loop
  that is `ok` for all large enough fuel is one that terminates (`Returns`).

  `loop_returns` is the rule used for total correctness: an invariant that every pass
  keeps, and a measure that every pass lowers. `loop_ok_returns` is for a run at hand.
-/
import Mathlib.Tactic

namespace Monya.Lib

/-- What stops a program short of a result. `nullDeref` and `dangling` are a read or write
    through a null pointer or through one that is not allocated, `outOfBounds` an index
    outside its array, `overflow` a sum that its type cannot hold, `assertion` a failed assert and
    `thrown` an exception. -/
inductive Fault where
  | nullDeref
  | dangling
  | outOfBounds
  | overflow
  | assertion
  | thrown (what : String)
  | outOfFuel
  deriving DecidableEq, Repr

/-- The end of one pass through a loop body. -/
inductive Pass (σ β : Type) where
  | next (s : σ)
  | done (b : β)

/-- Run `body` until it is done, for at most `fuel` passes. -/
def loop {σ β : Type} (body : σ → Except Fault (Pass σ β)) : Nat → σ → Except Fault β
  | 0, _ => .error .outOfFuel
  | fuel + 1, s =>
      match body s with
      | .error e => .error e
      | .ok (.done b) => .ok b
      | .ok (.next s') => loop body fuel s'

/-- `f`, a program that takes its fuel as an argument, terminates with result `b`. -/
def Returns {β : Type} (f : Nat → Except Fault β) (b : β) : Prop :=
  ∃ N, ∀ fuel, N ≤ fuel → f fuel = .ok b

/-- `f` terminates with the fault `e`. -/
def Raises {β : Type} (f : Nat → Except Fault β) (e : Fault) : Prop :=
  ∃ N, ∀ fuel, N ≤ fuel → f fuel = .error e

variable {σ β γ : Type} {body : σ → Except Fault (Pass σ β)}

theorem loop_succ_next {s s' : σ} (h : body s = .ok (.next s')) (fuel : Nat) :
    loop body (fuel + 1) s = loop body fuel s' := by
  simp only [loop, h]

theorem loop_succ_done {s : σ} {b : β} (h : body s = .ok (.done b)) (fuel : Nat) :
    loop body (fuel + 1) s = .ok b := by
  simp only [loop, h]

theorem loop_succ_error {s : σ} {e : Fault} (h : body s = .error e) (fuel : Nat) :
    loop body (fuel + 1) s = .error e := by
  simp only [loop, h]

theorem Returns.unique {f : Nat → Except Fault β} {b b' : β} (h : Returns f b)
    (h' : Returns f b') : b = b' := by
  obtain ⟨N, hN⟩ := h
  obtain ⟨M, hM⟩ := h'
  have e := (hN (max N M) (Nat.le_max_left _ _)).symm.trans (hM (max N M) (Nat.le_max_right _ _))
  exact Except.ok.inj e

theorem Returns.of_eq {f g : Nat → Except Fault β} {b : β} (h : Returns f b)
    (he : ∀ fuel, g fuel = f fuel) : Returns g b := by
  obtain ⟨N, hN⟩ := h
  exact ⟨N, fun fuel hf => by rw [he, hN fuel hf]⟩

/-- A result that needs no fuel. -/
theorem Returns.pure (b : β) : Returns (fun _ => (.ok b : Except Fault β)) b :=
  ⟨0, fun _ _ => rfl⟩

/-- With enough fuel for both, the second program runs on the first one's result. -/
theorem Returns.bind_eq {f : Nat → Except Fault β} {g : Nat → β → Except Fault γ} {b : β}
    {r : Except Fault γ} (hf : Returns f b) (hg : ∃ M, ∀ fuel, M ≤ fuel → g fuel b = r) :
    ∃ N, ∀ fuel, N ≤ fuel → (f fuel >>= g fuel) = r := by
  obtain ⟨N, hN⟩ := hf
  obtain ⟨M, hM⟩ := hg
  refine ⟨max N M, fun fuel h => ?_⟩
  have h1 := hN fuel (le_trans (Nat.le_max_left _ _) h)
  have h2 := hM fuel (le_trans (Nat.le_max_right _ _) h)
  simp only [h1]
  exact h2

/-- Sequencing: the second program runs on the first one's result, with the same fuel. -/
theorem Returns.bind {f : Nat → Except Fault β} {g : Nat → β → Except Fault γ} {b : β} {c : γ}
    (hf : Returns f b) (hg : Returns (fun fuel => g fuel b) c) :
    Returns (fun fuel => f fuel >>= g fuel) c := hf.bind_eq hg

theorem Raises.of_bind {f : Nat → Except Fault β} {g : Nat → β → Except Fault γ} {b : β}
    {e : Fault} (hf : Returns f b) (hg : Raises (fun fuel => g fuel b) e) :
    Raises (fun fuel => f fuel >>= g fuel) e := hf.bind_eq hg

/-- A history of calls: `I` is the invariant over the calls made so far. -/
theorem foldlM_returns (op : Nat → γ → σ → Except Fault σ) (xs : List γ)
    (I : List γ → σ → Prop)
    (hstep : ∀ pre x post s, xs = pre ++ x :: post → I pre s →
      ∃ s', Returns (fun fuel => op fuel x s) s' ∧ I (pre ++ [x]) s')
    {s : σ} (hs : I [] s) :
    ∃ s', Returns (fun fuel => xs.foldlM (fun s x => op fuel x s) s) s' ∧ I xs s' := by
  suffices h : ∀ post pre s, xs = pre ++ post → I pre s →
      ∃ s', Returns (fun fuel => post.foldlM (fun s x => op fuel x s) s) s' ∧ I xs s' from
    h xs [] s rfl hs
  intro post
  induction post with
  | nil =>
    intro pre s hx hI
    rw [List.append_nil] at hx
    exact ⟨s, .pure s, hx ▸ hI⟩
  | cons x post ih =>
    intro pre s hx hI
    obtain ⟨s₁, hr₁, hI₁⟩ := hstep pre x post s hx hI
    obtain ⟨s₂, hr₂, hI₂⟩ := ih (pre ++ [x]) s₁ (by simpa using hx) hI₁
    exact ⟨s₂, (hr₁.bind hr₂).of_eq fun fuel => by rw [List.foldlM_cons], hI₂⟩

/-- The same for operations that need no fuel. -/
theorem foldlM_history (op : σ → γ → Except Fault σ) (xs : List γ) (I : List γ → σ → Prop)
    (hstep : ∀ pre x post s, xs = pre ++ x :: post → I pre s →
      ∃ s', op s x = .ok s' ∧ I (pre ++ [x]) s')
    {s : σ} (hs : I [] s) : ∃ s', xs.foldlM op s = .ok s' ∧ I xs s' := by
  obtain ⟨s', ⟨N, hN⟩, hI⟩ := foldlM_returns (fun _ x s => op s x) xs I
    (fun pre x post s hx hI => by
      obtain ⟨s', ho, hI'⟩ := hstep pre x post s hx hI
      exact ⟨s', ⟨0, fun _ _ => ho⟩, hI'⟩) hs
  exact ⟨s', hN N (le_refl N), hI⟩

/-- A counting loop: `I i` is the invariant before pass `i`. -/
theorem foldlM_range (op : σ → Nat → Except Fault σ) (n : Nat) (I : Nat → σ → Prop)
    (hstep : ∀ i s, i < n → I i s → ∃ s', op s i = .ok s' ∧ I (i + 1) s')
    {s : σ} (hs : I 0 s) : ∃ s', (List.range n).foldlM op s = .ok s' ∧ I n s' := by
  have h := foldlM_history op (List.range n) (fun pre s => I pre.length s)
    (fun pre i post s hx hI => by
      have hlt := congrArg List.length hx
      rw [List.length_range, List.length_append, List.length_cons] at hlt
      have hi : (List.range n)[pre.length]? = some i := by rw [hx]; simp
      rw [List.getElem?_range (by omega)] at hi
      obtain rfl := Option.some.inj hi
      rw [List.length_append, List.length_singleton]
      exact hstep pre.length s (by omega) hI) hs
  rwa [List.length_range] at h

/-- A counting loop that stops short in pass `m`. -/
theorem foldlM_range_error {op : σ → Nat → Except Fault σ} {m n : Nat} (hm : m < n) {s s' : σ}
    (hrun : (List.range m).foldlM op s = .ok s') {e : Fault} (hstop : op s' m = .error e) :
    (List.range n).foldlM op s = .error e := by
  obtain ⟨k, rfl⟩ : ∃ k, n = m + 1 + k := ⟨n - (m + 1), by omega⟩
  rw [List.range_add, List.range_succ, List.foldlM_append, List.foldlM_append, hrun]
  simp only [bind, Except.bind, List.foldlM_cons, hstop]

theorem returns_next {s s' : σ} {b : β} (h : body s = .ok (.next s'))
    (hr : Returns (fun fuel => loop body fuel s') b) :
    Returns (fun fuel => loop body fuel s) b := by
  obtain ⟨N, hN⟩ := hr
  refine ⟨N + 1, fun fuel hf => ?_⟩
  obtain ⟨k, rfl⟩ : ∃ k, fuel = k + 1 := ⟨fuel - 1, by omega⟩
  simp only
  rw [loop_succ_next h]
  exact hN k (by omega)

theorem returns_done {s : σ} {b : β} (h : body s = .ok (.done b)) :
    Returns (fun fuel => loop body fuel s) b := by
  refine ⟨1, fun fuel hf => ?_⟩
  obtain ⟨k, rfl⟩ : ∃ k, fuel = k + 1 := ⟨fuel - 1, by omega⟩
  exact loop_succ_done h k

/-- Total correctness. `I n` is the invariant at measure `n`: a pass from a state in `I n` does
    not fault, and it either leaves the loop with `Q` or comes back to `I` at a smaller
    measure. -/
theorem loop_returns (I : Nat → σ → Prop) (Q : β → Prop)
    (hstep : ∀ n s, I n s → (∃ n' s', body s = .ok (.next s') ∧ I n' s' ∧ n' < n) ∨
      (∃ b, body s = .ok (.done b) ∧ Q b)) :
    ∀ n s, I n s → ∃ b, Q b ∧ Returns (fun fuel => loop body fuel s) b := by
  intro n
  induction n using Nat.strong_induction_on with
  | _ n ih =>
    intro s hs
    rcases hstep n s hs with ⟨n', s', hb, hI, hlt⟩ | ⟨b, hb, hq⟩
    · obtain ⟨b, hq, hr⟩ := ih n' hlt s' hI
      exact ⟨b, hq, returns_next hb hr⟩
    · exact ⟨b, hq, returns_done hb⟩

/-- The first pass of a run that is `ok`. -/
theorem loop_ok_cases {fuel : Nat} {s : σ} {b : β} (h : loop body fuel s = .ok b) :
    body s = .ok (.done b) ∨
      ∃ s' fuel', body s = .ok (.next s') ∧ loop body fuel' s' = .ok b ∧ fuel' < fuel := by
  cases fuel with
  | zero => cases h
  | succ fuel =>
    cases hb : body s with
    | error e =>
      rw [loop_succ_error hb] at h
      cases h
    | ok p =>
      cases p with
      | next s' =>
        rw [loop_succ_next hb] at h
        exact Or.inr ⟨s', fuel, rfl, h, Nat.lt_succ_self fuel⟩
      | done b' =>
        rw [loop_succ_done hb] at h
        exact Or.inl (congrArg _ (congrArg _ (Except.ok.inj h)))

/-- A run that is `ok` is a run of the real loop: more fuel does not change it. -/
theorem loop_ok_returns {fuel : Nat} {s : σ} {b : β} (h : loop body fuel s = .ok b) :
    Returns (fun fuel => loop body fuel s) b := by
  induction fuel using Nat.strong_induction_on generalizing s with
  | _ fuel ih =>
    rcases loop_ok_cases h with hdone | ⟨s', fuel', hnext, hrest, hlt⟩
    · exact returns_done hdone
    · exact returns_next hnext (ih fuel' hlt hrest)

/-- What every pass keeps holds at the end of a run that is `ok`. -/
theorem loop_ok_keeps {I : σ → Prop} {Q : β → Prop}
    (hnext : ∀ s s', body s = .ok (.next s') → I s → I s')
    (hdone : ∀ s b, body s = .ok (.done b) → I s → Q b) {fuel : Nat} {s : σ} {b : β}
    (h : loop body fuel s = .ok b) (hs : I s) : Q b := by
  induction fuel using Nat.strong_induction_on generalizing s with
  | _ fuel ih =>
    rcases loop_ok_cases h with hd | ⟨s', fuel', hn, hrest, hlt⟩
    · exact hdone s b hd hs
    · exact ih fuel' hlt hrest (hnext s s' hn hs)

def Pass.map {σ' β' : Type} (f : σ → σ') (g : β → β') : Pass σ β → Pass σ' β'
  | .next s => .next (f s)
  | .done b => .done (g b)

/-- Two loops in step: what `f` and `g` leave of the states and results of the first is the
    second. -/
theorem loop_map {σ' β' : Type} {body' : σ' → Except Fault (Pass σ' β')} {f : σ → σ'} {g : β → β'}
    (h : ∀ s, body' (f s) = (body s).map (Pass.map f g)) (fuel : Nat) (s : σ) :
    loop body' fuel (f s) = (loop body fuel s).map g := by
  induction fuel generalizing s with
  | zero => rfl
  | succ fuel ih =>
    have hs := h s
    cases hb : body s with
    | error e =>
      rw [hb] at hs
      rw [loop_succ_error hb, loop_succ_error hs]
      rfl
    | ok p =>
      rw [hb] at hs
      cases p with
      | next s' => rw [loop_succ_next hb, loop_succ_next hs, ih]
      | done b =>
        rw [loop_succ_done hb, loop_succ_done hs]
        rfl

/-- The same for folds. -/
theorem foldlM_map {σ' : Type} {op : σ → γ → Except Fault σ} {op' : σ' → γ → Except Fault σ'}
    {f : σ → σ'} (h : ∀ s x, op' (f s) x = (op s x).map f) (xs : List γ) (s : σ) :
    xs.foldlM op' (f s) = (xs.foldlM op s).map f := by
  induction xs generalizing s with
  | nil => rfl
  | cons x xs ih =>
    rw [List.foldlM_cons, List.foldlM_cons, h]
    cases op s x with
    | error e => rfl
    | ok s' => exact ih s'

theorem Returns.map {f : Nat → Except Fault β} {b : β} (h : Returns f b) (g : β → γ) :
    Returns (fun fuel => (f fuel).map g) (g b) := by
  obtain ⟨N, hN⟩ := h
  refine ⟨N, fun fuel hf => ?_⟩
  simp only [hN fuel hf]
  rfl

/-- A loop that always asks for another pass never ends. -/
theorem loop_diverges (I : σ → Prop) (hstep : ∀ s, I s → ∃ s', body s = .ok (.next s') ∧ I s')
    {s : σ} (hs : I s) (fuel : Nat) : loop body fuel s = .error .outOfFuel := by
  induction fuel generalizing s with
  | zero => rfl
  | succ fuel ih =>
    obtain ⟨s', hb, hI⟩ := hstep s hs
    rw [loop_succ_next hb]
    exact ih hI

/-- A program that runs out of whatever fuel it is given does not return. -/
theorem not_returns_of_outOfFuel {f : Nat → Except Fault β}
    (h : ∀ fuel, f fuel = .error .outOfFuel) (b : β) : ¬ Returns f b := by
  rintro ⟨N, hN⟩
  have hok := hN N (le_refl N)
  rw [h N] at hok
  cases hok

/-! ## Loops whose body needs fuel itself -/

/-- With enough fuel for the loop and for its body, the loop returns `b`. -/
def LoopReturns (body : Nat → σ → Except Fault (Pass σ β)) (s : σ) (b : β) : Prop :=
  ∃ N, ∀ m fuel, N ≤ m → N ≤ fuel → loop (body m) fuel s = .ok b

section Nested

variable {body : Nat → σ → Except Fault (Pass σ β)}

theorem LoopReturns.done {s : σ} {b : β} (h : Returns (fun m => body m s) (.done b)) :
    LoopReturns body s b := by
  obtain ⟨N, hN⟩ := h
  refine ⟨N + 1, fun m fuel hm hf => ?_⟩
  obtain ⟨k, rfl⟩ : ∃ k, fuel = k + 1 := ⟨fuel - 1, by omega⟩
  exact loop_succ_done (hN m (by omega)) k

theorem LoopReturns.next {s s' : σ} {b : β} (hr : LoopReturns body s' b)
    (h : Returns (fun m => body m s) (.next s')) : LoopReturns body s b := by
  obtain ⟨N, hN⟩ := h
  obtain ⟨K, hK⟩ := hr
  refine ⟨N + K + 1, fun m fuel hm hf => ?_⟩
  obtain ⟨k, rfl⟩ : ∃ k, fuel = k + 1 := ⟨fuel - 1, by omega⟩
  rw [loop_succ_next (hN m (by omega))]
  exact hK m k (by omega) (by omega)

/-- From `s` the loop gets to `s'`. -/
def Reaches (body : Nat → σ → Except Fault (Pass σ β)) (s s' : σ) : Prop :=
  ∀ b, LoopReturns body s' b → LoopReturns body s b

theorem Reaches.next {s s' : σ} (h : Returns (fun m => body m s) (.next s')) : Reaches body s s' :=
  fun _ hr => hr.next h

theorem Reaches.trans {s₁ s₂ s₃ : σ} (h : Reaches body s₁ s₂) (h' : Reaches body s₂ s₃) :
    Reaches body s₁ s₃ := fun b hr => h b (h' b hr)

theorem LoopReturns.returns {s : σ} {b : β} (h : LoopReturns body s b) :
    Returns (fun fuel => loop (body fuel) fuel s) b := by
  obtain ⟨N, hN⟩ := h
  exact ⟨N, fun fuel hf => hN fuel fuel hf hf⟩

end Nested

end Monya.Lib
