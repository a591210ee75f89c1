/-
  Memory: a heap of cells at addresses that are handed out once, and read-only buffers.

  An address is a `Nat` and a pointer an `Option Nat`, with `none` for the null pointer. Reads
  and writes fault on a null pointer and on an address that holds no cell (never allocated, or
  freed), so a program that returns `ok` has not dereferenced either. Addresses at or above
  `brk` have never been handed out: the structure carries that as a field, so a fresh cell is
  never an old one.

  A `Buf` is what a pointer into an array reads at each offset; a read outside the array faults.
-/
import Monya.Lib.Loop

namespace Monya.Lib

/-- A nullable pointer. -/
abbrev Ptr := Option Nat

theorem ok_bind {α β : Type} (a : α) (f : α → Except Fault β) :
    ((Except.ok a : Except Fault α) >>= f) = f a := rfl

theorem error_bind {α β : Type} (e : Fault) (f : α → Except Fault β) :
    ((Except.error e : Except Fault α) >>= f) = .error e := rfl

theorem bind_ok {α β : Type} {x : Except Fault α} {f : α → Except Fault β} {b : β}
    (h : (x >>= f) = .ok b) : ∃ a, x = .ok a ∧ f a = .ok b := by
  cases x with
  | error e => cases h
  | ok a => exact ⟨a, rfl, h⟩

theorem pure_ok {α : Type} (a : α) : (pure a : Except Fault α) = .ok a := rfl

/-- The address a pointer holds; the null pointer cannot be dereferenced. -/
def target : Ptr → Except Fault Nat
  | none => .error .nullDeref
  | some a => .ok a

@[simp] theorem target_some (a : Nat) : target (some a) = .ok a := rfl

structure Heap (V : Type) where
  cell : Nat → Option V
  /-- The first address that has never been handed out. -/
  brk : Nat
  fresh : ∀ a, brk ≤ a → cell a = none

namespace Heap

variable {V : Type}

def empty : Heap V := ⟨fun _ => none, 0, fun _ _ => rfl⟩

/-- `new`: the cell is put at `h.brk`. -/
def alloc (h : Heap V) (v : V) : Heap V where
  cell b := if b = h.brk then some v else h.cell b
  brk := h.brk + 1
  fresh a ha := by
    have hne : a ≠ h.brk := by omega
    simp only [hne, if_false]
    exact h.fresh a (by omega)

/-- Apply `f` to the cell at `a`, if there is one. -/
def update (h : Heap V) (a : Nat) (f : V → V) : Heap V where
  cell b := if b = a then (h.cell b).map f else h.cell b
  brk := h.brk
  fresh b hb := by
    split
    · rw [h.fresh b hb]; rfl
    · exact h.fresh b hb

/-- `delete`. -/
def free (h : Heap V) (a : Nat) : Heap V where
  cell b := if b = a then none else h.cell b
  brk := h.brk
  fresh b hb := by
    split
    · rfl
    · exact h.fresh b hb

def read (h : Heap V) (a : Nat) : Except Fault V :=
  match h.cell a with
  | some v => .ok v
  | none => .error .dangling

/-- Write through an address: the cell must be allocated. -/
def modify (h : Heap V) (a : Nat) (f : V → V) : Except Fault (Heap V) :=
  match h.cell a with
  | some _ => .ok (h.update a f)
  | none => .error .dangling

@[simp] theorem alloc_brk (h : Heap V) (v : V) : (h.alloc v).brk = h.brk + 1 := rfl

theorem alloc_cell (h : Heap V) (v : V) (b : Nat) :
    (h.alloc v).cell b = if b = h.brk then some v else h.cell b := rfl

@[simp] theorem alloc_cell_self (h : Heap V) (v : V) : (h.alloc v).cell h.brk = some v := by
  simp [alloc_cell]

theorem alloc_cell_ne (h : Heap V) (v : V) {b : Nat} (hb : b ≠ h.brk) :
    (h.alloc v).cell b = h.cell b := by
  simp [alloc_cell, hb]

theorem update_cell (h : Heap V) (a : Nat) (f : V → V) (b : Nat) :
    (h.update a f).cell b = if b = a then (h.cell b).map f else h.cell b := rfl

@[simp] theorem update_cell_self (h : Heap V) (a : Nat) (f : V → V) :
    (h.update a f).cell a = (h.cell a).map f := by
  simp [update_cell]

theorem update_cell_ne (h : Heap V) {a b : Nat} (f : V → V) (hb : b ≠ a) :
    (h.update a f).cell b = h.cell b := by
  simp [update_cell, hb]

theorem free_cell_ne (h : Heap V) {a b : Nat} (hb : b ≠ a) : (h.free a).cell b = h.cell b := by
  simp [free, hb]

theorem lt_brk (h : Heap V) {a : Nat} {v : V} (ha : h.cell a = some v) : a < h.brk := by
  by_contra hlt
  rw [h.fresh a (Nat.le_of_not_lt hlt)] at ha
  cases ha

theorem read_ok {h : Heap V} {a : Nat} {v : V} (ha : h.cell a = some v) : h.read a = .ok v := by
  simp only [read, ha]

theorem modify_ok {h : Heap V} {a : Nat} {v : V} (ha : h.cell a = some v) (f : V → V) :
    h.modify a f = .ok (h.update a f) := by
  simp only [modify, ha]

theorem cell_of_read {h : Heap V} {a : Nat} {v : V} (hr : h.read a = .ok v) :
    h.cell a = some v := by
  unfold read at hr
  split at hr
  · next w hw => rw [hw, Except.ok.inj hr]
  · cases hr

theorem of_modify {h h' : Heap V} {a : Nat} {f : V → V} (hm : h.modify a f = .ok h') :
    h' = h.update a f ∧ ∃ v, h.cell a = some v := by
  unfold modify at hm
  split at hm
  · next v hv => exact ⟨(Except.ok.inj hm).symm, v, hv⟩
  · cases hm

end Heap

/-! ## Buffers -/

/-- What a pointer into an array reads at each offset. -/
abbrev Buf (β : Type) := Nat → Option β

namespace Buf

variable {β γ : Type}

def get (p : Buf β) (i : Nat) : Except Fault β :=
  match p i with
  | some v => .ok v
  | none => .error .outOfBounds

/-- `&xs[off]`. -/
def ofList (xs : List β) (off : Nat) : Buf β := fun i => xs[off + i]?

/-- The first `n` elements. -/
def copy (p : Buf β) (n : Nat) : Except Fault (List β) := (List.range n).mapM p.get

/-- A write into an array of `n` elements. -/
def put (p : Buf β) (n i : Nat) (v : β) : Except Fault (Buf β) :=
  if i < n then .ok (Function.update p i (some v)) else .error .outOfBounds

theorem get_ok {p : Buf β} {i : Nat} {v : β} (h : p i = some v) : p.get i = .ok v := by
  simp only [get, h]

end Buf

theorem mapM_ok {β γ : Type} {f : β → Except Fault γ} {g : β → γ} {xs : List β}
    (h : ∀ x ∈ xs, f x = .ok (g x)) : xs.mapM f = .ok (xs.map g) := by
  induction xs with
  | nil => rfl
  | cons x xs ih =>
    rw [List.mapM_cons, h x List.mem_cons_self, ok_bind,
      ih fun y hy => h y (List.mem_cons_of_mem _ hy)]
    rfl

theorem forall₂_of_mapM {β γ : Type} {f : β → Except Fault γ} {xs : List β} {ys : List γ}
    (h : xs.mapM f = .ok ys) : List.Forall₂ (fun x y => f x = .ok y) xs ys := by
  induction xs generalizing ys with
  | nil =>
    cases h
    exact .nil
  | cons x xs ih =>
    rw [List.mapM_cons] at h
    obtain ⟨y, hy, h⟩ := bind_ok h
    obtain ⟨ys', h', h⟩ := bind_ok h
    cases h
    exact .cons hy (ih h')

theorem foldlM_ok {β σ : Type} {f : σ → β → Except Fault σ} {xs : List β}
    (h : ∀ s, ∀ x ∈ xs, ∃ s', f s x = .ok s') (s : σ) : ∃ s', xs.foldlM f s = .ok s' := by
  induction xs generalizing s with
  | nil => exact ⟨s, rfl⟩
  | cons x xs ih =>
    obtain ⟨s₁, h₁⟩ := h s x List.mem_cons_self
    obtain ⟨s₂, h₂⟩ := ih (fun s y hy => h s y (List.mem_cons_of_mem _ hy)) s₁
    exact ⟨s₂, by rw [List.foldlM_cons, h₁, ok_bind, h₂]⟩

/-- A step that fails from every state makes the fold fail. -/
theorem foldlM_error_of_mem {β σ : Type} {f : σ → β → Except Fault σ} {xs : List β} {x : β}
    (hx : x ∈ xs) (h : ∀ s, ∃ e, f s x = .error e) (s : σ) :
    ∃ e, xs.foldlM f s = .error e := by
  induction xs generalizing s with
  | nil => cases hx
  | cons y ys ih =>
    rw [List.foldlM_cons]
    cases hy : f s y with
    | error e => exact ⟨e, rfl⟩
    | ok s' =>
      rcases List.mem_cons.mp hx with rfl | hx
      · obtain ⟨e, he⟩ := h s
        rw [hy] at he
        cases he
      · exact ih hx s'

/-- A relation that every step extends, over a whole fold. -/
theorem foldlM_rel {β σ : Type} {f : σ → β → Except Fault σ} {R : σ → σ → Prop}
    (hrefl : ∀ s, R s s) (htrans : ∀ s₁ s₂ s₃, R s₁ s₂ → R s₂ s₃ → R s₁ s₃)
    (hstep : ∀ s x s', f s x = .ok s' → R s s') {xs : List β} {s s' : σ}
    (h : xs.foldlM f s = .ok s') : R s s' := by
  induction xs generalizing s with
  | nil =>
    cases h
    exact hrefl _
  | cons x xs ih =>
    rw [List.foldlM_cons] at h
    obtain ⟨s₁, h₁, h₂⟩ := bind_ok h
    exact htrans s s₁ s' (hstep s x s₁ h₁) (ih h₂)

namespace Buf

variable {β : Type}

theorem copy_ok {p : Buf β} {n : Nat} {f : Nat → β} (h : ∀ i, i < n → p i = some (f i)) :
    p.copy n = .ok ((List.range n).map f) :=
  mapM_ok fun i hi => get_ok (h i (List.mem_range.mp hi))

/-- What a copy has read. -/
theorem copy_get {p : Buf β} {n : Nat} {xs : List β} (h : p.copy n = .ok xs) :
    xs.length = n ∧ ∀ i, i < n → p i = xs[i]? := by
  have hall := forall₂_of_mapM h
  have hlen : xs.length = n := by rw [← hall.length_eq, List.length_range]
  refine ⟨hlen, fun i hi => ?_⟩
  have hget := hall.get (show i < (List.range n).length by simpa using hi) (hlen ▸ hi)
  simp only [List.get_eq_getElem, List.getElem_range, get] at hget
  split at hget
  · next v hv => rw [hv, List.getElem?_eq_getElem (hlen ▸ hi), Except.ok.inj hget]
  · cases hget

theorem copy_ofList {xs : List β} {off n : Nat} (h : off + n ≤ xs.length) :
    (ofList xs off).copy n = .ok ((xs.drop off).take n) := by
  cases n with
  | zero => rfl
  | succ n =>
    have hget : ∀ i, i < n + 1 → off + i < xs.length := fun i hi => by omega
    rw [copy_ok (f := fun i => xs.getD (off + i) (xs.get ⟨off, hget 0 (Nat.succ_pos n)⟩))]
    · congr 1
      refine List.ext_getElem (by simp; omega) fun i h₁ h₂ => ?_
      have hi : i < n + 1 := by simpa using h₁
      simp [hget i hi]
    · intro i hi
      simp [ofList, hget i hi]

end Buf

end Monya.Lib
