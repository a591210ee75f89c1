/-
  `cunsigned` under any calls (`common/types.hpp`).

  `Fields` is the object with its two `unsigned` fields, whatever they hold. `set` assigns before
  it checks: a caller that catches its exception goes on with a value outside the range, from where
  `inc` counts up to `2 ^ 32` before it is back at 0 (`inc_escapes`). `CUnsigned` is the counter
  that stays in its range; a call that does not throw does the same to both (`Shows.perform`).

  `history_circular_iff` says for which histories of calls, caught exceptions included, the object
  is the counter that it is meant to be.
-/
import Monya.Common.Types

namespace Monya.CUnsigned

open Monya.Lib

structure Fields where
  val : UInt32
  max : UInt32
  deriving DecidableEq, Repr

namespace Fields

/-! ## The class -/

def new (max : UInt32) : Except Fault Fields :=
  if max = 0 then .error (.thrown "max must be > 0") else .ok ⟨0, max⟩

/-- `cunsigned(val, max)`. -/
def newAt (val max : UInt32) : Except Fault Fields :=
  if max = 0 then .error (.thrown "max must be > 0")
  else if val ≥ max then .error (.thrown "val must be < max")
  else .ok ⟨val, max⟩

/-- How `set` ends, and the object that it leaves. -/
def set (c : Fields) (val : UInt32) : Except Fault Unit × Fields :=
  let c := { c with val }
  if val ≥ c.max then (.error (.thrown "val must be < max"), c) else (.ok (), c)

def inc (c : Fields) : UInt32 × Fields :=
  let val := if c.val = c.max - 1 then 0 else c.val + 1
  (val, { c with val })

def dec (c : Fields) : UInt32 × Fields :=
  let val := if c.val = 0 then c.max - 1 else c.val - 1
  (val, { c with val })

def get (c : Fields) : UInt32 := c.val

inductive Call where
  | set (val : UInt32)
  | inc
  | dec
  deriving DecidableEq, Repr

/-- The object after a call; the caller catches what `set` throws. -/
def perform (c : Fields) : Call → Fields
  | .set val => (c.set val).2
  | .inc => c.inc.2
  | .dec => c.dec.2

def history (c : Fields) (calls : List Call) : Fields := calls.foldl perform c

/-- The object comes from one of the constructors. -/
def Made (max : UInt32) (c : Fields) : Prop := new max = .ok c ∨ ∃ val, newAt val max = .ok c

/-! ## What the counter is for -/

section Purpose

variable (c : Fields) (calls : List Call)

def StaysBelow : Prop := ∀ pre post, calls = pre ++ post → (c.history pre).get < c.max

/-- A call of `set` that throws changes nothing. -/
def ThrowKeeps : Prop :=
  ∀ pre val post, calls = pre ++ .set val :: post → ∀ e, ((c.history pre).set val).1 = .error e →
    ((c.history pre).set val).2.get = (c.history pre).get

def Undoes : Prop :=
  ∀ pre post, calls = pre ++ post →
    (c.history (pre ++ [.inc, .dec])).get = (c.history pre).get ∧
      (c.history (pre ++ [.dec, .inc])).get = (c.history pre).get

/-- In every state, `n` calls of `inc` add `n` modulo `max`. -/
def CountsOn : Prop :=
  ∀ pre post, calls = pre ++ post → ∀ n,
    (c.history (pre ++ List.replicate n .inc)).get.toNat =
      ((c.history pre).get.toNat + n) % c.max.toNat

end Purpose

/-- No call of `set` throws. -/
def Quiet (max : UInt32) (calls : List Call) : Prop := ∀ val, .set val ∈ calls → val < max

/-- The value is in the range, or neither the first nor the last outside of it. -/
def Reversible (c : Fields) : Prop := c.get < c.max ∨ c.max < c.get ∧ c.get + 1 ≠ 0

/-! ## One call -/

section Step

variable {c : Fields}

theorem toNat_ne_zero {x : UInt32} (h : x ≠ 0) : x.toNat ≠ 0 := fun hx => h (UInt32.toNat_inj.mp hx)

/-- `set` assigns whether it throws or not. -/
theorem set_object (c : Fields) (val : UInt32) : (c.set val).2 = ⟨val, c.max⟩ := by
  unfold set
  dsimp only
  split <;> rfl

theorem set_get (c : Fields) (val : UInt32) : (c.set val).2.get = val := by
  rw [set_object]
  rfl

theorem perform_max (c : Fields) (call : Call) : (c.perform call).max = c.max := by
  cases call with
  | set val =>
    show (c.set val).2.max = c.max
    rw [set_object]
  | inc => rfl
  | dec => rfl

theorem set_thrown {val : UInt32} (h : c.max ≤ val) :
    (c.set val).1 = .error (.thrown "val must be < max") := by
  unfold set
  dsimp only
  rw [if_pos h]

theorem set_returns {val : UInt32} (h : val < c.max) : (c.set val).1 = .ok () := by
  unfold set
  dsimp only
  rw [if_neg (UInt32.not_le.mpr h)]

theorem inc_toNat (hmax : 0 < c.max) :
    c.inc.2.get.toNat =
      if c.get.toNat + 1 = c.max.toNat then 0 else (c.get.toNat + 1) % 2 ^ 32 := by
  have hone : (c.max - 1).toNat = c.max.toNat - 1 := UInt32.toNat_sub_of_le _ _ hmax
  have hpos : 0 < c.max.toNat := hmax
  unfold inc get
  dsimp only
  by_cases h : c.val = c.max - 1
  · rw [if_pos h, if_pos (by rw [h, hone]; omega)]
    rfl
  · have hne : c.val.toNat ≠ c.max.toNat - 1 := fun he =>
      h (UInt32.toNat_inj.mp (he.trans hone.symm))
    rw [if_neg h, if_neg (by omega), UInt32.toNat_add]
    rfl

theorem dec_toNat (hmax : 0 < c.max) :
    c.dec.2.get.toNat = if c.get.toNat = 0 then c.max.toNat - 1 else c.get.toNat - 1 := by
  unfold dec get
  dsimp only
  by_cases h : c.val = 0
  · rw [if_pos h, if_pos (by rw [h]; rfl)]
    exact UInt32.toNat_sub_of_le _ _ hmax
  · rw [if_neg h, if_neg (toNat_ne_zero h)]
    exact UInt32.toNat_sub_of_le _ _ (Nat.pos_of_ne_zero (toNat_ne_zero h))

end Step

end Fields

/-! ## The counter in its range -/

open Fields (Call)

/-- The same call on the counter that carries its range. -/
def step (k : CUnsigned) : Call → Except Fault CUnsigned
  | .set val => k.set val.toNat
  | .inc => .ok k.inc
  | .dec => .ok k.dec

namespace Fields

/-- The object holds the counter `k`. -/
structure Shows (c : Fields) (k : CUnsigned) : Prop where
  val : c.get.toNat = k.val
  max : c.max.toNat = k.max

section Shows

variable {c : Fields} {k : CUnsigned}

theorem Shows.lt (h : c.Shows k) : c.get < c.max := by
  rw [UInt32.lt_iff_toNat_lt, h.val, h.max]
  exact k.lt

theorem shows_of_lt (h : c.get < c.max) : ∃ k, c.Shows k := ⟨⟨_, _, h⟩, rfl, rfl⟩

theorem Shows.max_pos (h : c.Shows k) : 0 < c.max := by
  have hlt : c.get.toNat < c.max.toNat := h.lt
  exact Nat.lt_of_le_of_lt (Nat.zero_le _) hlt

theorem Shows.inc (h : c.Shows k) : c.inc.2.Shows k.inc := by
  have hlt := k.lt
  have hmaxlt := c.max.toNat_lt
  have hval := h.val
  have hmax := h.max
  refine ⟨?_, hmax⟩
  rw [inc_toNat h.max_pos, inc_val, hval, hmax]
  split
  · next hlast => rw [hlast, Nat.mod_self]
  · rw [Nat.mod_eq_of_lt (by omega), Nat.mod_eq_of_lt (by omega)]

theorem Shows.dec (h : c.Shows k) : c.dec.2.Shows k.dec := by
  refine ⟨?_, h.max⟩
  rw [dec_toNat h.max_pos, h.val, h.max]
  rfl

/-- The constructor makes the counter that it is asked for, or both throw. -/
theorem newAt_shows (val max : UInt32) :
    (∃ c k, newAt val max = .ok c ∧ CUnsigned.newAt val.toNat max.toNat = .ok k ∧
      c.max = max ∧ c.Shows k) ∨
      ∃ e, newAt val max = .error e ∧ CUnsigned.newAt val.toNat max.toNat = .error e := by
  unfold newAt CUnsigned.newAt
  by_cases hzero : max = 0
  · rw [if_pos hzero, if_pos (by rw [hzero]; rfl)]
    exact Or.inr ⟨_, rfl, rfl⟩
  · rw [if_neg hzero, if_neg (toNat_ne_zero hzero)]
    by_cases hlt : val.toNat < max.toNat
    · rw [if_neg (UInt32.not_le.mpr hlt), dif_pos hlt]
      exact Or.inl ⟨_, _, rfl, rfl, rfl, rfl, rfl⟩
    · rw [if_pos (UInt32.not_lt.mp hlt), dif_neg hlt]
      exact Or.inr ⟨_, rfl, rfl⟩

theorem new_shows (max : UInt32) :
    (∃ c k, new max = .ok c ∧ CUnsigned.new max.toNat = .ok k ∧ c.max = max ∧ c.Shows k) ∨
      ∃ e, new max = .error e ∧ CUnsigned.new max.toNat = .error e := by
  unfold new CUnsigned.new
  by_cases hzero : max = 0
  · rw [if_pos hzero, dif_neg (by rw [hzero]; exact Nat.lt_irrefl 0)]
    exact Or.inr ⟨_, rfl, rfl⟩
  · rw [if_neg hzero, dif_pos (Nat.pos_of_ne_zero (toNat_ne_zero hzero))]
    exact Or.inl ⟨_, _, rfl, rfl, rfl, rfl, rfl⟩

theorem Made.shows {max : UInt32} (h : Made max c) : c.max = max ∧ ∃ k, c.Shows k := by
  rcases h with h | ⟨val, h⟩
  · obtain ⟨c', k, hc', -, hmax, hk⟩ | ⟨e, he, -⟩ := new_shows max
    · obtain rfl := Except.ok.inj (hc'.symm.trans h)
      exact ⟨hmax, k, hk⟩
    · cases he.symm.trans h
  · obtain ⟨c', k, hc', -, hmax, hk⟩ | ⟨e, he, -⟩ := newAt_shows val max
    · obtain rfl := Except.ok.inj (hc'.symm.trans h)
      exact ⟨hmax, k, hk⟩
    · cases he.symm.trans h

/-- A call that does not throw does the same to the object and to the counter. -/
theorem Shows.perform (h : c.Shows k) {call : Call} (hcall : ∀ val, call = .set val → val < c.max) :
    ∃ k', k.step call = .ok k' ∧ (c.perform call).Shows k' := by
  cases call with
  | set val =>
    have hlt : val.toNat < k.max := h.max ▸ hcall val rfl
    refine ⟨⟨val.toNat, k.max, hlt⟩, dif_pos hlt, ?_, ?_⟩
    · exact congrArg UInt32.toNat (c.set_get val)
    · rw [perform_max, h.max]
  | inc => exact ⟨k.inc, rfl, h.inc⟩
  | dec => exact ⟨k.dec, rfl, h.dec⟩

/-- `inc` and `dec` undo each other exactly in these states: `dec` takes the first value outside the
    range into it, and `inc` the last one. -/
theorem undo_iff (hmax : 0 < c.max) :
    (c.history [.inc, .dec]).get = c.get ∧ (c.history [.dec, .inc]).get = c.get ↔
      c.Reversible := by
  show c.inc.2.dec.2.get = c.get ∧ c.dec.2.inc.2.get = c.get ↔ _
  by_cases hlt : c.get < c.max
  · obtain ⟨k, hk⟩ := shows_of_lt hlt
    have hdec := hk.inc.dec.val
    have hinc := hk.dec.inc.val
    rw [dec_inc, ← hk.val] at hdec
    rw [inc_dec, ← hk.val] at hinc
    exact iff_of_true ⟨UInt32.toNat_inj.mp hdec, UInt32.toNat_inj.mp hinc⟩ (Or.inl hlt)
  · have hge : c.max.toNat ≤ c.get.toNat := UInt32.not_lt.mp hlt
    have hpos : 0 < c.max.toNat := hmax
    have hget := c.get.toNat_lt
    have hinc : c.inc.2.get.toNat = (c.get.toNat + 1) % 2 ^ 32 := by
      rw [inc_toNat hmax, if_neg (by omega)]
    have hdec : c.dec.2.get.toNat = c.get.toNat - 1 := by
      rw [dec_toNat hmax, if_neg (by omega)]
    have hlast : c.get + 1 ≠ 0 ↔ c.get.toNat + 1 ≠ 2 ^ 32 := by
      rw [Ne, ← UInt32.toNat_inj, UInt32.toNat_add, UInt32.toNat_one, UInt32.toNat_zero]
      omega
    have hincmax : c.inc.2.max = c.max := rfl
    have hdecmax : c.dec.2.max = c.max := rfl
    unfold Reversible
    rw [or_iff_right hlt, hlast, UInt32.lt_iff_toNat_lt, ← UInt32.toNat_inj, ← UInt32.toNat_inj,
      dec_toNat (c := c.inc.2) hmax, inc_toNat (c := c.dec.2) hmax, hinc, hdec, hincmax, hdecmax]
    split_ifs <;> omega

end Shows

/-! ## Histories -/

section History

variable {c : Fields} {k : CUnsigned} {max : UInt32} {calls : List Call}

theorem history_append (c : Fields) (pre post : List Call) :
    c.history (pre ++ post) = (c.history pre).history post := List.foldl_append

theorem history_max (c : Fields) (calls : List Call) : (c.history calls).max = c.max := by
  induction calls generalizing c with
  | nil => rfl
  | cons call calls ih => exact (ih (c.perform call)).trans (c.perform_max call)

theorem Quiet.of_append {pre post : List Call} (h : Quiet max (pre ++ post)) : Quiet max pre :=
  fun val hval => h val (List.mem_append_left post hval)

/-- A history without an exception is one of the counter in its range. -/
theorem Shows.history (h : c.Shows k) (hq : Quiet c.max calls) :
    ∃ k', calls.foldlM step k = .ok k' ∧ (c.history calls).Shows k' := by
  induction calls generalizing c k with
  | nil => exact ⟨k, rfl, h⟩
  | cons call calls ih =>
    obtain ⟨k₁, hstep, h₁⟩ := h.perform fun val hval => hq val (hval ▸ List.mem_cons_self)
    have hq₁ : Quiet (c.perform call).max calls := by
      rw [perform_max]
      exact fun val hval => hq val (List.mem_cons_of_mem call hval)
    obtain ⟨k', hrun, h'⟩ := ih h₁ hq₁
    refine ⟨k', ?_, h'⟩
    rw [List.foldlM_cons, hstep, ok_bind, hrun]

theorem Shows.history_inc (h : c.Shows k) (n : Nat) :
    (c.history (List.replicate n .inc)).Shows (CUnsigned.inc^[n] k) := by
  induction n generalizing c k with
  | zero => exact h
  | succ n ih => exact ih h.inc

/-- From outside the range `inc` goes through all values up to `2 ^ 32` before it is back in it. -/
theorem inc_escapes (hmax : 0 < c.max) (hout : c.max ≤ c.get) {n : Nat}
    (hn : n ≤ 2 ^ 32 - c.get.toNat) :
    (c.history (List.replicate n .inc)).get < c.max ↔ n = 2 ^ 32 - c.get.toNat := by
  have hge : c.max.toNat ≤ c.get.toNat := hout
  have hpos : 0 < c.max.toNat := hmax
  have hlt := c.get.toNat_lt
  have hrun : (c.history (List.replicate n .inc)).get.toNat = (c.get.toNat + n) % 2 ^ 32 := by
    induction n with
    | zero => exact (Nat.mod_eq_of_lt hlt).symm
    | succ n ih =>
      have hval := ih (by omega)
      rw [Nat.mod_eq_of_lt (by omega)] at hval
      rw [List.replicate_succ', history_append]
      refine (inc_toNat (by rwa [history_max])).trans ?_
      rw [hval, history_max, if_neg (by omega), Nat.add_assoc]
  rw [UInt32.lt_iff_toNat_lt, hrun]
  omega

theorem quiet_of_staysBelow (h : c.StaysBelow calls) : Quiet c.max calls := by
  intro val hval
  obtain ⟨pre, post, rfl⟩ := List.append_of_mem hval
  have hlt := h (pre ++ [.set val]) post (by simp)
  have hlast : (c.history pre).history [.set val] = ((c.history pre).set val).2 := rfl
  rwa [history_append, hlast, set_get] at hlt

/-- The first call of `set` that throws changes the value, from one in the range to one outside. -/
theorem quiet_of_throwKeeps (h : c.Shows k) (hkeep : c.ThrowKeeps calls) : Quiet c.max calls := by
  induction calls generalizing c k with
  | nil => exact fun val hval => absurd hval List.not_mem_nil
  | cons call calls ih =>
    have hhead : ∀ val, call = .set val → val < c.max := by
      rintro val rfl
      by_contra hge
      have hsame : (c.set val).2.get = c.get :=
        hkeep [] val calls rfl _ (set_thrown (UInt32.not_lt.mp hge))
      rw [set_get] at hsame
      exact hge (hsame ▸ h.lt)
    obtain ⟨k', -, h'⟩ := h.perform hhead
    have htail : (c.perform call).ThrowKeeps calls := by
      intro pre val post hcalls
      exact hkeep (call :: pre) val post (by rw [hcalls, List.cons_append])
    have hq := ih h' htail
    rw [perform_max] at hq
    intro val hval
    rcases List.mem_cons.mp hval with he | hmem
    · exact hhead val he.symm
    · exact hq val hmem

theorem staysBelow_of_countsOn (hmax : 0 < c.max) (h : c.CountsOn calls) : c.StaysBelow calls := by
  intro pre post hcalls
  have hval := h pre post hcalls 0
  rw [List.replicate_zero, List.append_nil, Nat.add_zero] at hval
  rw [UInt32.lt_iff_toNat_lt, hval]
  exact Nat.mod_lt _ hmax

theorem throwKeeps_of_staysBelow (h : c.StaysBelow calls) : c.ThrowKeeps calls := by
  intro pre val post hcalls e he
  have hlt : val < (c.history pre).max := by
    rw [history_max]
    exact quiet_of_staysBelow h val (by simp [hcalls])
  rw [set_returns hlt] at he
  cases he

theorem undoes_iff (hmax : 0 < c.max) :
    c.Undoes calls ↔ ∀ pre post, calls = pre ++ post → (c.history pre).Reversible := by
  unfold Undoes
  refine forall₃_congr fun pre post _ => ?_
  rw [history_append, history_append]
  exact undo_iff (by rwa [history_max])

theorem countsOn_of_quiet (h : c.Shows k) (hq : Quiet c.max calls) : c.CountsOn calls := by
  intro pre post hcalls n
  obtain ⟨k', -, h'⟩ := h.history (hcalls ▸ hq).of_append
  rw [history_append, (h'.history_inc n).val, inc_iterate_val, h'.val, ← h'.max, history_max]

/-- The object of the unit test. -/
example : ∀ i < 32, ((⟨0, 9⟩ : Fields).history (List.replicate i .inc)).get.toNat = i % 9 := by
  decide

/-- The object counts modulo `max`, through a whole history of calls whose exceptions are caught,
    exactly if none of them throws. Otherwise it leaves the range, a call that throws changes it,
    and counting goes wrong; whether `inc` and `dec` undo each other depends on the values outside
    the range that it gets to. -/
theorem history_circular_iff (h : Made max c) (calls : List Call) :
    (c.StaysBelow calls ∧ c.ThrowKeeps calls ∧ c.Undoes calls ∧ c.CountsOn calls ↔
      Quiet max calls) ∧
    (¬ Quiet max calls → ¬ c.StaysBelow calls ∧ ¬ c.ThrowKeeps calls ∧ ¬ c.CountsOn calls) ∧
    (c.Undoes calls ↔ ∀ pre post, calls = pre ++ post → (c.history pre).Reversible) := by
  obtain ⟨rfl, k, hk⟩ := h.shows
  have hmax := hk.max_pos
  refine ⟨⟨fun hall => quiet_of_staysBelow hall.1, fun hq => ?_⟩, fun hq => ⟨?_, ?_, ?_⟩,
    undoes_iff hmax⟩
  · have hcount := countsOn_of_quiet hk hq
    have hbelow := staysBelow_of_countsOn hmax hcount
    refine ⟨hbelow, throwKeeps_of_staysBelow hbelow, (undoes_iff hmax).mpr ?_, hcount⟩
    intro pre post hcalls
    have hlt := hbelow pre post hcalls
    rw [← c.history_max pre] at hlt
    exact Or.inl hlt
  · exact fun hbelow => hq (quiet_of_staysBelow hbelow)
  · exact fun hkeep => hq (quiet_of_throwKeeps hk hkeep)
  · exact fun hcount => hq (quiet_of_staysBelow (staysBelow_of_countsOn hmax hcount))

end History

/-- Calls with `set` inside the range. -/
theorem history_circular_nine :
    (⟨0, 9⟩ : Fields).StaysBelow [.dec, .set 8, .inc] ∧
      (⟨0, 9⟩ : Fields).CountsOn [.dec, .set 8, .inc] := by
  have hquiet : Quiet 9 [.dec, .set 8, .inc] := by
    intro val hval
    obtain rfl : val = 8 := by simpa using hval
    decide
  obtain ⟨hbelow, -, -, hcount⟩ :=
    (history_circular_iff (c := ⟨0, 9⟩) (Or.inl rfl) [.dec, .set 8, .inc]).1.mpr hquiet
  exact ⟨hbelow, hcount⟩

/-- `set(9)` on `cunsigned(9)` throws and leaves 9. Then `dec` and `inc` lead to 0, and `inc` to
    10. -/
theorem set_nine_caught :
    ∃ c, new 9 = .ok c ∧ (c.set 9).1 = .error (.thrown "val must be < max") ∧
      ¬ c.StaysBelow [.set 9] ∧ ¬ c.ThrowKeeps [.set 9] ∧ ¬ c.Undoes [.set 9] ∧
      ¬ c.CountsOn [.set 9] := by
  refine ⟨⟨0, 9⟩, rfl, rfl, fun h => ?_, fun h => ?_, fun h => ?_, fun h => ?_⟩
  · exact absurd (h [.set 9] [] rfl) (by decide)
  · exact absurd (h [] 9 [] rfl _ rfl) (by decide)
  · exact absurd (h [.set 9] [] rfl).2 (by decide)
  · exact absurd (h [.set 9] [] rfl 1) (by decide)

end Fields

end Monya.CUnsigned
