/-
  Engines one after the other (`ComputeEngine.hpp`, `BinaryTreeProgram.hpp`): what the trees of an
  in-memory engine do to the one `MemoryIO` of the process when they are created and destroyed.

  A tree's constructor gives the unit its parameters and calls `from_file`; `~ComputeEngine` has
  every tree call `destroy` on it. Training only reads it. `destroy` frees the data but keeps the
  name, the orientation and the shape, and the setters do not replace what is set, so the first
  engine's parameters stay (`Idle`). A later engine gets its own only if they are the same
  (`isolated_iff`).
-/
import Monya.Io.MemoryUnit

namespace Monya

open Monya.Lib MemoryUnit

/-- The parameters that reach the unit, and the number of trees. -/
structure Params where
  nsamples : Nat
  nfeatures : Nat
  fn : String
  ntree : Nat
  orientation : MatOrient

def Params.shape (p : Params) : Nat × Nat := (p.nsamples, p.nfeatures)

/-- An engine is started with its parameters, on the files as they are by then. -/
structure Launch where
  params : Params
  files : Files
  junk : IntBytes

namespace ComputeEngine

variable {α : Type} (c : Codec α dtypeSize)

/-- The constructor of a tree, as far as it configures `ioer`; `s` is `memIOSingleton`. -/
def configure (l : Launch) (s : Option (MemoryUnit α)) : Except Fault (MemoryUnit α) :=
  fromFile c l.junk l.files ((((s.getD .new).setFn l.params.fn).setOrientation
    l.params.orientation).setShape l.params.shape)

/-- The constructor of an engine. -/
def createTrees (l : Launch) (s : Option (MemoryUnit α)) : Except Fault (Option (MemoryUnit α)) :=
  (List.range l.params.ntree).foldlM (fun s _ => do return some (← configure c l s)) s

/-- The destructor. -/
def destroyTrees (l : Launch) (s : Option (MemoryUnit α)) : Option (MemoryUnit α) :=
  (List.range l.params.ntree).foldl (fun s _ => s.map destroy) s

/-- One engine, from its creation to its end. -/
def runEngine (s : Option (MemoryUnit α)) (l : Launch) : Except Fault (Option (MemoryUnit α)) := do
  return destroyTrees l (← createTrees c l s)

def runEngines (ls : List Launch) : Except Fault (Option (MemoryUnit α)) :=
  ls.foldlM (runEngine c) none

/-! ## What one engine does to the unit -/

/-- What the setters make of a unit. -/
def given (p : Params) (u : MemoryUnit α) : MemoryUnit α :=
  ((u.setFn p.fn).setOrientation p.orientation).setShape p.shape

variable {c} {l : Launch} {s s' : Option (MemoryUnit α)} {u u' : MemoryUnit α}

/-- The unit with data of its own. -/
def filled (d : Buf α) (u : MemoryUnit α) : MemoryUnit α :=
  { u with data := some d, isDataLocal := true }

theorem fromFile_cases {junk : IntBytes} {files : Files} (hd : u.data = none)
    (h : fromFile c junk files u = .ok u') :
    u.fn ≠ "" ∧ ∃ bytes raw, files u.fn = some bytes ∧ load junk u.fn u.dim bytes = .ok raw ∧
      u' = filled (c.elem raw) u := by
  unfold fromFile at h
  rw [hd, Option.isSome_none, if_neg Bool.false_ne_true] at h
  split at h
  · cases h
  · next hne =>
    refine ⟨hne, ?_⟩
    split at h
    · cases h
    · next bytes hbytes =>
      obtain ⟨raw, hraw, h⟩ := bind_ok h
      exact ⟨bytes, raw, hbytes, hraw, (Except.ok.inj h).symm⟩

theorem fromFile_filled {junk : IntBytes} {files : Files} {bytes : List UInt8} {raw : Raw}
    (hd : u.data = none) (hfn : u.fn ≠ "") (hbytes : files u.fn = some bytes)
    (hraw : load junk u.fn u.dim bytes = .ok raw) :
    fromFile c junk files u = .ok (filled (c.elem raw) u) := by
  unfold fromFile
  rw [hd, Option.isSome_none, if_neg Bool.false_ne_true, if_neg hfn, hbytes]
  simp only [hraw, ok_bind]
  rfl

theorem fromFile_loaded {junk : IntBytes} {files : Files} (hd : u.data.isSome) :
    fromFile c junk files u = .ok u := by
  unfold fromFile
  rw [if_pos hd]

/-- Setting a field twice is setting it once. -/
theorem setOnce_again {β : Type} [DecidableEq β] (unset old new : β) :
    setOnce unset (setOnce unset old new) new = setOnce unset old new := by
  unfold setOnce
  split_ifs <;> rfl

theorem given_again (p : Params) (u : MemoryUnit α) : given p (given p u) = given p u := by
  simp only [given, setFn, setOrientation, setShape, setOnce_again]

theorem configure_eq : configure c l s = fromFile c l.junk l.files (given l.params (s.getD .new)) :=
  rfl

/-- The other trees of an engine find the unit as the first one leaves it. -/
theorem configure_again (hd : (s.getD .new).data = none) (h : configure c l s = .ok u) :
    configure c l (some u) = .ok u := by
  obtain ⟨-, bytes, raw, -, -, rfl⟩ := fromFile_cases (u := given l.params (s.getD .new)) hd h
  have hgiven : given l.params (filled (c.elem raw) (given l.params (s.getD .new))) =
      filled (c.elem raw) (given l.params (s.getD .new)) :=
    congrArg (filled (c.elem raw)) (given_again l.params (s.getD .new))
  rw [configure_eq, Option.getD_some, hgiven]
  exact fromFile_loaded rfl

/-- A loop whose second pass changes nothing. -/
theorem foldlM_range_settles {σ : Type} {f : σ → Except Fault σ} {x y : σ} (hx : f x = .ok y)
    (hy : f y = .ok y) (t : Nat) : (List.range (t + 1)).foldlM (fun s _ => f s) x = .ok y := by
  induction t with
  | zero =>
    change ([0].foldlM (fun s _ => f s) x) = _
    rw [List.foldlM_cons, hx, ok_bind]
    rfl
  | succ t ih =>
    rw [List.range_succ, List.foldlM_append, ih, ok_bind, List.foldlM_cons, hy, ok_bind]
    rfl

/-- All trees of an engine together do what one does. -/
theorem createTrees_cases (hl : 0 < l.params.ntree) (hd : (s.getD .new).data = none) :
    (∃ u, configure c l s = .ok u ∧ createTrees c l s = .ok (some u)) ∨
      ∃ e, configure c l s = .error e ∧ createTrees c l s = .error e := by
  obtain ⟨t, ht⟩ : ∃ t, l.params.ntree = t + 1 := ⟨l.params.ntree - 1, by omega⟩
  unfold createTrees
  rw [ht]
  cases hc : configure c l s with
  | error e =>
    refine Or.inr ⟨e, rfl, ?_⟩
    rw [List.range_succ_eq_map, List.foldlM_cons, hc]
    rfl
  | ok u =>
    refine Or.inl ⟨u, rfl, foldlM_range_settles ?_ ?_ t⟩
    · rw [hc]
      rfl
    · rw [configure_again hd hc]
      rfl

theorem destroyTrees_eq (hl : 0 < l.params.ntree) (d : Buf α) (u : MemoryUnit α) :
    destroyTrees l (some (filled d u)) = some { u with data := none, isDataLocal := true } := by
  suffices h : ∀ t, (List.range (t + 1)).foldl (fun s _ => s.map destroy) (some (filled d u)) =
      some { u with data := none, isDataLocal := true } by
    unfold destroyTrees
    rw [← Nat.sub_add_cancel hl]
    exact h _
  intro t
  induction t with
  | zero => rfl
  | succ t ih =>
    rw [List.range_succ, List.foldl_append, ih]
    rfl

/-! ## A history of engines -/

/-- A field that has been set once for each of `xs`. -/
def firstSet {β : Type} [DecidableEq β] (unset : β) (xs : List β) : β :=
  xs.foldl (setOnce unset) unset

theorem firstSet_snoc {β : Type} [DecidableEq β] (unset : β) (xs : List β) (x : β) :
    firstSet unset (xs ++ [x]) = setOnce unset (firstSet unset xs) x := by
  rw [firstSet, List.foldl_append]
  rfl

/-- The first of `xs` that sets anything, if there is one, sets `x`. -/
def Agrees {β : Type} [DecidableEq β] (unset : β) (xs : List β) (x : β) : Prop :=
  ∀ y, xs.find? (fun y => y ≠ unset) = some y → y = x

theorem firstSet_eq {β : Type} [DecidableEq β] (unset : β) (xs : List β) :
    firstSet unset xs = (xs.find? fun y => y ≠ unset).getD unset := by
  suffices h : ∀ old, xs.foldl (setOnce unset) old =
      if old = unset then (xs.find? fun y => y ≠ unset).getD unset else old by
    rw [firstSet, h, if_pos rfl]
  induction xs with
  | nil =>
    intro old
    simp only [List.foldl_nil, List.find?_nil, Option.getD_none]
    split_ifs with h <;> simp_all
  | cons x xs ih =>
    intro old
    rw [List.foldl_cons, ih, setOnce]
    by_cases hold : old = unset <;> by_cases hx : x = unset <;> simp [hold, hx]

/-- A field takes a new value exactly if it has that value or none. -/
theorem setOnce_firstSet_iff {β : Type} [DecidableEq β] (unset : β) (xs : List β) (x : β) :
    setOnce unset (firstSet unset xs) x = x ↔ Agrees unset xs x := by
  rw [firstSet_eq]
  unfold setOnce Agrees
  cases hf : xs.find? fun y => y ≠ unset with
  | none => simp
  | some y =>
    have hy : y ≠ unset := by simpa using List.find?_some hf
    simp [hy]

/-- The parameters of the engines that had trees. -/
def launched (ls : List Launch) : List Params :=
  (ls.filter fun l => 0 < l.params.ntree).map Launch.params

/-- The unit between two engines: no data, and the first parameters of those before. -/
structure Idle (ls : List Launch) (s : Option (MemoryUnit α)) : Prop where
  data : (s.getD .new).data = none
  fn : (s.getD .new).fn = firstSet "" ((launched ls).map Params.fn)
  orientation : (s.getD .new).orientation = firstSet .invalid ((launched ls).map Params.orientation)
  dim : (s.getD .new).dim = firstSet (0, 0) ((launched ls).map Params.shape)

theorem runEngines_snoc (ls : List Launch) (l : Launch) :
    runEngines c (ls ++ [l]) = runEngines c ls >>= fun s => runEngine c s l := by
  rw [runEngines, List.foldlM_append]
  simp only [List.foldlM_cons, List.foldlM_nil, bind_pure]
  rfl

theorem idle_runEngines {ls : List Launch} (h : runEngines c ls = .ok s) : Idle ls s := by
  induction ls using List.reverseRecOn generalizing s with
  | nil =>
    cases h
    exact ⟨rfl, rfl, rfl, rfl⟩
  | append_singleton ls l ih =>
    rw [runEngines_snoc] at h
    obtain ⟨s₁, h₁, h⟩ := bind_ok h
    have hidle := ih h₁
    obtain ⟨s₂, h₂, h⟩ := bind_ok h
    obtain rfl : destroyTrees l s₂ = s := Except.ok.inj h
    rcases Nat.eq_zero_or_pos l.params.ntree with h0 | hl
    · -- an engine without trees leaves the unit alone
      have hlaunched : launched (ls ++ [l]) = launched ls := by simp [launched, h0]
      have hs : destroyTrees l s₂ = s₁ := by
        simp only [createTrees, h0, List.range_zero, List.foldlM_nil] at h₂
        cases h₂
        simp [destroyTrees, h0]
      rw [hs]
      exact ⟨hidle.data, by rw [hlaunched, hidle.fn], by rw [hlaunched, hidle.orientation],
        by rw [hlaunched, hidle.dim]⟩
    · have hlaunched : launched (ls ++ [l]) = launched ls ++ [l.params] := by simp [launched, hl]
      rcases createTrees_cases (c := c) hl hidle.data with ⟨u, hc, hu⟩ | ⟨e, -, he⟩
      · cases hu.symm.trans h₂
        obtain ⟨-, bytes, raw, -, -, rfl⟩ := fromFile_cases (u := given l.params (s₁.getD .new))
          hidle.data hc
        rw [destroyTrees_eq hl]
        refine ⟨rfl, ?_, ?_, ?_⟩
        · rw [hlaunched, List.map_append, List.map_singleton, firstSet_snoc, ← hidle.fn]
          rfl
        · rw [hlaunched, List.map_append, List.map_singleton, firstSet_snoc, ← hidle.orientation]
          rfl
        · rw [hlaunched, List.map_append, List.map_singleton, firstSet_snoc, ← hidle.dim]
          rfl
      · rw [he] at h₂
        cases h₂

/-! ## Isolation -/

/-- The unit reports the parameters of `l` and holds the contents of its file. -/
structure LoadedFor (c : Codec α dtypeSize) (l : Launch) (u : MemoryUnit α) : Prop where
  fn : u.fn = l.params.fn
  orientation : u.orientation = l.params.orientation
  dim : u.dim = l.params.shape
  data : ∃ bytes raw, l.files l.params.fn = some bytes ∧
    load l.junk l.params.fn l.params.shape bytes = .ok raw ∧ u.data = some (c.elem raw)

/-- An engine with trees, created after others, finds its own parameters and data in the unit, as if
    it were the first, exactly if the engines with trees before it leave them to it: the first name
    that is not empty, the first orientation that is not `INVALID` and the first shape that is not
    (0, 0) among theirs, where there is one, is its own. -/
theorem isolated_iff {ls : List Launch} (hrun : runEngines c ls = .ok s)
    (hl : 0 < l.params.ntree) (hcreate : createTrees c l s = .ok s') :
    (∃ u, s' = some u ∧ LoadedFor c l u ∧ createTrees c l none = .ok (some u)) ↔
      Agrees "" ((launched ls).map Params.fn) l.params.fn ∧
      Agrees .invalid ((launched ls).map Params.orientation) l.params.orientation ∧
      Agrees (0, 0) ((launched ls).map Params.shape) l.params.shape := by
  have hidle := idle_runEngines hrun
  rcases createTrees_cases (c := c) hl hidle.data with ⟨u, hc, hu⟩ | ⟨e, -, he⟩
  · cases hu.symm.trans hcreate
    obtain ⟨hne, bytes, raw, hbytes, hraw, rfl⟩ :=
      fromFile_cases (u := given l.params (s.getD .new)) hidle.data hc
    -- the fields of the unit are those given last, unless they had been set before
    have hfn : (given l.params (s.getD .new)).fn = l.params.fn ↔
        Agrees "" ((launched ls).map Params.fn) l.params.fn := by
      rw [← setOnce_firstSet_iff, ← hidle.fn]
      rfl
    have horient : (given l.params (s.getD .new)).orientation = l.params.orientation ↔
        Agrees .invalid ((launched ls).map Params.orientation) l.params.orientation := by
      rw [← setOnce_firstSet_iff, ← hidle.orientation]
      rfl
    have hdim : (given l.params (s.getD .new)).dim = l.params.shape ↔
        Agrees (0, 0) ((launched ls).map Params.shape) l.params.shape := by
      rw [← setOnce_firstSet_iff, ← hidle.dim]
      rfl
    rw [← hfn, ← horient, ← hdim]
    constructor
    · rintro ⟨u, hu, hloaded, -⟩
      cases hu
      exact ⟨hloaded.fn, hloaded.orientation, hloaded.dim⟩
    · rintro ⟨h₁, h₂, h₃⟩
      rw [h₁] at hne hbytes hraw
      rw [h₃] at hraw
      refine ⟨_, rfl, ⟨h₁, h₂, h₃, bytes, raw, hbytes, hraw, rfl⟩, ?_⟩
      have hfresh : configure c l none = .ok (filled (c.elem raw) (given l.params .new)) :=
        fromFile_filled rfl hne hbytes hraw
      have hsame : filled (c.elem raw) (given l.params .new) =
          filled (c.elem raw) (given l.params (s.getD .new)) := by
        simp only [filled, MemoryUnit.mk.injEq]
        exact ⟨h₁.symm, trivial, h₂.symm, h₃.symm, trivial⟩
      rcases createTrees_cases (c := c) (s := none) hl rfl with ⟨u, hcu, hcr⟩ | ⟨e, hce, -⟩
      · cases hfresh.symm.trans hcu
        rw [hcr, hsame]
      · cases hfresh.symm.trans hce
  · rw [he] at hcreate
    cases hcreate

/-- Two files with one value each. -/
def twoFiles : Files := fun fn =>
  if fn = "a.bin" then some [7, 0, 0, 0] else if fn = "b.bin" then some [9, 0, 0, 0] else none

/-- An engine with one tree on a file with one value. -/
def launchOn (fn : String) : Launch := ⟨⟨1, 1, fn, 1, .row⟩, twoFiles, ⟨[0, 0, 0, 0], rfl⟩⟩

theorem isolated_same :
    ∃ s s', runEngines byteCodec [launchOn "a.bin"] = .ok s ∧
      createTrees byteCodec (launchOn "a.bin") s = .ok s' ∧
      ∃ u, s' = some u ∧ LoadedFor byteCodec (launchOn "a.bin") u ∧
        createTrees byteCodec (launchOn "a.bin") none = .ok (some u) := by
  have hrun : runEngines byteCodec [launchOn "a.bin"] =
      .ok (some ⟨"a.bin", none, .row, (1, 1), true⟩) := rfl
  have hcreate : createTrees byteCodec (launchOn "a.bin")
      (some ⟨"a.bin", none, .row, (1, 1), true⟩) = .ok (some ⟨"a.bin", some (byteCodec.elem
        [some 7, some 0, some 0, some 0]), .row, (1, 1), true⟩) := rfl
  refine ⟨_, _, hrun, hcreate, (isolated_iff hrun (by decide) hcreate).mpr ⟨?_, ?_, ?_⟩⟩
  all_goals
    intro y hy
    cases hy
    rfl

/-- The second engine is given the first one's file. -/
theorem second_engine_first_file :
    ∃ s u u', runEngines byteCodec [launchOn "a.bin"] = .ok s ∧
      createTrees byteCodec (launchOn "b.bin") s = .ok (some u) ∧
      u.fn = "a.bin" ∧ u.view.data 0 = some 7 ∧
      createTrees byteCodec (launchOn "b.bin") none = .ok (some u') ∧
      u'.fn = "b.bin" ∧ u'.view.data 0 = some 9 :=
  ⟨_, _, _, rfl, rfl, rfl, rfl, rfl, rfl, rfl⟩

end ComputeEngine

end Monya
