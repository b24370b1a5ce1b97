import DelaunaySurface.Samples.Axes
import DelaunaySurface.Samples.Basic
/-!
# Editing samples

The changes that samples undergo, step by step: what has been written when a step fails stays. An edit that
fails leaves the samples as they were all the same (`Edit.outcome_eq`), also when a formula has no value only at a
late sample: all heights are computed before any is written.
-/

namespace DelaunaySurface

namespace Samples

variable {α : Type}

def push (s : Samples α) (p : Sample α) : Samples α where
  xs := s.xs.push p.x
  ys := s.ys.push p.y
  zs := s.zs.push p.z
  ys_size := by simp [s.ys_size]
  zs_size := by simp [s.zs_size]

/-- A column of length `n`: cut off, or filled up with zeros. -/
def resizeColumn [Zero α] (column : Array α) (n : Nat) : Array α :=
  column.extract 0 n ++ Array.replicate (n - column.size) 0

@[simp] theorem size_resizeColumn [Zero α] (column : Array α) (n : Nat) :
    (resizeColumn column n).size = n := by
  simp only [resizeColumn, Array.size_append, Array.size_extract, Array.size_replicate]
  omega

/-- Cuts the samples off at `n`, or appends samples at the origin up to `n`. -/
def resize [Zero α] (s : Samples α) (n : Nat) : Samples α where
  xs := resizeColumn s.xs n
  ys := resizeColumn s.ys n
  zs := resizeColumn s.zs n

/-- Overwrites the sample `i`; where there is none yet, the samples grow to hold it. -/
def set [Zero α] (s : Samples α) (i : Nat) (p : Sample α) : Samples α :=
  let s := if i < s.size then s else s.resize (i + 1)
  { xs := s.xs.setIfInBounds i p.x
    ys := s.ys.setIfInBounds i p.y
    zs := s.zs.setIfInBounds i p.z
    ys_size := by simp [s.ys_size]
    zs_size := by simp [s.zs_size] }

theorem size_eraseIdxIfInBounds (column : Array α) (i : Nat) :
    (column.eraseIdxIfInBounds i).size = if i < column.size then column.size - 1 else column.size := by
  unfold Array.eraseIdxIfInBounds
  split <;> simp [*]

/-- Removes the sample `i` and moves the later ones down. -/
def remove (s : Samples α) (i : Nat) : Samples α where
  xs := s.xs.eraseIdxIfInBounds i
  ys := s.ys.eraseIdxIfInBounds i
  zs := s.zs.eraseIdxIfInBounds i
  ys_size := by simp only [size_eraseIdxIfInBounds, s.ys_size]
  zs_size := by simp only [size_eraseIdxIfInBounds, s.zs_size]

theorem size_remove (s : Samples α) (i : Nat) :
    (s.remove i).size = if i < s.size then s.size - 1 else s.size :=
  size_eraseIdxIfInBounds s.xs i

/-- Removes the samples from `j` on that are at the place `p`. -/
def removeAt [Scalar α] (s : Samples α) (p : Point α) (j : Nat) : Samples α :=
  if h : j < s.size then
    if (s.get ⟨j, h⟩).point.same p then (s.remove j).removeAt p j else s.removeAt p (j + 1)
  else s
termination_by s.size - j
decreasing_by
  · rw [size_remove, if_pos h]
    omega
  · omega

theorem size_removeAt_le [Scalar α] (s : Samples α) (p : Point α) (j : Nat) :
    (s.removeAt p j).size ≤ s.size := by
  fun_induction removeAt s p j with
  | case1 s j h hsame ih =>
    rw [size_remove, if_pos h] at ih
    omega
  | case2 s j h hsame ih => exact ih
  | case3 s j h => exact Nat.le_refl _

/-- Keeps the first sample at each place from `i` on. -/
def keepFirstFrom [Scalar α] (s : Samples α) (i : Nat) : Samples α :=
  if h : i < s.size then (s.removeAt (s.get ⟨i, h⟩).point (i + 1)).keepFirstFrom (i + 1) else s
termination_by s.size - i
decreasing_by
  have := size_removeAt_le s (s.get ⟨i, h⟩).point (i + 1)
  omega

/-- Keeps the first sample at each place, with its height. -/
def removeDuplicates [Scalar α] (s : Samples α) : Samples α :=
  s.keepFirstFrom 0

def scale [Scalar α] (s : Samples α) (factor : α) (axes : Axes) : Samples α where
  xs := if axes.x then s.xs.map (· * factor) else s.xs
  ys := if axes.y then s.ys.map (· * factor) else s.ys
  zs := if axes.z then s.zs.map (· * factor) else s.zs
  ys_size := by
    have := s.ys_size
    split <;> split <;> simpa
  zs_size := by
    have := s.zs_size
    split <;> split <;> simpa

/-- Replaces each height by a function of its sample. -/
def mapHeights (s : Samples α) (f : Sample α → α) : Samples α where
  xs := s.xs
  ys := s.ys
  zs := Array.ofFn fun i => f (s.get i)
  ys_size := s.ys_size
  zs_size := by simp [size]

/-- Adds `c` times a function of the sample to each height. -/
def addHeights [Scalar α] (s : Samples α) (f : Sample α → α) (c : α) : Samples α :=
  s.mapHeights fun p => p.z + c * f p

/-- The values of a rule at all samples of a list, one for each, or the first failure. -/
def evaluate {ε : Type} (rule : Sample α → Except ε α) :
    (l : List (Sample α)) → Except ε { zs : List α // zs.length = l.length }
  | [] => .ok ⟨[], rfl⟩
  | p :: rest =>
    match rule p with
    | .error e => .error e
    | .ok z =>
      match evaluate rule rest with
      | .error e => .error e
      | .ok ⟨zs, h⟩ => .ok ⟨z :: zs, by simp [h]⟩

/-- Replaces each height by the value of a rule that may fail. -/
def mapHeightsOrFail {ε : Type} (s : Samples α) (rule : Sample α → Except ε α) : Except ε (Samples α) :=
  match evaluate rule s.toList with
  | .error e => .error e
  | .ok ⟨zs, h⟩ =>
    .ok { s with zs := zs.toArray, zs_size := h.trans s.length_toList }

end Samples

/-- A rule for heights: a function of the sample that may fail, or the reason why there is none. -/
abbrev HeightRule (α : Type) := Except Failure (Sample α → Except Failure α)

/-- One change to samples. -/
inductive Edit (α : Type)
  | push (p : Sample α)
  /-- Overwrites a sample, growing the samples where needed. -/
  | set (i : Nat) (p : Sample α)
  | resize (n : Nat)
  | clear
  | remove (i : Nat)
  | removeDuplicates
  | scale (factor : α) (axes : Axes)
  /-- Replaces heights. -/
  | apply (f : Sample α → α)
  /-- Adds a multiple of a function to the heights. -/
  | add (f : Sample α → α) (c : α)
  /-- Replaces heights by a rule that may fail. -/
  | applyRule (rule : HeightRule α)
  /-- Adds a multiple of a rule that may fail. -/
  | addRule (rule : HeightRule α) (c : α)

namespace Edit

/-- What an edit reports. -/
inductive Report (α : Type)
  | done
  /-- The index that was written. -/
  | index (i : Nat)
  /-- The number of samples left. -/
  | size (n : Nat)
  /-- The sample that was taken out. -/
  | removed (p : Sample α)

variable {α : Type}

/-! ## Steps -/

/-- An edit under way: it looks at the samples, writes them and may fail. What it has written by then stays. -/
abbrev Steps (α : Type) := ExceptT Failure (StateM (Samples α))

/-- A value computed from the samples as they are. Nothing is written, and the edit ends here where there is no value. -/
def compute {β : Type} (x : Samples α → Except Failure β) : Steps α β := do
  x (← get)

/-- Steps that fail leave the samples as they were before the first of them. -/
def Untouched {β : Type} (x : Steps α β) : Prop :=
  ∀ s failure, (x.run.run s).1 = .error failure → (x.run.run s).2 = s

section

variable {β γ : Type} (x : Samples α → Except Failure β) {rest : β → Steps α γ}

/-- What comes after a value is done where there is one. -/
theorem run_compute (s : Samples α) : (compute x >>= rest).run.run s =
    match x s with
    | .ok b => (rest b).run.run s
    | .error failure => (.error failure, s) := by
  change (ExceptT.bindCont rest (x s) : StateM (Samples α) (Except Failure γ)) s = _
  cases x s <;> rfl

/-- Before the first write only the steps still to come can touch the samples. -/
theorem Untouched.compute (h : ∀ b, Untouched (rest b)) : Untouched (compute x >>= rest) := by
  intro s failure hfail
  rw [run_compute] at hfail ⊢
  cases hx : x s with
  | ok b =>
    rw [hx] at hfail
    exact h b s failure hfail
  | error e => rfl

end

/-! ## Edits -/

variable [Scalar α]

def steps : Edit α → Steps α (Report α)
  | push p => do
    let i := (← get).size
    modify (·.push p)
    return .index i
  | set i p => do
    modify (·.set i p)
    return .index i
  | resize n => do
    modify (·.resize n)
    return .done
  | clear => do
    modify fun _ => .empty
    return .done
  | remove i => do
    let p ← compute (·.find i)
    modify (·.remove i)
    return .removed p
  | removeDuplicates => do
    modify (·.removeDuplicates)
    return .size (← get).size
  | scale factor axes => do
    modify (·.scale factor axes)
    return .done
  | apply f => do
    modify (·.mapHeights f)
    return .done
  | add f c => do
    modify (·.addHeights f c)
    return .done
  | applyRule rule => do
    let f ← compute fun _ => rule
    let t ← compute (·.mapHeightsOrFail f)
    modify fun _ => t
    return .done
  | addRule rule c => do
    let f ← compute fun _ => rule
    let t ← compute (·.mapHeightsOrFail fun p => return p.z + c * (← f p))
    modify fun _ => t
    return .done

/-- What an edit reports or fails with, and the samples that it leaves in either case. -/
def outcome (s : Samples α) (e : Edit α) : Except Failure (Report α) × Samples α :=
  e.steps.run.run s

/-- The samples after an edit that succeeds, and its report. -/
def run (s : Samples α) (e : Edit α) : Except Failure (Samples α × Report α) :=
  match e.outcome s with
  | (.ok report, t) => .ok (t, report)
  | (.error failure, _) => .error failure

/-- The samples that an edit leaves, also where it fails. -/
def result (s : Samples α) (e : Edit α) : Samples α := (e.outcome s).2

/-- All that may fail in an edit is computed before the first write. -/
theorem untouched_steps (e : Edit α) : Untouched e.steps := by
  cases e with
  | remove i => exact .compute _ fun p => nofun
  | applyRule rule => exact .compute _ fun f => .compute _ fun t => nofun
  | addRule rule c => exact .compute _ fun f => .compute _ fun t => nofun
  | _ => nofun

/-- An edit that fails leaves the samples as they were. -/
theorem outcome_eq (s : Samples α) (e : Edit α) : e.outcome s =
    match e.run s with
    | .ok (t, report) => (.ok report, t)
    | .error failure => (.error failure, s) := by
  have huntouched : ∀ failure, (e.outcome s).1 = .error failure → (e.outcome s).2 = s := untouched_steps e s
  rw [run]
  cases houtcome : e.outcome s with
  | mk report t =>
    rw [houtcome] at huntouched
    cases report with
    | ok report => rfl
    | error failure => exact congrArg (Prod.mk _) (huntouched failure rfl)

theorem result_of_error {s : Samples α} {e : Edit α} {failure : Failure} (h : e.run s = .error failure) :
    e.result s = s := by
  rw [result, outcome_eq, h]

theorem run_removeDuplicates (s : Samples α) :
    run s removeDuplicates = .ok (s.removeDuplicates, .size s.removeDuplicates.size) := rfl

theorem run_remove (s : Samples α) (i : Nat) : run s (remove i) = (s.find i).map fun p => (s.remove i, .removed p) := by
  rw [run, outcome, steps, run_compute]
  cases s.find i <;> rfl

/-- Heights are written when all of them are there. -/
theorem run_applyRule (s : Samples α) (f : Sample α → Except Failure α) :
    run s (applyRule (.ok f)) = (s.mapHeightsOrFail f).map fun t => (t, .done) := by
  rw [run, outcome, steps, run_compute]
  dsimp only
  rw [run_compute]
  cases s.mapHeightsOrFail f <;> rfl

theorem run_addRule (s : Samples α) (f : Sample α → Except Failure α) (c : α) : run s (addRule (.ok f) c) =
    (s.mapHeightsOrFail fun p => return p.z + c * (← f p)).map fun t => (t, .done) := by
  rw [run, outcome, steps, run_compute]
  dsimp only
  rw [run_compute]
  cases s.mapHeightsOrFail fun p => return p.z + c * (← f p) <;> rfl

end Edit

end DelaunaySurface
