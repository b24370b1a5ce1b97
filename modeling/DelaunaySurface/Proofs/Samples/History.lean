import DelaunaySurface.Samples.View
import Mathlib.Data.List.Basic
/-!
# Three columns as one list

Edits change three columns one by one, and the columns stay one list of samples. What an edit does to the list is written down
once (`Edit.onList`); each edit of the columns does that, and fails where it does (`Edit.run_toList`), having written nothing.
So no history of edits, failing ones among them, shows a difference (`Edit.oneList_of_history`).
-/

namespace DelaunaySurface

namespace Edit

open Samples

variable {α : Type}

/-- Three columns of one length that spell a list. -/
structure Spells (s : Samples α) (l : List (Sample α)) : Prop where
  sizes : s.xs.size = l.length ∧ s.ys.size = l.length ∧ s.zs.size = l.length
  xs : s.xs.toList = l.map (·.x)
  ys : s.ys.toList = l.map (·.y)
  zs : s.zs.toList = l.map (·.z)

theorem spells_toList (s : Samples α) : Spells s s.toList where
  sizes := by
    rw [length_toList]
    exact ⟨rfl, s.ys_size, s.zs_size⟩
  xs := (map_x_toList s).symm
  ys := (map_y_toList s).symm
  zs := (map_z_toList s).symm

variable [Scalar α]

/-! ## One edit -/

/-- What an edit does to a list of samples. -/
def onList (l : List (Sample α)) : Edit α → Except Failure (List (Sample α) × Report α)
  | push p => .ok (l ++ [p], .index l.length)
  | set i p => .ok ((l ++ List.replicate (i + 1 - l.length) Sample.zero).set i p, .index i)
  | resize n => .ok (l.take n ++ List.replicate (n - l.length) Sample.zero, .done)
  | clear => .ok ([], .done)
  | remove i =>
    match l[i]? with
    | some p => .ok (l.eraseIdx i, .removed p)
    | none => .error (.noSuchSample i l.length)
  | removeDuplicates => .ok (keepFirst [] l, .size (keepFirst [] l).length)
  | scale factor axes => .ok (l.map (·.scale factor axes), .done)
  | apply f => .ok (l.map fun p => { p with z := f p }, .done)
  | add f c => .ok (l.map fun p => { p with z := p.z + c * f p }, .done)
  | applyRule rule => do
    let f ← rule
    let m ← l.mapM fun p => (f p).map fun z => { p with z := z }
    return (m, .done)
  | addRule rule c => do
    let f ← rule
    let m ← l.mapM fun p => (f p).map fun v => { p with z := p.z + c * v }
    return (m, .done)

/-- Edits of the columns are edits of their list. -/
theorem run_toList (s : Samples α) (e : Edit α) : (e.run s).map (fun o => (o.1.toList, o.2)) = e.onList s.toList := by
  cases e with
  | push p =>
    rw [onList, length_toList, ← toList_push]
    rfl
  | set i p =>
    rw [onList, length_toList, ← toList_set]
    rfl
  | resize n =>
    rw [onList, length_toList, ← toList_resize]
    rfl
  | clear => rfl
  | remove i =>
    rw [onList, length_toList, ← toList_remove, getElem?_toList, run_remove, find]
    cases s.get? i <;> rfl
  | removeDuplicates =>
    rw [onList, ← toList_removeDuplicates, length_toList]
    rfl
  | scale factor axes =>
    rw [onList, ← toList_scale]
    rfl
  | apply f =>
    rw [onList, ← toList_mapHeights]
    rfl
  | add f c =>
    rw [onList, ← toList_addHeights]
    rfl
  | applyRule rule =>
    cases rule with
    | error failure => rfl
    | ok f =>
      change _ = (s.toList.mapM fun p => (f p).map fun z => { p with z := z }) >>= _
      rw [run_applyRule, ← toList_mapHeightsOrFail]
      cases s.mapHeightsOrFail f <;> rfl
  | addRule rule c =>
    cases rule with
    | error failure => rfl
    | ok f =>
      have hsum : (fun p => (f p).map fun v => { p with z := p.z + c * v }) = fun p : Sample α =>
          (f p >>= fun v => pure (p.z + c * v) : Except Failure α).map fun z => { p with z := z } := by
        funext p
        cases f p <;> rfl
      change _ = (s.toList.mapM fun p => (f p).map fun v => { p with z := p.z + c * v }) >>= _
      rw [hsum, run_addRule, ← toList_mapHeightsOrFail]
      cases s.mapHeightsOrFail fun p => f p >>= fun v => pure (p.z + c * v) <;> rfl

/-! ## Histories -/

/-- What edits report one after the other, and the samples after each. -/
def outcomes (s : Samples α) : List (Edit α) → List (Except Failure (Report α) × Samples α)
  | [] => []
  | e :: es => e.outcome s :: outcomes (e.result s) es

/-- A list after an edit; the same list when it fails. -/
def listResult (l : List (Sample α)) (e : Edit α) : List (Sample α) :=
  match e.onList l with
  | .ok (m, _) => m
  | .error _ => l

/-- What edits of a list report one after the other, and the list after each. -/
def listOutcomes (l : List (Sample α)) : List (Edit α) → List (Except Failure (Report α) × List (Sample α))
  | [] => []
  | e :: es => ((e.onList l).map (·.2), e.listResult l) :: listOutcomes (e.listResult l) es

theorem toList_result (s : Samples α) (e : Edit α) : (e.result s).toList = e.listResult s.toList := by
  rw [listResult, ← run_toList, result, outcome_eq]
  cases e.run s <;> rfl

/-- A failing edit is without effect, and a rule that has no value at some sample fails, however late that sample is. -/
structure AllOrNothing (s : Samples α) : Prop where
  unchanged : ∀ e failure, run s e = .error failure → (result s e).xs = s.xs ∧ (result s e).ys = s.ys ∧ (result s e).zs = s.zs
  apply_late : ∀ f p failure, p ∈ s.toList → f p = .error failure → ∃ first, run s (applyRule (.ok f)) = .error first
  add_late : ∀ f c p failure, p ∈ s.toList → f p = .error failure → ∃ first, run s (addRule (.ok f) c) = .error first

theorem allOrNothing (s : Samples α) : AllOrNothing s where
  unchanged e failure h := by
    rw [result_of_error h]
    exact ⟨rfl, rfl, rfl⟩
  apply_late f p failure hp hf := by
    obtain ⟨first, hfirst⟩ := exists_mapHeightsOrFail_error hp hf
    refine ⟨first, ?_⟩
    rw [run_applyRule, hfirst]
    rfl
  add_late f c p failure hp hf := by
    have hsum : (f p >>= fun v => pure (p.z + c * v) : Except Failure α) = .error failure := by
      rw [hf]
      rfl
    obtain ⟨first, hfirst⟩ : ∃ first, s.mapHeightsOrFail (fun p => f p >>= fun v => pure (p.z + c * v)) = .error first :=
      exists_mapHeightsOrFail_error hp hsum
    refine ⟨first, ?_⟩
    rw [run_addRule, hfirst]
    rfl

/-- After any history of edits, with any functions and rules, the columns spell the list that the same edits make, all reports
are the same, and a failing edit changes no column. -/
theorem oneList_of_history (s : Samples α) (es : List (Edit α)) :
    List.Forall₂ (fun o m => o.1 = m.1 ∧ Spells o.2 m.2) (outcomes s es) (listOutcomes s.toList es) ∧
      AllOrNothing (es.foldl result s) := by
  refine ⟨?_, allOrNothing _⟩
  induction es generalizing s with
  | nil => exact .nil
  | cons e es ih =>
    have hreport : (outcome s e).1 = (onList s.toList e).map (·.2) := by
      rw [← run_toList, outcome_eq]
      cases run s e <;> rfl
    refine .cons ⟨hreport, toList_result s e ▸ spells_toList _⟩ ?_
    rw [← toList_result]
    exact ih _

end Edit

end DelaunaySurface
