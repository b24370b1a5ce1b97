import DelaunaySurface.Proofs.Double.Order
import DelaunaySurface.Proofs.Triangulation.Convexity
import DelaunaySurface.Proofs.Triangulation.Range
import DelaunaySurface.Raster
/-!
# Rasters row by row

A raster of a surface is made of rows that do not depend on one another: each holds the answers of a fresh interpolant to the
centres of its cells, from left to right. Each cell counts once, as undefined, as one outside the hull, or for the range
(`rowByRow_of_build`). One more cell is one step (`Counted.concat`); the rows are one after the other in the table because all are
of one length (`row_of_flatMap`).
-/

namespace DelaunaySurface

/-! ## Answers -/

namespace Interpolant

variable {α : Type} [Scalar α] {settings : BuildSettings α} {t : Triangulation} {s : Samples α}

/-- What an interpolant answers to points one after the other, each time with what it remembers of the ones before. -/
def answers (t : Triangulation) (s : Samples α) (margin : α) : Locator → List (Point α) → List (Option (α × Location))
  | _, [] => []
  | l, p :: rest => (value? t s margin l p).1 :: answers t s margin (value? t s margin l p).2 rest

/-- On a build every point is answered. -/
theorem exists_answers (h : Triangulation.build settings s = .ok t) (margin : α) (l : Locator) (points : List (Point α)) :
    ∃ cells : List (α × Location), answers t s margin l points = cells.map some ∧ cells.length = points.length := by
  induction points generalizing l with
  | nil => exact ⟨[], rfl, rfl⟩
  | cons p points ih =>
    obtain ⟨place, hplace, -⟩ := Locator.exists_locate? (p := p) h l
    obtain ⟨cells, hcells, hlength⟩ := ih (value? t s margin l p).2
    refine ⟨(heightAt t s margin p place, place) :: cells, ?_, congrArg (· + 1) hlength⟩
    have hvalue : (value? t s margin l p).1 = some (heightAt t s margin p place, place) := by
      change (l.locate? t s p).1.map _ = _
      rw [hplace]
      rfl
    rw [answers, hvalue, hcells, List.map_cons]

end Interpolant

namespace Raster

open Interpolant (answers value?)

/-- The answers of a fresh interpolant to the centres of the cells of a row, from left to right. -/
def rowAnswers {α : Type} [Scalar α] (t : Triangulation) (s : Samples α) (strategy : Strategy) (margin : α) (f : Frame α)
    (i : Nat) : List (Option (α × Location)) :=
  answers t s margin (Locator.fresh strategy none) ((List.range f.nx).map fun column => f.centre column i)

/-- Writes a row into a table. -/
def paint {α : Type} (f : Frame α) (row : Nat → List α) (values : Array α) (i : Nat) : Array α :=
  values.mapIdx fun k z => if k / f.nx = i then (row i).getD (k % f.nx) z else z

section Cells

variable {α : Type} [Scalar α] {settings : BuildSettings α} {t : Triangulation} {s : Samples α} {margin : α}

/-! ## Cells -/

/-- A cell as it is noted: its value, and whether it is outside the hull. -/
def noted (c : α × Location) : α × Bool := (c.1, c.2.isOutside)

theorem sweep?_eq {l : Locator} {points : List (Point α)} {cells : List (α × Location)}
    (h : answers t s margin l points = cells.map some) : sweep? t s margin l points = some (cells.map noted) := by
  induction points generalizing l cells with
  | nil =>
    obtain rfl : cells = [] := List.map_eq_nil_iff.1 h.symm
    rfl
  | cons p points ih =>
    obtain ⟨c, cells, rfl⟩ := List.exists_cons_of_ne_nil (l := cells) (by rintro rfl; cases h)
    obtain ⟨hfirst, hrest⟩ := List.cons.inj h
    rw [sweep?]
    rcases hvalue : value? t s margin l p with ⟨found, l'⟩
    rw [hvalue] at hfirst hrest
    obtain rfl : found = some c := hfirst
    dsimp only
    rw [ih hrest]
    rfl

/-- A raster is made of the answers for its rows, one row after the other. -/
theorem sample?_eq {strategy : Strategy} {f : Frame α} {cells : Nat → List (α × Location)}
    (h : ∀ i, rowAnswers t s strategy margin f i = (cells i).map some) :
    sample? t s strategy margin f = some (ofCells f (((List.range f.ny).flatMap cells).map noted)) := by
  have hrow : row? t s strategy margin f = fun i => pure ((cells i).map noted) := funext fun i => sweep?_eq (h i)
  rw [sample?, hrow, List.mapM_pure]
  change some (ofCells f _) = _
  rw [List.map_flatMap, List.flatMap_def]

theorem exists_cells (h : Triangulation.build settings s = .ok t) (strategy : Strategy) (margin : α) (f : Frame α) :
    ∃ cells : Nat → List (α × Location), ∀ i,
      rowAnswers t s strategy margin f i = (cells i).map some ∧ (cells i).length = f.nx := by
  have hrow : ∀ i, ∃ row : List (α × Location),
      rowAnswers t s strategy margin f i = row.map some ∧ row.length = f.nx := fun i => by
    obtain ⟨row, hrow, hlength⟩ := Interpolant.exists_answers h margin (Locator.fresh strategy none)
      ((List.range f.nx).map fun column => f.centre column i)
    exact ⟨row, hrow, by simpa using hlength⟩
  exact ⟨fun i => (hrow i).choose, fun i => (hrow i).choose_spec⟩

theorem ofCells_eq (f : Frame α) (cells : List (α × Bool)) :
    (ofCells f cells).frame = f ∧ (ofCells f cells).values = (cells.map (·.1)).toArray := by
  rw [ofCells]
  refine List.foldlRecOn cells _ (motive := fun r : Raster α => r.frame = f ∧ r.values = (cells.map (·.1)).toArray)
    ⟨rfl, rfl⟩ fun r hr c _ => ?_
  rw [note]
  split
  · exact hr
  · split <;> exact hr

theorem sum_length_rows {β : Type} {rows : Nat → List β} {n : Nat} (h : ∀ i, (rows i).length = n) (k : Nat) :
    (((List.range k).map rows).map List.length).sum = k * n := by
  have hconst : List.length ∘ rows = fun _ => n := funext h
  rw [List.map_map, hconst, List.map_const', List.sum_replicate, List.length_range, smul_eq_mul]

theorem length_flatMap_rows {β : Type} {rows : Nat → List β} {n : Nat} (h : ∀ i, (rows i).length = n) (k : Nat) :
    ((List.range k).flatMap rows).length = n * k := by
  rw [List.flatMap_def, List.length_flatten, sum_length_rows h, Nat.mul_comm]

/-- A grid over a surface has a raster with a value for each cell. -/
theorem exists_sample? (h : Triangulation.build settings s = .ok t) (strategy : Strategy) (margin : α) (f : Frame α) :
    ∃ r, sample? t s strategy margin f = some r ∧ r.frame = f ∧ r.values.size = f.cellCount := by
  obtain ⟨cells, hcells⟩ := exists_cells h strategy margin f
  obtain ⟨hframe, hvalues⟩ := ofCells_eq f (((List.range f.ny).flatMap cells).map noted)
  refine ⟨_, sample?_eq fun i => (hcells i).1, hframe, ?_⟩
  rw [hvalues, List.size_toArray, List.length_map, List.length_map, length_flatMap_rows fun i => (hcells i).2, Frame.cellCount]

end Cells

/-! ## Rows in a table -/

section Table

variable {α : Type} {f : Frame α} {rows : Nat → List α}

/-- Rows of one length stand one after the other in a table. -/
theorem row_of_flatMap {r : Raster α} (hframe : r.frame = f) (hvalues : r.values = ((List.range f.ny).flatMap rows).toArray)
    (hlength : ∀ i, (rows i).length = f.nx) {i : Nat} (hi : i < f.ny) : r.row i = rows i := by
  have hsum : ∀ k ≤ f.ny, (((List.range f.ny).map rows).map List.length |>.take k).sum = k * f.nx := fun k hk => by
    rw [← List.map_take, ← List.map_take, List.take_range, Nat.min_eq_left hk, sum_length_rows hlength]
  have hrow := List.drop_take_succ_flatten_eq_getElem ((List.range f.ny).map rows) i (by simpa using hi)
  rw [hsum i hi.le, hsum (i + 1) hi, List.getElem_map, List.getElem_range, ← List.flatMap_def] at hrow
  rw [row, hframe, hvalues, Array.toList_extract, List.extract_eq_take_drop, ← List.drop_take]
  exact hrow

/-- The place `k` of a table is in row `k / nx`. -/
theorem getElem?_row {r : Raster α} (hframe : r.frame = f) {k : Nat} (hk : k < f.nx * f.ny) :
    (r.row (k / f.nx))[k % f.nx]? = r.values[k]? := by
  have hnx : 0 < f.nx := Nat.pos_of_mul_pos_right (Nat.zero_lt_of_lt hk)
  have hmod := Nat.mod_lt k hnx
  have hplace : k / f.nx * f.nx + k % f.nx = k := Nat.div_add_mod' k f.nx
  rw [row, hframe, Array.getElem?_toList, Array.getElem?_extract, hplace]
  split
  · rfl
  · rw [Nat.succ_mul] at *
    exact (Array.getElem?_eq_none (by omega)).symm

theorem size_foldl_paint (order : List Nat) (values : Array α) : (order.foldl (paint f rows) values).size = values.size :=
  List.foldlRecOn order _ (motive := fun v : Array α => v.size = values.size) rfl fun _ hv _ _ => Array.size_mapIdx.trans hv

/-- Where a row has been written, its values are, and elsewhere those from before. -/
theorem getElem?_foldl_paint (hlength : ∀ i, (rows i).length = f.nx) (order : List Nat) {values : Array α}
    (hsize : values.size = f.nx * f.ny) {k : Nat} (hk : k < f.nx * f.ny) :
    (order.foldl (paint f rows) values)[k]? = if k / f.nx ∈ order then (rows (k / f.nx))[k % f.nx]? else values[k]? := by
  have hnx : 0 < f.nx := Nat.pos_of_mul_pos_right (Nat.zero_lt_of_lt hk)
  have hstep (values : Array α) (hsize : values.size = f.nx * f.ny) (i : Nat) :
      (paint f rows values i)[k]? = if k / f.nx = i then (rows i)[k % f.nx]? else values[k]? := by
    have hmod : k % f.nx < (rows i).length := (Nat.mod_lt k hnx).trans_eq (hlength i).symm
    rw [paint, Array.getElem?_mapIdx, Array.getElem?_eq_getElem (hsize ▸ hk), Option.map_some]
    split
    · rw [List.getD_eq_getElem _ _ hmod, List.getElem?_eq_getElem hmod]
    · rfl
  induction order generalizing values with
  | nil => rw [List.foldl_nil, if_neg List.not_mem_nil]
  | cons i order ih =>
    have hsize' : (paint f rows values i).size = f.nx * f.ny := Array.size_mapIdx.trans hsize
    rw [List.foldl_cons, ih hsize', hstep values hsize i]
    -- Once its row is written, a place keeps the value of that row, whatever is written later.
    by_cases hi : k / f.nx = i
    · rw [if_pos hi, if_pos (List.mem_cons.2 (.inl hi)), ← hi, ite_self]
    · simp only [List.mem_cons, hi, false_or, if_false]

/-- Written in any order, rows make the same table. -/
theorem foldl_paint_eq {r : Raster α} (hframe : r.frame = f) (hsize : r.values.size = f.nx * f.ny)
    (hrow : ∀ i < f.ny, r.row i = rows i) (hlength : ∀ i, (rows i).length = f.nx) {order : List Nat}
    (horder : order.Perm (List.range f.ny)) {values : Array α} (hvalues : values.size = f.nx * f.ny) :
    order.foldl (paint f rows) values = r.values := by
  refine Array.ext_getElem? fun k => ?_
  by_cases hk : k < f.nx * f.ny
  · have hi : k / f.nx < f.ny := Nat.div_lt_of_lt_mul hk
    rw [getElem?_foldl_paint hlength order hvalues hk, if_pos (horder.mem_iff.2 (List.mem_range.2 hi)), ← hrow _ hi,
      getElem?_row hframe hk]
  · rw [Array.getElem?_eq_none (by rw [size_foldl_paint]; omega), Array.getElem?_eq_none (by omega)]

end Table

/-! ## Counts and range -/

/-- A number of a list that comes before all in it; none of no numbers. -/
def IsFirst {α : Type} (before : α → α → Prop) (vs : List α) : Option α → Prop
  | none => vs = []
  | some v => v ∈ vs ∧ ∀ w ∈ vs, before v w

/-- One more number, of which the one that comes before the other is picked. -/
theorem IsFirst.concat {α : Type} {before : α → α → Prop} {pick : α → α → α} {vs : List α} {best : Option α} {v : α}
    (h : IsFirst before vs best) (hrefl : before v v) (htrans : ∀ {a b c}, before a b → before b c → before a c)
    (hpick : ∀ b ∈ vs, (pick b v = b ∨ pick b v = v) ∧ before (pick b v) b ∧ before (pick b v) v) :
    IsFirst before (vs ++ [v]) (some (best.elim v (pick · v))) := by
  cases best with
  | none =>
    obtain rfl : vs = [] := h
    exact ⟨List.mem_cons_self, List.forall_mem_singleton.2 hrefl⟩
  | some b =>
    obtain ⟨hmem, hfirst⟩ := h
    obtain ⟨hone, hb, hv⟩ := hpick b hmem
    refine ⟨?_, List.forall_mem_append.2 ⟨fun w hw => htrans hb (hfirst w hw), List.forall_mem_singleton.2 hv⟩⟩
    change pick b v ∈ vs ++ [v]
    rcases hone with hone | hone <;> rw [hone]
    · exact List.mem_append_left _ hmem
    · exact List.mem_append_right _ (List.mem_singleton_self v)

section Counts

variable {α : Type} [Scalar α]

/-- The values of the cells that are neither undefined nor outside the hull. -/
def surfaceValues (cells : List (α × Location)) : List α :=
  (cells.filter fun c => !Scalar.isUndefined c.1 && !c.2.isOutside).map (·.1)

/-- Each cell counts once: as undefined, as outside the hull, or for the range. -/
structure Counted (cells : List (α × Location)) (r : Raster α) : Prop where
  undefinedCells : r.undefinedCells = cells.countP fun c => Scalar.isUndefined c.1
  marginCells : r.marginCells = cells.countP fun c => !Scalar.isUndefined c.1 && c.2.isOutside
  least : IsFirst (· ≤ ·) (surfaceValues cells) r.least
  greatest : IsFirst (fun a b => b ≤ a) (surfaceValues cells) r.greatest
  leastPositive : IsFirst (· ≤ ·) ((surfaceValues cells).filter fun v => 0 < v) r.leastPositive

theorem surfaceValues_concat (cells : List (α × Location)) (c : α × Location) : surfaceValues (cells ++ [c]) =
    surfaceValues cells ++ if !Scalar.isUndefined c.1 && !c.2.isOutside then [c.1] else [] := by
  rw [surfaceValues, List.filter_append, List.map_append, List.filter_singleton]
  cases !Scalar.isUndefined c.1 && !c.2.isOutside <;> rfl

theorem defined_of_mem {cells : List (α × Location)} {v : α} (hv : v ∈ surfaceValues cells) : Scalar.isUndefined v = false := by
  obtain ⟨c, hc, rfl⟩ := List.mem_map.1 hv
  have := (List.mem_filter.1 hc).2
  rw [Bool.and_eq_true, Bool.not_eq_true'] at this
  exact this.1

/-- The three numbers are those of all cells. -/
theorem Counted.total {cells : List (α × Location)} {r : Raster α} (h : Counted cells r) :
    r.marginCells + r.undefinedCells + (surfaceValues cells).length = cells.length := by
  rw [h.marginCells, h.undefinedCells, surfaceValues, List.length_map, ← List.countP_eq_length_filter]
  clear h
  induction cells with
  | nil => rfl
  | cons c cells ih =>
    rw [List.countP_cons, List.countP_cons, List.countP_cons, List.length_cons, ← ih]
    cases Scalar.isUndefined c.1 <;> cases c.2.isOutside <;> simp <;> omega

section Note

variable (h : Scalar.DefinedOrder α) {cells : List (α × Location)} {r : Raster α}

include h

/-- One more cell. -/
theorem Counted.concat (hr : Counted cells r) (c : α × Location) : Counted (cells ++ [c]) (r.note c.1 c.2.isOutside) := by
  rw [note]
  by_cases hundefined : Scalar.isUndefined c.1 = true
  · -- An undefined cell.
    rw [if_pos hundefined]
    have hvalues : surfaceValues (cells ++ [c]) = surfaceValues cells := by
      simp [surfaceValues_concat, hundefined]
    refine ⟨?_, ?_, hvalues ▸ hr.least, hvalues ▸ hr.greatest, hvalues ▸ hr.leastPositive⟩
    · simp [hr.undefinedCells, hundefined]
    · simp [hr.marginCells, hundefined]
  rw [Bool.not_eq_true] at hundefined
  rw [if_neg (Bool.eq_false_iff.1 hundefined)]
  by_cases houtside : c.2.isOutside = true
  · -- A cell outside the hull.
    rw [if_pos houtside]
    have hvalues : surfaceValues (cells ++ [c]) = surfaceValues cells := by
      simp [surfaceValues_concat, houtside]
    refine ⟨?_, ?_, hvalues ▸ hr.least, hvalues ▸ hr.greatest, hvalues ▸ hr.leastPositive⟩
    · simp [hr.undefinedCells, hundefined]
    · simp [hr.marginCells, hundefined, houtside]
  rw [Bool.not_eq_true] at houtside
  -- A cell of the surface takes part in the range.
  rw [if_neg (Bool.eq_false_iff.1 houtside)]
  have hvalues : surfaceValues (cells ++ [c]) = surfaceValues cells ++ [c.1] := by
    simp [surfaceValues_concat, hundefined, houtside]
  refine ⟨?_, ?_, ?_, ?_, ?_⟩
  · simp [hr.undefinedCells, hundefined]
  · simp [hr.marginCells, houtside]
  · rw [hvalues]
    exact hr.least.concat (h.refl hundefined) h.trans fun b hb => h.lesser_spec (defined_of_mem hb) hundefined
  · rw [hvalues]
    exact hr.greatest.concat (h.refl hundefined) (fun hab hbc => h.trans hbc hab) fun b hb =>
      h.greater_spec (defined_of_mem hb) hundefined
  · rw [hvalues, List.filter_append, List.filter_singleton]
    by_cases hpos : 0 < c.1
    · simp only [hpos, decide_true, if_true, cond_true]
      exact hr.leastPositive.concat (h.refl hundefined) h.trans fun b hb =>
        h.lesser_spec (defined_of_mem (List.mem_filter.1 hb).1) hundefined
    · simp only [hpos, decide_false, if_false, cond_false, List.append_nil]
      exact hr.leastPositive

theorem counted_ofCells (f : Frame α) (cells : List (α × Location)) : Counted cells (ofCells f (cells.map noted)) := by
  rw [ofCells, List.foldl_map]
  generalize hstart : ({ blank f with values := _, undefinedCells := 0 } : Raster α) = start
  have hnone : Counted [] start := by
    subst hstart
    exact ⟨rfl, rfl, rfl, rfl, rfl⟩
  clear hstart
  induction cells using List.reverseRecOn with
  | nil => exact hnone
  | append_singleton cells c ih =>
    rw [List.foldl_concat]
    exact ih.concat h c

end Note

end Counts

/-! ## Rasters of surfaces -/

/-- A raster whose rows are made one by one, of the given cells. -/
structure RowByRow (t : Triangulation) (s : Samples Float) (strategy : Strategy) (margin : Float) (f : Frame Float)
    (cells : Nat → List (Float × Location)) (r : Raster Float) : Prop where
  frame : r.frame = f
  size : r.values.size = f.nx * f.ny
  /-- A row holds what a fresh interpolant answers to the centres of its cells. -/
  row : ∀ i < f.ny, rowAnswers t s strategy margin f i = (cells i).map some ∧ r.row i = (cells i).map (·.1)
  /-- The rows can be written in any order. -/
  anyOrder : ∀ order : List Nat, order.Perm (List.range f.ny) →
    order.foldl (paint f fun i => (cells i).map (·.1)) (blank f).values = r.values
  counted : Counted ((List.range f.ny).flatMap cells) r
  total : r.marginCells + r.undefinedCells + (surfaceValues ((List.range f.ny).flatMap cells)).length = f.nx * f.ny

/-- On a build, a raster of doubles is made row by row, whatever the values outside the hull. -/
theorem rowByRow_of_build {settings : BuildSettings Float} {t : Triangulation} {s : Samples Float}
    (h : Triangulation.build settings s = .ok t) (strategy : Strategy) (margin : Float) (f : Frame Float) :
    ∃ r cells, sample? t s strategy margin f = some r ∧ RowByRow t s strategy margin f cells r := by
  obtain ⟨cells, hcells⟩ := exists_cells h strategy margin f
  set all := (List.range f.ny).flatMap cells with hall
  have hlength : ∀ i, (cells i).length = f.nx := fun i => (hcells i).2
  have hrows : ∀ i, ((cells i).map (·.1)).length = f.nx := fun i => List.length_map _ |>.trans (hlength i)
  obtain ⟨hframe, hvalues⟩ := ofCells_eq f (all.map noted)
  have hflat : (all.map noted).map (·.1) = (List.range f.ny).flatMap fun i => (cells i).map (·.1) := by
    rw [List.map_map, hall, List.map_flatMap]
    rfl
  rw [hflat] at hvalues
  have hsize : (ofCells f (all.map noted)).values.size = f.nx * f.ny := by
    rw [hvalues, List.size_toArray, length_flatMap_rows hrows]
  have hrow : ∀ i < f.ny, (ofCells f (all.map noted)).row i = (cells i).map (·.1) := fun i hi =>
    row_of_flatMap hframe hvalues hrows hi
  have hcounted := counted_ofCells Double.definedOrder_float f all
  refine ⟨_, cells, sample?_eq fun i => (hcells i).1, hframe, hsize, fun i hi => ⟨(hcells i).1, hrow i hi⟩, ?_, hcounted, ?_⟩
  · exact fun order horder => foldl_paint_eq hframe hsize hrow hrows horder Array.size_replicate
  · rw [hcounted.total, length_flatMap_rows hlength]

/-- Two rows of three cells across the hull. -/
def dentedField : Frame Float := ⟨0, 1000000000, 3, 0, 1000000000, 2⟩

/-- With an undefined value outside the hull, the three cells there count as undefined. -/
theorem rowByRow_of_build_dented : Triangulation.build .standard Triangulation.dented = .ok Triangulation.dentedTables ∧
    ∃ r cells, RowByRow Triangulation.dentedTables Triangulation.dented .walk Scalar.undefined dentedField cells r ∧
      r.undefinedCells = 3 ∧ r.marginCells = 0 := by
  obtain ⟨r, cells, hr, hrows⟩ := rowByRow_of_build Triangulation.build_dented .walk Scalar.undefined dentedField
  have hcounts : (sample? Triangulation.dentedTables Triangulation.dented .walk Scalar.undefined dentedField).map
      (fun r => (r.undefinedCells, r.marginCells)) = some (3, 0) := by decide +kernel
  rw [hr, Option.map_some, Option.some.injEq, Prod.mk.injEq] at hcounts
  exact ⟨Triangulation.build_dented, r, cells, hrows, hcounts⟩

end Raster

end DelaunaySurface
