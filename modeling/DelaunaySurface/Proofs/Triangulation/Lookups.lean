import DelaunaySurface.Proofs.Triangulation.Range
/-!
# Locating with every lookup checked

The searches of a locator once more, with each number that is looked up in a table checked for an entry: a search without
one has no result. On the tables of a build every search has its result, and it is that of the locator (`locate?_eq`).
-/

namespace DelaunaySurface

variable {α : Type} [Scalar α]

/-- The place of a sample that there is. -/
def Samples.point? (s : Samples α) (i : Nat) : Option (Point α) := do
  let x ← s.xs[i]?
  let y ← s.ys[i]?
  return ⟨x, y⟩

theorem Samples.point?_eq {s : Samples α} {i : Nat} (hi : i < s.size) : s.point? i = some (s.point i) := by
  have hy : i < s.ys.size := by rw [s.ys_size]; exact hi
  rw [Samples.point?, Array.getElem?_eq_getElem hi, Array.getElem?_eq_getElem hy, Samples.point,
    Array.getD_eq_getD_getElem?, Array.getD_eq_getD_getElem?, Array.getElem?_eq_getElem hi, Array.getElem?_eq_getElem hy]
  rfl

namespace Locator.Checked

variable (t : Triangulation) (s : Samples α) (p : Point α)

/-! ## The searches -/

/-- The corners of a triangle that there is. -/
def corners? (i : Nat) : Option (Triple (Point α)) := do
  let c ← t.triangles[i]?
  let a ← s.point? c.fst
  let b ← s.point? c.snd
  let c ← s.point? c.trd
  return ⟨a, b, c⟩

/-- The first side of a triangle that has the point beyond it, by its opposite corner. -/
def exitOf (c : Triple (Point α)) : Option (Fin 3) :=
  Triple.indices.find? fun k => cross (c.get (Triple.next k)) (c.get (Triple.previous k)) p < 0

def depthIn (c : Triple (Point α)) : α :=
  Scalar.lesser (Scalar.lesser (cross c.fst c.snd p) (cross c.snd c.trd p)) (cross c.trd c.fst p)

def walkFrom? : Nat → Nat → Option WalkEnd
  | 0, _ => some .givenUp
  | steps + 1, i => do
    let c ← corners? t s i
    match exitOf p c with
    | none => return .arrived i
    | some k =>
      let across ← t.neighbours[i]?
      match across.get k with
      | some next => walkFrom? steps next
      | none => return .left i

def distance? (e : Edge) : Option α := do
  let a ← s.point? e.low
  let b ← s.point? e.high
  return segmentDistanceSq p a b

def outside? : Option Location :=
  match t.hullEdges with
  | [] => none
  | e :: rest => do
    let d ← distance? s p e
    let nearest ← rest.foldlM (fun best f => do
      let d ← distance? s p f
      return if d < best.2 then (f, d) else best) (e, d)
    return .outside nearest.1

/-- A hull side by its number, the last one back to the first sample. -/
def hullSide? (n : Nat) : Option (Point α × Point α) := do
  let i ← t.hull[n]?
  let j ← t.hull[(n + 1) % t.hull.length]?
  let a ← s.point? i
  let b ← s.point? j
  return (a, b)

def beyondHull? : Option Bool := do
  let sides ← (List.range t.hull.length).mapM (hullSide? t s)
  return sides.any fun (a, b) => cross a b p < 0

def scanFrom? (best : Option (Nat × α)) : List Nat → Option (Scan α)
  | [] => some (.best best)
  | i :: rest => do
    let c ← corners? t s i
    let d := depthIn p c
    if 0 ≤ d then return .holds i
    else scanFrom? (if best.all (·.2 < d) then some (i, d) else best) rest

def scan? : Option Location := do
  match ← scanFrom? t s p none (List.range t.size) with
  | .holds i => return .inside i
  | .best found =>
    if ← beyondHull? t s p then outside? t s p
    else match found with
      | some (i, _) => return .inside i
      | none => outside? t s p

def walk? (l : Locator) : Option (Location × Locator) := do
  match ← walkFrom? t s p (t.size + 1) (start t l.hint) with
  | .arrived i => return (.inside i, l)
  | .left i => return (← outside? t s p, { l with hint := some i })
  | .givenUp => return (← scan? t s p, { l with fallbacks := l.fallbacks + 1 })

def locate? (l : Locator) : Option (Location × Locator) := do
  let (place, l) ← match l.strategy with
    | .walk => walk? t s p l
    | .scan => (scan? t s p).map (·, l)
  match place with
  | .inside i => return (place, { l with hint := some i })
  | .outside _ => return (place, l)

/-! ## No lookup fails -/

variable {t s p}

theorem foldlM_eq_some {β γ : Type} {l : List β} {f : γ → β → Option γ} {g : γ → β → γ}
    (h : ∀ b ∈ l, ∀ a, f a b = some (g a b)) (a : γ) : l.foldlM f a = some (l.foldl g a) := by
  induction l generalizing a with
  | nil => rfl
  | cons b l ih =>
    rw [List.foldlM_cons, h b List.mem_cons_self, List.foldl_cons]
    exact ih (fun b' hb' => h b' (List.mem_cons_of_mem _ hb')) _

/-- Looking through a list by the places in it. -/
theorem mapM_range_eq_some {β γ : Type} {l : List β} {f : Nat → Option γ} {g : β → γ}
    (h : ∀ n b, l[n]? = some b → f n = some (g b)) : (List.range l.length).mapM f = some (l.map g) := by
  induction l using List.reverseRecOn with
  | nil => rfl
  | append_singleton l b ih =>
    have hlast : f l.length = some (g b) := h _ _ List.getElem?_concat_length
    have hinit := ih fun n c hn => h n c (List.getElem?_append_left (List.getElem?_eq_some_iff.1 hn).1 ▸ hn)
    rw [List.length_append, List.length_singleton, List.range_succ, List.mapM_append, hinit, List.map_append]
    simp only [List.mapM_cons, List.mapM_nil, hlast]
    rfl

/-- The pairs around a list, by the places of their members. -/
theorem getElem?_of_cyclicPairs {β : Type} {l : List β} {n : Nat} {e : β × β}
    (h : (Triangulation.cyclicPairs l)[n]? = some e) : l[n]? = some e.1 ∧ l[(n + 1) % l.length]? = some e.2 := by
  cases l with
  | nil => cases h
  | cons a rest =>
    obtain ⟨hfirst, hsecond⟩ := List.getElem?_zip_eq_some.1 h
    refine ⟨hfirst, ?_⟩
    rw [List.length_cons]
    have hn : n < rest.length + 1 := (List.getElem?_eq_some_iff.1 hfirst).1
    rcases Nat.lt_succ_iff_lt_or_eq.1 hn with hlt | rfl
    · rw [Nat.mod_eq_of_lt (Nat.succ_lt_succ hlt), List.getElem?_cons_succ]
      rwa [List.getElem?_append_left hlt] at hsecond
    · rw [Nat.mod_self]
      rwa [List.getElem?_concat_length] at hsecond

theorem corners?_eq (h : t.InRange s.size) {i : Nat} (hi : i < t.size) :
    corners? t s i = some ((t.triangle i).points s) := by
  have htriangle : t.triangles[i]? = some (t.triangle i) := by
    rw [Triangulation.triangle, Array.getD_eq_getD_getElem?, Array.getElem?_eq_getElem hi]
    rfl
  have hfst : s.point? (t.triangle i).fst = some (s.point (t.triangle i).fst) := Samples.point?_eq (h.corner i 0)
  have hsnd : s.point? (t.triangle i).snd = some (s.point (t.triangle i).snd) := Samples.point?_eq (h.corner i 1)
  have htrd : s.point? (t.triangle i).trd = some (s.point (t.triangle i).trd) := Samples.point?_eq (h.corner i 2)
  simp only [corners?, htriangle, Option.bind_eq_bind, Option.bind_some, hfst, hsnd, htrd]
  rfl

theorem walkFrom?_eq (h : t.InRange s.size) (steps : Nat) {i : Nat} (hi : i < t.size) :
    walkFrom? t s p steps i = some (walkFrom t s p steps i) := by
  induction steps generalizing i with
  | zero => rfl
  | succ steps ih =>
    have hacross : t.neighbours[i]? = some (t.neighbours.getD i ⟨none, none, none⟩) := by
      have hi' : i < t.neighbours.size := by rw [h.neighbours_size]; exact hi
      rw [Array.getD_eq_getD_getElem?, Array.getElem?_eq_getElem hi']
      rfl
    have hexit : exitOf p ((t.triangle i).points s) = exit? t s p i := rfl
    rw [walkFrom?, walkFrom, corners?_eq h hi]
    simp only [Option.bind_eq_bind, Option.bind_some, hexit, hacross]
    cases exit? t s p i with
    | none => rfl
    | some k =>
      have hneighbour : (t.neighbours.getD i ⟨none, none, none⟩).get k = t.neighbour? i k := rfl
      simp only [hneighbour]
      cases hnext : t.neighbour? i k with
      | none => rfl
      | some j => exact ih (h.neighbour i k j hi hnext)

theorem outside?_eq (h : t.InRange s.size) : outside? t s p = Locator.outside? t s p := by
  have hdistance : ∀ e ∈ t.hullEdges, distance? s p e = some (segmentDistanceSq p (s.point e.low) (s.point e.high)) := by
    intro e he
    obtain ⟨hlow, hhigh⟩ := h.hullEdge e he
    simp only [distance?, Samples.point?_eq hlow, Samples.point?_eq hhigh, Option.bind_eq_bind, Option.bind_some]
    rfl
  rw [outside?, Locator.outside?, nearestEdge?]
  cases hedges : t.hullEdges with
  | nil => rfl
  | cons e rest =>
    rw [hedges] at hdistance
    have hstep : ∀ f ∈ rest, ∀ best : Edge × α, (do
        let d ← distance? s p f
        return if d < best.2 then (f, d) else best) = some (if segmentDistanceSq p (s.point f.low) (s.point f.high) < best.2 then
          (f, segmentDistanceSq p (s.point f.low) (s.point f.high)) else best) := by
      intro f hf best
      rw [hdistance f (List.mem_cons_of_mem _ hf)]
      rfl
    dsimp only
    rw [hdistance e List.mem_cons_self]
    exact congrArg (fun best : Option (Edge × α) => best.bind fun nearest => some (Location.outside nearest.1))
      (foldlM_eq_some hstep (e, segmentDistanceSq p (s.point e.low) (s.point e.high)))

theorem hullSide?_eq (h : t.InRange s.size) {n : Nat} {e : Nat × Nat} (he : t.hullSides[n]? = some e) :
    hullSide? t s n = some (s.point e.1, s.point e.2) := by
  obtain ⟨hfirst, hsecond⟩ := getElem?_of_cyclicPairs he
  obtain ⟨h1, h2⟩ := h.hullSide e (List.mem_of_getElem? he)
  simp only [hullSide?, hfirst, hsecond, Option.bind_eq_bind, Option.bind_some, Samples.point?_eq h1, Samples.point?_eq h2]
  rfl

theorem beyondHull?_eq (h : t.InRange s.size) : beyondHull? t s p = some (beyondHull t s p) := by
  have hsides := mapM_range_eq_some fun n e he => hullSide?_eq h (n := n) he
  rw [Triangulation.hullSides, Triangulation.length_cyclicPairs] at hsides
  rw [beyondHull?, hsides, beyondHull, Triangulation.hullSides]
  simp only [Option.bind_eq_bind, Option.bind_some, List.any_map]
  rfl

theorem scanFrom?_eq (h : t.InRange s.size) {l : List Nat} (hl : ∀ i ∈ l, i < t.size) (best : Option (Nat × α)) :
    scanFrom? t s p best l = some (scanFrom t s p best l) := by
  induction l generalizing best with
  | nil => rfl
  | cons i rest ih =>
    have hdepth : depthIn p ((t.triangle i).points s) = depth t s p i := rfl
    rw [scanFrom?, scanFrom_cons, corners?_eq h (hl i List.mem_cons_self)]
    simp only [Option.bind_eq_bind, Option.bind_some, hdepth]
    split
    · rfl
    · exact ih (fun j hj => hl j (List.mem_cons_of_mem _ hj)) _

theorem scan?_eq (h : t.InRange s.size) : scan? t s p = Locator.scan? t s p := by
  rw [scan?, Locator.scan?, scanFrom?_eq h fun i => List.mem_range.1]
  simp only [Option.bind_eq_bind, Option.bind_some, beyondHull?_eq h, outside?_eq h]
  cases scanFrom t s p none (List.range t.size) with
  | holds i => rfl
  | best found =>
    dsimp only
    split
    · rfl
    · cases found <;> rfl

theorem walk?_eq (h : t.InRange s.size) (l : Locator) :
    walk? t s p l = (l.walk? t s p).1.map (·, (l.walk? t s p).2) := by
  rw [walk?, Locator.walk?, walkFrom?_eq h _ (start_lt h.size_pos l.hint)]
  simp only [Option.bind_eq_bind, Option.bind_some, scan?_eq h, outside?_eq h]
  cases walkFrom t s p (t.size + 1) (start t l.hint) with
  | arrived i => rfl
  | left i => cases Locator.outside? t s p <;> rfl
  | givenUp => cases Locator.scan? t s p <;> rfl

/-- On tables in range no lookup of a locator fails: if the checked search has a result, it is that of the locator. -/
theorem locate?_eq (h : t.InRange s.size) (l : Locator) :
    locate? t s p l = (l.locate? t s p).1.map (·, (l.locate? t s p).2) := by
  rw [locate?, Locator.locate?]
  cases l.strategy with
  | walk =>
    dsimp only
    rw [walk?_eq h]
    cases (l.walk? t s p).1 with
    | none => rfl
    | some place => cases place <;> rfl
  | scan =>
    dsimp only
    rw [scan?_eq h]
    cases Locator.scan? t s p with
    | none => rfl
    | some place => cases place <;> rfl

end Locator.Checked

end DelaunaySurface
