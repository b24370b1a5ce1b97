import DelaunaySurface.Locator
import DelaunaySurface.Proofs.Triangulation.Coherence
/-!
# Walks and scans

What the two searches come back with. A triangle they name is one of the triangulation, so what a
locator remembers can be used again as long as the triangulation stays.
-/

namespace DelaunaySurface

variable {α : Type} [Scalar α] {t : Triangulation} {s : Samples α} {p : Point α}

namespace Triangulation

theorem Coherent.neighbour_lt (h : t.Coherent) {i j : Nat} {k : Fin 3} (hi : i < t.size)
    (hn : t.neighbour? i k = some j) : j < t.size :=
  ((h.neighbour_iff i k j hi).1 hn).1

/-- Across an edge of a build lies one of its triangles. -/
theorem neighbour_lt_of_build {settings : BuildSettings α} (h : build settings s = .ok t) {i j : Nat} {k : Fin 3}
    (hi : i < t.size) (hn : t.neighbour? i k = some j) : j < t.size := by
  obtain ⟨m, hm, rfl⟩ := build_eq_ok.1 h
  exact (coherent_of_mesh hm).neighbour_lt hi hn

/-- A build that succeeds has a triangle: the one the mesh remembers. -/
theorem size_pos_of_build {settings : BuildSettings α} (h : build settings s = .ok t) : 0 < t.size := by
  obtain ⟨m, hm, rfl⟩ := build_eq_ok.1 h
  obtain ⟨sites, hsurface, -⟩ := closedSurface_of_mesh hm
  rw [size_ofMesh]
  exact List.length_pos_of_mem (Mesh.mem_triangleSlots.2 ⟨hsurface.hint_live, hsurface.hint_bounded⟩)

end Triangulation

namespace Locator

/-! ## Scans -/

/-- One step of a scan. -/
theorem scanFrom_cons (best : Option (Nat × α)) (i : Nat) (rest : List Nat) :
    scanFrom t s p best (i :: rest) = if 0 ≤ depth t s p i then .holds i
      else scanFrom t s p (if best.all (·.2 < depth t s p i) then some (i, depth t s p i) else best) rest := by
  cases best <;> rfl

theorem scanFrom_holds {l : List Nat} {best : Option (Nat × α)} {i : Nat} (h : scanFrom t s p best l = .holds i) :
    i ∈ l ∧ 0 ≤ depth t s p i := by
  induction l generalizing best with
  | nil => cases h
  | cons j l ih =>
    rw [scanFrom_cons] at h
    split at h
    · cases h
      exact ⟨List.mem_cons_self, ‹_›⟩
    · exact (ih h).imp_left (List.mem_cons_of_mem _)

/-- Without a triangle that holds the point, a scan comes back with one that it has seen. -/
theorem scanFrom_best {l : List Nat} {best found : Option (Nat × α)} (h : scanFrom t s p best l = .best found) :
    (∀ i ∈ l, ¬0 ≤ depth t s p i) ∧ (∀ b ∈ found, b ∈ best ∨ b.1 ∈ l) ∧ (best.isSome ∨ l ≠ [] → found.isSome) := by
  induction l generalizing best with
  | nil =>
    cases h
    exact ⟨nofun, fun b hb => .inl hb, fun h => h.resolve_right (· rfl)⟩
  | cons j l ih =>
    rw [scanFrom_cons] at h
    split at h
    · cases h
    · rename_i hj
      obtain ⟨hdepth, hseen, hsome⟩ := ih h
      refine ⟨List.forall_mem_cons.2 ⟨hj, hdepth⟩, fun b hb => ?_, fun _ => hsome (.inl ?_)⟩
      · rcases hseen b hb with hb | hb
        · split at hb
          · cases hb
            exact .inr List.mem_cons_self
          · exact .inl hb
        · exact .inr (List.mem_cons_of_mem _ hb)
      · cases best with
        | none => rfl
        | some known => split <;> rfl

/-! ## Walks -/

theorem start_lt (ht : 0 < t.size) (hint : Option Nat) : start t hint < t.size := by
  rw [start]
  cases hf : hint.filter (· < t.size) with
  | none => exact ht
  | some i => exact of_decide_eq_true (Option.filter_eq_some_iff.1 hf).2

/-- Where a walk can end: in a triangle with the point beyond none of its edges, or at a hull edge with the point
beyond it. -/
def WalkEnd.Fits (t : Triangulation) (s : Samples α) (p : Point α) : WalkEnd → Prop
  | .arrived i => i < t.size ∧ exit? t s p i = none
  | .left i => i < t.size ∧ ∃ k, exit? t s p i = some k ∧ t.neighbour? i k = none
  | .givenUp => True

theorem walkFrom_fits (ht : ∀ {i j k}, i < t.size → t.neighbour? i k = some j → j < t.size) (steps : Nat) {i : Nat}
    (hi : i < t.size) : (walkFrom t s p steps i).Fits t s p := by
  induction steps generalizing i with
  | zero => trivial
  | succ steps ih =>
    rw [walkFrom]
    split
    · exact ⟨hi, ‹_›⟩
    · split
      · exact ih (ht hi ‹_›)
      · exact ⟨hi, _, ‹_›, ‹_›⟩

theorem start_some {i : Nat} (hi : i < t.size) : start t (some i) = i := by
  simp only [start, Option.filter_some, hi, decide_true, if_true, Option.getD_some]

/-- A walk from a triangle with the point beyond none of its edges stays there, -/
theorem walkFrom_arrived {i : Nat} (hexit : exit? t s p i = none) (steps : Nat) :
    walkFrom t s p (steps + 1) i = .arrived i := by
  rw [walkFrom, hexit]

/-- and so does one from a triangle that it would leave across the hull. -/
theorem walkFrom_left {i : Nat} {k : Fin 3} (hexit : exit? t s p i = some k) (hnone : t.neighbour? i k = none) (steps : Nat) :
    walkFrom t s p (steps + 1) i = .left i := by
  simp only [walkFrom, hexit, hnone]

/-! ## Locating -/

/-- The search of a strategy, before its triangle is remembered. -/
def search? (l : Locator) (t : Triangulation) (s : Samples α) (p : Point α) : Option Location × Locator :=
  match l.strategy with
  | .walk => l.walk? t s p
  | .scan => (scan? t s p, l)

theorem locate?_fst (l : Locator) : (l.locate? t s p).1 = (l.search? t s p).1 := by
  rw [locate?, search?]
  dsimp only
  split <;> rfl

/-- A walk answers by where it ends; one that is given up is finished by a scan. -/
theorem walk?_fst (l : Locator) : (l.walk? t s p).1 =
    match walkFrom t s p (t.size + 1) (start t l.hint) with
    | .arrived i => some (.inside i)
    | .left _ => outside? t s p
    | .givenUp => scan? t s p := by
  rw [walk?]
  cases walkFrom t s p (t.size + 1) (start t l.hint) <;> rfl

/-- A walk ends in a triangle that has the point beyond none of its edges, at a hull edge that has the point beyond it, or with
a scan. -/
theorem walk?_cases (ht : ∀ {i j k}, i < t.size → t.neighbour? i k = some j → j < t.size) (hsize : 0 < t.size) (l : Locator) :
    (∃ i < t.size, exit? t s p i = none ∧ (l.walk? t s p).1 = some (.inside i)) ∨
    (∃ i < t.size, ∃ k, exit? t s p i = some k ∧ t.neighbour? i k = none ∧ (l.walk? t s p).1 = outside? t s p) ∨
    (l.walk? t s p).1 = scan? t s p := by
  have hwalk := walkFrom_fits (s := s) (p := p) ht (t.size + 1) (start_lt hsize l.hint)
  rw [walk?_fst]
  cases hend : walkFrom t s p (t.size + 1) (start t l.hint) with
  | arrived i =>
    rw [hend] at hwalk
    exact .inl ⟨i, hwalk.1, hwalk.2, rfl⟩
  | left i =>
    rw [hend] at hwalk
    obtain ⟨hi, k, hexit, hnone⟩ := hwalk
    exact .inr (.inl ⟨i, hi, k, hexit, hnone, rfl⟩)
  | givenUp => exact .inr (.inr rfl)

theorem locate?_walk (hint : Option Nat) : ((fresh .walk hint).locate? t s p).1 =
    match walkFrom t s p (t.size + 1) (start t hint) with
    | .arrived i => some (.inside i)
    | .left _ => outside? t s p
    | .givenUp => scan? t s p :=
  (locate?_fst _).trans (walk?_fst _)

theorem locate?_scan (hint : Option Nat) : ((fresh .scan hint).locate? t s p).1 = scan? t s p :=
  locate?_fst _

/-- What is remembered is the triangle that was found, or what the search left. -/
theorem hint_locate? (l : Locator) {i : Nat} (h : (l.locate? t s p).2.hint = some i) :
    (l.search? t s p).1 = some (.inside i) ∨ (l.search? t s p).2.hint = some i := by
  rw [locate?] at h
  rw [search?]
  cases hs : l.strategy with
  | walk =>
    simp only [hs] at h ⊢
    split at h
    · exact .inl (Option.some.inj h ▸ ‹_›)
    · exact .inr h
  | scan =>
    simp only [hs] at h ⊢
    split at h
    · exact .inl (Option.some.inj h ▸ ‹_›)
    · exact .inr h

theorem not_inside_outside? {i : Nat} : outside? t s p ≠ some (.inside i) := by
  rw [outside?, ne_eq, Option.map_eq_some_iff]
  rintro ⟨e, -, h⟩
  cases h

theorem lt_of_scan? {i : Nat} (h : scan? t s p = some (.inside i)) : i < t.size := by
  rw [scan?] at h
  split at h
  · cases h
    exact List.mem_range.1 (scanFrom_holds ‹_›).1
  · rename_i found hfound
    split at h
    · exact absurd h not_inside_outside?
    · split at h
      · cases h
        exact List.mem_range.1 (((scanFrom_best hfound).2.1 _ rfl).resolve_left nofun)
      · exact absurd h not_inside_outside?

/-- A search names triangles only, and so does what it leaves to remember. -/
theorem search?_lt (ht : ∀ {i j k}, i < t.size → t.neighbour? i k = some j → j < t.size) (hsize : 0 < t.size) {l : Locator}
    (hl : ∀ i ∈ l.hint, i < t.size) {i : Nat}
    (h : (l.search? t s p).1 = some (.inside i) ∨ (l.search? t s p).2.hint = some i) : i < t.size := by
  have hwalk := walkFrom_fits (s := s) (p := p) ht (t.size + 1) (start_lt hsize l.hint)
  rw [search?] at h
  split at h
  · rw [walk?] at h
    split at h
    · rename_i hend
      rw [hend] at hwalk
      rcases h with h | h
      · cases h
        exact hwalk.1
      · exact hl i h
    · rename_i hend
      rw [hend] at hwalk
      rcases h with h | h
      · exact absurd h not_inside_outside?
      · cases h
        exact hwalk.1
    · exact h.elim lt_of_scan? (hl i)
  · exact h.elim lt_of_scan? (hl i)

/-- A locator that remembers a triangle of the triangulation, or nothing, still does so after any search. -/
theorem hint_lt (ht : ∀ {i j k}, i < t.size → t.neighbour? i k = some j → j < t.size) (hsize : 0 < t.size) {l : Locator}
    (hl : ∀ i ∈ l.hint, i < t.size) :
    ∀ i ∈ (l.locate? t s p).2.hint, i < t.size :=
  fun _ hi => search?_lt ht hsize hl (hint_locate? l hi)

end Locator

end DelaunaySurface
