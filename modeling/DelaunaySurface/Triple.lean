/-!
# Triples

Three values of one kind, one for each corner of a triangle. Corners are numbered by `Fin 3` and
follow one another cyclically.
-/

namespace DelaunaySurface

/-- One value for each corner of a triangle. -/
structure Triple (α : Type) where
  fst : α
  snd : α
  trd : α
  deriving DecidableEq, Repr, Inhabited

namespace Triple

variable {α β : Type}

def get (t : Triple α) : Fin 3 → α
  | 0 => t.fst
  | 1 => t.snd
  | 2 => t.trd

def set (t : Triple α) (k : Fin 3) (a : α) : Triple α :=
  match k with
  | 0 => { t with fst := a }
  | 1 => { t with snd := a }
  | 2 => { t with trd := a }

def map (f : α → β) (t : Triple α) : Triple β :=
  ⟨f t.fst, f t.snd, f t.trd⟩

/-- The three values in the order of the corners. -/
def toList (t : Triple α) : List α :=
  [t.fst, t.snd, t.trd]

instance : Membership α (Triple α) where
  mem t a := a ∈ t.toList

instance [DecidableEq α] (a : α) (t : Triple α) : Decidable (a ∈ t) :=
  inferInstanceAs (Decidable (a ∈ t.toList))

def indices : List (Fin 3) := [0, 1, 2]

/-- The corner after corner `k`. -/
def next : Fin 3 → Fin 3
  | 0 => 1
  | 1 => 2
  | 2 => 0

/-- The corner before corner `k`. -/
def previous : Fin 3 → Fin 3
  | 0 => 2
  | 1 => 0
  | 2 => 1

theorem get_map (f : α → β) (t : Triple α) (k : Fin 3) : (t.map f).get k = f (t.get k) := by
  match k with
  | 0 => rfl
  | 1 => rfl
  | 2 => rfl

theorem get_set (t : Triple α) (k j : Fin 3) (a : α) :
    (t.set k a).get j = if j = k then a else t.get j := by
  match k, j with
  | 0, 0 => rfl
  | 0, 1 => rfl
  | 0, 2 => rfl
  | 1, 0 => rfl
  | 1, 1 => rfl
  | 1, 2 => rfl
  | 2, 0 => rfl
  | 2, 1 => rfl
  | 2, 2 => rfl

theorem mem_iff (a : α) (t : Triple α) : a ∈ t ↔ ∃ k, t.get k = a := by
  constructor
  · intro h
    change a ∈ [t.fst, t.snd, t.trd] at h
    simp only [List.mem_cons, List.not_mem_nil, or_false] at h
    rcases h with rfl | rfl | rfl
    · exact ⟨0, rfl⟩
    · exact ⟨1, rfl⟩
    · exact ⟨2, rfl⟩
  · rintro ⟨k, rfl⟩
    change t.get k ∈ [t.fst, t.snd, t.trd]
    match k with
    | 0 => simp [get]
    | 1 => simp [get]
    | 2 => simp [get]

end Triple

end DelaunaySurface
