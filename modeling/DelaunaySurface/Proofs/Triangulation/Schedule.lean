import DelaunaySurface.Proofs.Mesh.Insertion
import DelaunaySurface.Triangulation.Build
/-!
# The order of insertion

The seed and the samples inserted after it are all samples, each once. With this the mesh of a build
is a closed surface at any time (`closedSurface_of_run`).
-/

namespace DelaunaySurface

namespace Schedule

variable {α : Type} [Scalar α] {s : Samples α} {tol : Tolerance α}

/-! ## Validation -/

theorem firstTwins?_eq_none {l : List Nat} (hn : l.Nodup)
    (h : ∀ i ∈ l, ∀ j ∈ l, i ≠ j → (s.point i).same (s.point j) = false) : firstTwins? s l = none := by
  induction l with
  | nil => rfl
  | cons i l ih =>
    obtain ⟨hi, hn⟩ := List.nodup_cons.1 hn
    cases l with
    | nil => rfl
    | cons j rest =>
      have hij : i ≠ j := by rintro rfl; exact hi (by simp)
      rw [firstTwins?, h i (by simp) j (by simp) hij]
      exact ih hn fun a ha b hb => h a (List.mem_cons_of_mem _ ha) b (List.mem_cons_of_mem _ hb)

theorem validate_ok_iff : validate s = .ok () ↔ notFinite? s = none ∧ 3 ≤ s.size ∧ twins? s = none := by
  rw [validate]
  cases notFinite? s with
  | some i => simp
  | none =>
    by_cases hsize : s.size < 3
    · simp [hsize, not_le.2 hsize]
    · cases twins? s <;> simp [hsize, not_lt.1 hsize]

/-- Three samples or more are accepted when they are finite and no two are at one place. -/
theorem validate_eq_ok (hf : notFinite? s = none) (hsize : 3 ≤ s.size)
    (h : ∀ i < s.size, ∀ j < s.size, i ≠ j → (s.point i).same (s.point j) = false) : validate s = .ok () := by
  have htwins : twins? s = none := by
    refine firstTwins?_eq_none ((List.mergeSort_perm _ _).nodup_iff.2 List.nodup_range) fun i hi j hj => ?_
    rw [List.mem_mergeSort, List.mem_range] at hi hj
    exact h i hi j hj
  exact validate_ok_iff.2 ⟨hf, hsize, htwins⟩

theorem validate_ne_budgetExceeded {budget : Nat} : validate s ≠ .error (.budgetExceeded budget) := by
  unfold validate
  repeat' split
  all_goals nofun

/-- Samples are sorted by every key that is compared as they are. -/
theorem sorted_of_key {β : Type} [LinearOrder β] {le : Nat → Nat → Bool} {key : Nat → β}
    (h : ∀ i j, le i j = true ↔ key i ≤ key j) (l : List Nat) :
    (l.mergeSort le).Pairwise fun i j => key i ≤ key j := by
  refine (List.pairwise_mergeSort (fun i j k => ?_) (fun i j => ?_) l).imp (h _ _).1
  · rw [h, h, h]
    exact le_trans
  · rw [Bool.or_eq_true, h, h]
    exact le_total _ _

/-- A key that tells samples apart puts them in a strict order. -/
theorem strictly_sorted_of_key {β : Type} [LinearOrder β] {le : Nat → Nat → Bool} {key : Nat → β}
    (h : ∀ i j, le i j = true ↔ key i ≤ key j) (hkey : Function.Injective key) {l : List Nat} (hl : l.Nodup) :
    (l.mergeSort le).Pairwise fun i j => key i < key j := by
  have hnodup : (l.mergeSort le).Nodup := (List.mergeSort_perm l le).nodup_iff.2 hl
  exact ((sorted_of_key h l).and hnodup).imp fun ⟨hij, hne⟩ => hij.lt_of_ne fun e => hne (hkey e)

/-! ## Order and seed -/

theorem order_eq {around : Rectangle α} {keys : List Key} (hbounds : s.bounds = .ok around)
    (hkeys : (List.range s.size).map (key s around) = keys) : order s = (keys.mergeSort Key.le).map (·.index) := by
  rw [order, hbounds]
  simp only [hkeys]

theorem order_perm (s : Samples α) : (order s).Perm (List.range s.size) := by
  unfold order
  split
  · exact List.Perm.refl _
  · rename_i around _
    refine ((List.mergeSort_perm _ _).map Key.index).trans ?_
    rw [List.map_map]
    exact List.Perm.of_eq (List.map_id _)

theorem exists_first_two (hsize : 2 ≤ s.size) : ∃ a b rest, order s = a :: b :: rest ∧ (a :: b :: rest).Nodup ∧
    ∀ i, i ∈ a :: b :: rest ↔ i < s.size := by
  have hperm := order_perm s
  have hlength : (order s).length = s.size := by rw [hperm.length_eq, List.length_range]
  match hl : order s with
  | [] => rw [hl, List.length_nil] at hlength; omega
  | [a] => rw [hl, List.length_singleton] at hlength; omega
  | a :: b :: rest =>
    rw [hl] at hperm
    exact ⟨a, b, rest, rfl, hperm.nodup_iff.2 List.nodup_range, fun i => hperm.mem_iff.trans List.mem_range⟩

/-- The first sample out of line is taken out of the list. The triangle has it where the turn says. -/
theorem firstTriangle?_cases {a b : Nat} {l others : List Nat} {first : Triple Nat}
    (h : firstTriangle? tol s a b l = some (first, others)) :
    ∃ inLine c rest, l = inLine ++ c :: rest ∧ others = inLine ++ rest ∧
      (first = ⟨a, b, c⟩ ∧ turn tol (s.point a) (s.point b) (s.point c) = .left ∨
        first = ⟨a, c, b⟩ ∧ turn tol (s.point a) (s.point b) (s.point c) = .right) := by
  unfold firstTriangle? at h
  simp only [List.span_eq_takeWhile_dropWhile] at h
  split at h
  · cases h
  · rename_i inLine c rest e
    obtain ⟨hinLine, hrest⟩ := Prod.mk.inj e
    have hc := List.head_dropWhile_not (l := l) (fun c => decide (turn tol (s.point a) (s.point b) (s.point c) = .straight))
      (by rw [hrest]; exact List.cons_ne_nil _ _)
    simp only [hrest, List.head_cons, decide_eq_false_iff_not] at hc
    cases h
    refine ⟨inLine, c, rest, ?_, rfl, ?_⟩
    · rw [← hinLine, ← hrest, List.takeWhile_append_dropWhile]
    · split
      · exact .inl ⟨rfl, ‹_›⟩
      · rename_i hleft
        refine .inr ⟨rfl, ?_⟩
        cases hturn : turn tol (s.point a) (s.point b) (s.point c) with
        | left => exact absurd hturn hleft
        | right => rfl
        | straight => exact absurd hturn hc

theorem firstTriangle?_perm {a b : Nat} {l others : List Nat} {first : Triple Nat}
    (h : firstTriangle? tol s a b l = some (first, others)) : (first.toList ++ others).Perm (a :: b :: l) := by
  obtain ⟨inLine, c, rest, rfl, rfl, hfirst⟩ := firstTriangle?_cases h
  have hbc : (c :: (inLine ++ rest)).Perm (inLine ++ c :: rest) := List.perm_middle.symm
  obtain ⟨rfl, -⟩ | ⟨rfl, -⟩ := hfirst
  · exact (hbc.cons b).cons a
  · exact ((List.Perm.swap b c _).trans (hbc.cons b)).cons a

theorem seed_eq_ok {l others : List Nat} {first : Triple Nat} : seed tol s l = .ok (first, others) ↔
    ∃ a b rest, l = a :: b :: rest ∧ firstTriangle? tol s a b rest = some (first, others) := by
  unfold seed
  split
  · rename_i a b rest
    cases hfirst : firstTriangle? tol s a b rest with
    | some found => simp [hfirst]
    | none => simp [hfirst]
  · rename_i hl
    exact ⟨nofun, fun ⟨a, b, rest, e, _⟩ => (hl a b rest e).elim⟩

theorem seed_perm {l others : List Nat} {first : Triple Nat} (h : seed tol s l = .ok (first, others)) :
    (first.toList ++ others).Perm l := by
  obtain ⟨a, b, rest, rfl, hfirst⟩ := seed_eq_ok.1 h
  exact firstTriangle?_perm hfirst

/-- What the seed leaves stays in its order. -/
theorem seed_sublist {l others : List Nat} {first : Triple Nat} (h : seed tol s l = .ok (first, others)) :
    others.Sublist l := by
  obtain ⟨a, b, rest, rfl, hfirst⟩ := seed_eq_ok.1 h
  obtain ⟨inLine, c, rest, rfl, rfl, -⟩ := firstTriangle?_cases hfirst
  have hrest : (inLine ++ rest).Sublist (inLine ++ c :: rest) := (List.sublist_cons_self c rest).append_left inLine
  exact (hrest.cons b).cons a

theorem firstTriangle?_eq_none_iff {a b : Nat} {l : List Nat} :
    firstTriangle? tol s a b l = none ↔ ∀ c ∈ l, turn tol (s.point a) (s.point b) (s.point c) = .straight := by
  unfold firstTriangle?
  simp only [List.span_eq_takeWhile_dropWhile]
  split
  · rename_i e
    refine iff_of_true rfl fun c hc => ?_
    exact of_decide_eq_true (List.dropWhile_eq_nil_iff.1 (Prod.mk.inj e).2 c hc)
  · rename_i inLine c rest e
    refine iff_of_false nofun fun hall => ?_
    have hnil := List.dropWhile_eq_nil_iff.2 fun c hc => decide_eq_true (hall c hc)
    exact absurd ((Prod.mk.inj e).2.symm.trans hnil) (List.cons_ne_nil _ _)

/-- The samples of the first triangle are taken in the order in which they turn left, as seen from the first. -/
theorem turn_firstTriangle?_cases {a b : Nat} {l others : List Nat} {first : Triple Nat}
    (h : firstTriangle? tol s a b l = some (first, others)) :
    turn tol (s.point first.fst) (s.point first.snd) (s.point first.trd) = .left ∨
      turn tol (s.point first.fst) (s.point first.trd) (s.point first.snd) = .right := by
  obtain ⟨inLine, c, rest, -, -, ⟨rfl, hturn⟩ | ⟨rfl, hturn⟩⟩ := firstTriangle?_cases h
  · exact .inl hturn
  · exact .inr hturn

theorem turn_seed_cases {l others : List Nat} {first : Triple Nat} (h : seed tol s l = .ok (first, others)) :
    turn tol (s.point first.fst) (s.point first.snd) (s.point first.trd) = .left ∨
      turn tol (s.point first.fst) (s.point first.trd) (s.point first.snd) = .right := by
  obtain ⟨a, b, rest, -, hfirst⟩ := seed_eq_ok.1 h
  exact turn_firstTriangle?_cases hfirst

theorem seed_error {l : List Nat} {e : Failure} (h : seed tol s l = .error e) : e = .collinear := by
  unfold seed at h
  split at h
  · split at h
    · cases h
    · cases h
      rfl
  · cases h
    rfl

/-- The points of the seed and the others are the samples, each once. -/
theorem schedule_perm {first : Triple Nat} {others : List Nat} (h : seed tol s (order s) = .ok (first, others)) :
    (first.toList ++ others).Perm (List.range s.size) :=
  (seed_perm h).trans (order_perm s)

theorem schedule_nodup {first : Triple Nat} {others : List Nat} (h : seed tol s (order s) = .ok (first, others)) :
    (first.toList ++ others).Nodup :=
  (schedule_perm h).nodup_iff.2 List.nodup_range

theorem lt_of_mem_schedule {first : Triple Nat} {others : List Nat} (h : seed tol s (order s) = .ok (first, others))
    {i : Nat} (hi : i ∈ first.toList ++ others) : i < s.size :=
  List.mem_range.1 ((schedule_perm h).mem_iff.1 hi)

theorem closedSurface_seed {first : Triple Nat} {others : List Nat} (h : seed tol s (order s) = .ok (first, others)) :
    (Mesh.seed first).ClosedSurface first.toList := by
  have hn := (List.nodup_append.1 (schedule_nodup h)).1
  obtain ⟨a, b, c⟩ := first
  simp only [Triple.toList, List.nodup_cons, List.mem_cons, List.not_mem_nil, or_false, not_or] at hn
  exact Mesh.closedSurface_seed hn.1.1 hn.2.1 hn.1.2

end Schedule

namespace Triangulation

variable {α : Type} [Scalar α]

/-- What a build that succeeds went through. -/
theorem mesh_eq_ok {settings : BuildSettings α} {s : Samples α} {m : Mesh} : mesh settings s = .ok m ↔
    Schedule.validate s = .ok () ∧ ∃ first others, Schedule.seed settings.tolerance s (Schedule.order s) = .ok (first, others) ∧
      (Mesh.seed first).insertAll settings.budget (verdicts settings.tolerance s) others = .ok m := by
  simp only [mesh, bind_eq_ok]
  constructor
  · rintro ⟨_, hv, ⟨first, others⟩, hs, hm⟩
    exact ⟨hv, first, others, hs, hm⟩
  · rintro ⟨hv, first, others, hs, hm⟩
    exact ⟨(), hv, (first, others), hs, hm⟩

theorem build_eq_ok {settings : BuildSettings α} {s : Samples α} {t : Triangulation} :
    build settings s = .ok t ↔ ∃ m, mesh settings s = .ok m ∧ ofMesh s.size m = t := by
  rw [build]
  cases mesh settings s with
  | error => exact ⟨nofun, nofun⟩
  | ok m => exact ⟨fun h => ⟨m, rfl, Except.ok.inj h⟩, fun ⟨_, h, e⟩ => by cases h; exact congrArg _ e⟩

theorem build_eq_error {settings : BuildSettings α} {s : Samples α} {e : Failure} :
    build settings s = .error e ↔ mesh settings s = .error e := by
  rw [build]
  cases mesh settings s with
  | error e' => simp [Except.map]
  | ok m => simp [Except.map]

/-- What a build fails with: what its samples are refused for, that they are all in line, or what an insertion fails
with. -/
theorem build_error {settings : BuildSettings α} {s : Samples α} {e : Failure} (h : build settings s = .error e) :
    Schedule.validate s = .error e ∨ e = .collinear ∨ (∃ i, e = .inconsistent i) ∨ e = .budgetExceeded settings.budget := by
  rw [build_eq_error, mesh, bind_eq_error] at h
  rcases h with hv | ⟨-, -, hrun⟩
  · exact .inl hv
  · rcases bind_eq_error.1 hrun with hs | ⟨found, -, hm⟩
    · exact .inr (.inl (Schedule.seed_error hs))
    · exact .inr (.inr ((Mesh.insertAll_error hm).imp_left fun ⟨i, _, e⟩ => ⟨i, e⟩))

theorem closedSurface_of_mesh {settings : BuildSettings α} {s : Samples α} {m : Mesh} (h : mesh settings s = .ok m) :
    ∃ sites, m.ClosedSurface sites ∧ sites.Perm (List.range s.size) := by
  obtain ⟨-, first, others, hs, hm⟩ := mesh_eq_ok.1 h
  exact ⟨_, (Schedule.closedSurface_seed hs).insertAll (Schedule.schedule_nodup hs) hm, Schedule.schedule_perm hs⟩

/-- Four corners and a point between them, with exact coordinates. -/
def kite : Samples Rat := .ofList [⟨0, 0, 0⟩, ⟨4, 0, 0⟩, ⟨0, 4, 0⟩, ⟨5, 5, 0⟩, ⟨2, 3, 0⟩]

theorem exists_of_any {ε β : Type} {x : Except ε β} {p : β → Bool} (h : x.toOption.any p = true) :
    ∃ b, x = .ok b ∧ p b = true := by
  cases x with
  | error => cases h
  | ok b => exact ⟨b, rfl, h⟩

theorem exists_of_isOk {ε β : Type} {x : Except ε β} (h : x.isOk = true) : ∃ b, x = .ok b := by
  cases x with
  | error => cases h
  | ok b => exact ⟨b, rfl⟩

theorem build_kite : ∃ t, build ⟨100, ⟨0⟩⟩ kite = .ok t := exists_of_isOk (by cbv)

/-- At any time of a build, whatever its tolerance and budget and whatever the geometry answers, the mesh
is a closed surface over the samples inserted so far. -/
theorem closedSurface_of_run {s : Samples α} {tol : Tolerance α} {first : Triple Nat} {done rest : List Nat}
    {budget : Nat} {v : Nat → Verdicts} {m : Mesh}
    (hs : Schedule.seed tol s (Schedule.order s) = .ok (first, done ++ rest))
    (hm : (Mesh.seed first).insertAll budget v done = .ok m) :
    m.ClosedSurface (first.toList ++ done) ∧ ∀ i ∈ first.toList ++ done, i < s.size := by
  have hn := Schedule.schedule_nodup hs
  rw [← List.append_assoc] at hn
  refine ⟨(Schedule.closedSurface_seed hs).insertAll (List.nodup_append.1 hn).1 hm, fun i hi => ?_⟩
  exact Schedule.lt_of_mem_schedule hs (by rw [← List.append_assoc]; exact List.mem_append_left _ hi)

theorem closedSurface_of_run_kite : Schedule.seed ⟨0⟩ kite (Schedule.order kite) = .ok (⟨0, 1, 3⟩, [2] ++ [4]) ∧
    ∃ m, (Mesh.seed ⟨0, 1, 3⟩).insertAll 100 (verdicts ⟨0⟩ kite) [2] = .ok m ∧ m.ClosedSurface ([0, 1, 3] ++ [2]) := by
  have hs : Schedule.seed ⟨0⟩ kite (Schedule.order kite) = .ok (⟨0, 1, 3⟩, [2] ++ [4]) := by cbv
  obtain ⟨m, hm⟩ : ∃ m, (Mesh.seed ⟨0, 1, 3⟩).insertAll 100 (verdicts ⟨0⟩ kite) [2] = .ok m :=
    exists_of_isOk (by decide +kernel)
  exact ⟨hs, m, hm, (closedSurface_of_run hs hm).1⟩

end Triangulation

end DelaunaySurface
