import DelaunaySurface.Proofs.Mesh.Ring
/-!
# Insertion

An insertion that succeeds cuts out a patch and fills it, so a run of insertions keeps the surface
closed. The cavity of an insertion is given a name of its own, `cavity`, for what is said about it
elsewhere.
-/

namespace DelaunaySurface

theorem bind_eq_ok {ε α β : Type} {x : Except ε α} {f : α → Except ε β} {b : β} :
    x >>= f = .ok b ↔ ∃ a, x = .ok a ∧ f a = .ok b := by
  cases x with
  | error e => exact ⟨nofun, nofun⟩
  | ok a => exact ⟨fun h => ⟨a, rfl, h⟩, fun ⟨a', ha, h⟩ => by cases ha; exact h⟩

theorem bind_eq_error {ε α β : Type} {x : Except ε α} {f : α → Except ε β} {e : ε} :
    x >>= f = .error e ↔ x = .error e ∨ ∃ a, x = .ok a ∧ f a = .error e := by
  cases x with
  | error e' => exact ⟨fun h => .inl (by cases h; rfl), fun h => h.elim (fun h => by cases h; rfl) nofun⟩
  | ok a => exact ⟨fun h => .inr ⟨a, rfl, h⟩, fun h => h.elim nofun fun ⟨a', ha, h⟩ => by cases ha; exact h⟩

theorem bind_congr_ok {ε α β : Type} {x : Except ε α} {f g : α → Except ε β} (h : ∀ a, x = .ok a → f a = g a) :
    x >>= f = x >>= g := by
  cases x with
  | error e => rfl
  | ok a => exact h a rfl

namespace Mesh

variable {m n : Mesh} {sites : List Nat} {v : Verdicts} {budget i : Nat} {c : Cavity}

/-! ## The cell to begin with -/

@[simp] theorem locate_cells (m : Mesh) (v : Verdicts) : (m.locate v).1.cells = m.cells := by
  unfold locate; split <;> rfl

@[simp] theorem locate_free (m : Mesh) (v : Verdicts) : (m.locate v).1.free = m.free := by
  unfold locate; split <;> rfl

@[simp] theorem locate_mark (m : Mesh) (v : Verdicts) : (m.locate v).1.mark = m.mark := by
  unfold locate; split <;> rfl

@[simp] theorem locate_stamp (m : Mesh) (v : Verdicts) : (m.locate v).1.stamp = m.stamp := by
  unfold locate; split <;> rfl

@[simp] theorem locate_hint (m : Mesh) (v : Verdicts) : (m.locate v).1.hint = m.hint := by
  unfold locate; split <;> rfl

theorem locate_repairs (m : Mesh) (v : Verdicts) : (m.locate v).1.tally.repairs = m.tally.repairs := by
  unfold locate; split <;> rfl

theorem ClosedSurface.live_walk (h : m.ClosedSurface sites) {steps t u : Nat} (ht : m.Live t)
    (hw : m.walk v steps t = some u) : m.Live u := by
  fun_induction walk m v steps t with
  | case1 => cases hw
  | case2 t steps c hb k hk ih => exact ih (h.live_behind ht k) hw
  | case3 => cases hw; exact ht
  | case4 => cases hw; exact ht

theorem outerConflict?_spec {t : Nat} (h : m.outerConflict? v = some t) :
    m.Live t ∧ (m.cell t).bounded = false ∧ m.conflicts v t = true := by
  have := List.find?_some h
  simp only [Bool.and_eq_true, Bool.not_eq_true'] at this
  exact ⟨this.1.1, this.1.2, this.2⟩

theorem live_search {t : Nat} (h : m.search? v = some t) : m.Live t := by
  rw [search?, Option.orElse_eq_orElse, Option.orElse_eq_or, Option.or_eq_some_iff] at h
  rcases h with h | ⟨-, h⟩
  · have := List.find?_some h
    simp only [Bool.and_eq_true] at this
    exact this.1.1
  · exact (outerConflict?_spec h).1

theorem ClosedSurface.live_locate (h : m.ClosedSurface sites) {t : Nat} (ht : (m.locate v).2 = some t) : m.Live t := by
  unfold locate at ht
  split at ht
  · rename_i hw
    cases ht
    exact h.live_walk h.hint_live hw
  · exact live_search ht

theorem ClosedSurface.live_start (h : m.ClosedSurface sites) {t : Nat} (ht : m.start? v (m.locate v).2 = some t) :
    m.Live t := by
  rw [start?, Option.orElse_eq_orElse, Option.orElse_eq_or, Option.or_eq_some_iff] at ht
  rcases ht with ht | ⟨-, ht⟩
  · exact h.live_locate (Option.eq_some_of_filter_eq_some ht)
  · exact (outerConflict?_spec ht).1

/-! ## The cavity -/

/-- The mesh with the point located and the next insertion begun. -/
def opened (m : Mesh) (v : Verdicts) : Mesh :=
  { (m.locate v).1 with stamp := (m.locate v).1.stamp + 1 }

/-- The cavity of the insertion of the point `i`, with the view from the point cleared. -/
def cavity (m : Mesh) (budget : Nat) (v : Verdicts) (i : Nat) : Except Failure Cavity :=
  match m.start? v (m.locate v).2 with
  | none => .error (.inconsistent i)
  | some start => (m.opened v).conflictRegion v budget start >>= (m.opened v).clearView v budget

/-- The mesh with a cavity charged, ready to be filled. -/
def charged (m : Mesh) (v : Verdicts) (c : Cavity) : Mesh :=
  { m.opened v with
    mark := c.mark
    tally := { (m.opened v).tally with
      operations := c.operations
      largest := max (m.opened v).tally.largest (c.operations - (m.opened v).tally.operations)
      repairs := (m.opened v).tally.repairs + c.repairs } }

/-- An insertion makes its cavity and fills it. -/
theorem insert_eq (m : Mesh) (budget : Nat) (v : Verdicts) (i : Nat) : m.insert budget v i =
    m.cavity budget v i >>= fun c =>
      if closesUp ((m.opened v).rim c) && ((m.opened v).rim c).any finite then
        .ok ((m.charged v c).fill i c.members.toList ((m.opened v).rim c))
      else .error (.inconsistent i) := by
  have hs : (m.locate v).1.start? v (m.locate v).2 = m.start? v (m.locate v).2 := by
    unfold locate; split <;> rfl
  unfold insert cavity
  simp only [hs]
  cases m.start? v (m.locate v).2 with
  | none => rfl
  | some start =>
    simp only [opened]
    cases conflictRegion _ v budget start with
    | error e => rfl
    | ok c =>
      simp only [bind, Except.bind]
      cases clearView _ v budget c <;> rfl

@[simp] theorem opened_cells (m : Mesh) (v : Verdicts) : (m.opened v).cells = m.cells := locate_cells m v

theorem cell_opened (m : Mesh) (v : Verdicts) (t : Nat) : (m.opened v).cell t = m.cell t := by
  simp only [cell, opened_cells]

theorem rimOf_opened (m : Mesh) (v : Verdicts) (l : List Nat) : (m.opened v).rimOf l = m.rimOf l := by
  simp only [rimOf, side, behind, cell_opened]

theorem cell_charged (m : Mesh) (v : Verdicts) (c : Cavity) (t : Nat) : (m.charged v c).cell t = m.cell t :=
  cell_opened m v t

/-- Marks and counts have no part in the surface, apart from the bound on marks. -/
theorem ClosedSurface.congr (h : m.ClosedSurface sites) (hc : n.cells = m.cells) (hf : n.free = m.free)
    (hh : n.hint = m.hint) (hs : n.mark.size = n.cells.size) (hm : ∀ t, n.mark.getD t 0 ≤ n.stamp) :
    n.ClosedSurface sites := by
  obtain ⟨cells, free, mark, stamp, hint, tally⟩ := n
  subst hc hf hh
  exact { h with mark_size := hs, mark_le := hm }

/-- What filling does is told by the cells alone. -/
theorem Filled.congr {m' : Mesh} {l : List Nat} {rim : List RimSide} {blades : List Blade}
    (h : m.Filled l rim i blades n) (hc : m'.cells = m.cells) : m'.Filled l rim i blades n := by
  obtain ⟨cells, free, mark, stamp, hint, tally⟩ := m'
  subst hc
  exact { h with }

theorem ClosedSurface.opened (h : m.ClosedSurface sites) (v : Verdicts) : (m.opened v).ClosedSurface sites :=
  h.congr (by simp) (locate_free m v) (locate_hint m v) (by simp [Mesh.opened, h.mark_size]) fun t => by
    simpa [Mesh.opened] using (h.mark_le t).trans (Nat.le_succ _)

theorem ClosedSurface.mark_opened (h : m.ClosedSurface sites) (v : Verdicts) (t : Nat) :
    (m.opened v).mark.getD t 0 < (m.opened v).stamp := by
  simpa [Mesh.opened] using Nat.lt_succ_of_le (h.mark_le t)

theorem ClosedSurface.cut_of_cavity (h : m.ClosedSurface sites) (hc : m.cavity budget v i = .ok c) :
    (m.opened v).Cut c ∧ ∀ s ∈ m.rimOf c.members.toList, v.blocked s.side = false := by
  unfold cavity at hc
  split at hc
  · cases hc
  · rename_i start hstart
    obtain ⟨c₀, hr, hv⟩ := bind_eq_ok.1 hc
    have hlive : (m.opened v).Live start := by rw [Live, cell_opened]; exact h.live_start hstart
    have hcut := conflictRegion_cut (h.opened v) (h.mark_opened v) hlive hr
    obtain ⟨hcut, hsee⟩ := clearView_cut (h.opened v) hcut hv
    rw [rim_eq hcut, rimOf_opened] at hsee
    exact ⟨hcut, hsee⟩

theorem Patch.of_opened {l : List Nat} (h : (m.opened v).Patch l) : m.Patch l := by
  induction h with
  | start ht =>
    rw [Live, cell_opened] at ht
    exact .start ht
  | extend _ ht hk ih =>
    rw [behind, cell_opened] at hk ⊢
    exact ih.extend ht hk

/-- A cavity is a patch. -/
theorem ClosedSurface.patch_of_cavity (h : m.ClosedSurface sites) (hc : m.cavity budget v i = .ok c) :
    m.Patch c.members.toList := (h.cut_of_cavity hc).1.patch.of_opened

theorem ClosedSurface.rim_of_cavity (h : m.ClosedSurface sites) (hc : m.cavity budget v i = .ok c) :
    (m.opened v).rim c = m.rimOf c.members.toList := by
  rw [rim_eq (h.cut_of_cavity hc).1, rimOf_opened]

/-! ## One insertion -/

/-- What an insertion that succeeds does to the surface. -/
theorem ClosedSurface.surgery (h : m.ClosedSurface sites) (hi : i ∉ sites) (hok : m.insert budget v i = .ok n) :
    ∃ c blades, m.cavity budget v i = .ok c ∧ Surgery m sites c.members.toList i blades n ∧
      (∀ t, n.mark.getD t 0 ≤ n.stamp) ∧ n.tally.repairs = m.tally.repairs + c.repairs := by
  rw [insert_eq] at hok
  obtain ⟨c, hc, hok⟩ := bind_eq_ok.1 hok
  obtain ⟨hcut, -⟩ := h.cut_of_cavity hc
  rw [h.rim_of_cavity hc] at hok
  split at hok
  · rename_i hrim
    cases hok
    rw [Bool.and_eq_true, closesUp_iff] at hrim
    have hpatch := hcut.patch
    have hopen := h.opened v
    have hlive : ∀ t ∈ c.members.toList, (m.charged v c).Live t :=
      fun t ht => hpatch.live hopen t ht
    have hsides : ((m.rimOf c.members.toList).map (·.side)).Nodup :=
      List.Nodup.of_map Side.tail (by simpa only [List.map_map, Function.comp_def] using hrim.1.tails)
    have hout : ∀ s ∈ m.rimOf c.members.toList, (m.charged v c).Live s.outside ∧ s.outside ∉ c.members.toList := by
      intro s hs
      rw [← rimOf_opened m v] at hs
      obtain ⟨t, ht, k, hk, rfl⟩ := mem_rimOf.1 hs
      exact ⟨hopen.live_behind (hpatch.live hopen t ht) k, hk⟩
    have hslots : (m.charged v c).Slots := ⟨hopen.free_nodup, hopen.mem_free, hcut.mark_size⟩
    obtain ⟨blades, hfilled⟩ := fill_filled (i := i) hslots hopen.proper hpatch.nodup hlive hsides hout hrim.2
    refine ⟨c, blades, hc, ⟨h, fun t ht => ?_, hi, hrim.1, hfilled.congr (opened_cells m v).symm⟩, fun t => ?_, ?_⟩
    · have := hlive t ht
      rwa [Live, cell_charged] at this
    · rw [mark_fill, stamp_fill]
      exact hcut.mark_le t
    · rw [tally_fill]
      exact congrArg (· + c.repairs) (locate_repairs m v)
  · cases hok

/-- An insertion of a new point keeps a closed surface closed, whatever the verdicts are. -/
theorem ClosedSurface.insert (h : m.ClosedSurface sites) (hi : i ∉ sites) (hok : m.insert budget v i = .ok n) :
    n.ClosedSurface (sites ++ [i]) := by
  obtain ⟨c, blades, -, hs, hm, -⟩ := h.surgery hi hok
  exact hs.closedSurface hm

/-- What an insertion fails with. -/
theorem insert_error {e : Failure} (h : m.insert budget v i = .error e) :
    e = .inconsistent i ∨ e = .budgetExceeded budget := by
  rw [insert_eq, bind_eq_error] at h
  rcases h with h | ⟨c, -, h⟩
  · unfold cavity at h
    split at h
    · cases h
      exact .inl rfl
    · rcases bind_eq_error.1 h with h | ⟨c, -, h⟩
      · exact .inr (conflictRegion_error h)
      · exact .inr (clearView_error h)
  · split at h
    · cases h
    · cases h
      exact .inl rfl

/-! ## A run of insertions -/

theorem insertAll_cons (m : Mesh) (budget : Nat) (v : Nat → Verdicts) (i : Nat) (rest : List Nat) :
    m.insertAll budget v (i :: rest) = m.insert budget (v i) i >>= fun n => n.insertAll budget v rest :=
  List.foldlM_cons

theorem insertAll_concat {v : Nat → Verdicts} {points : List Nat} :
    m.insertAll budget v (points ++ [i]) = .ok n ↔
      ∃ m', m.insertAll budget v points = .ok m' ∧ m'.insert budget (v i) i = .ok n := by
  simp only [insertAll, List.foldlM_append, bind_eq_ok, List.foldlM_cons, List.foldlM_nil]
  constructor
  · rintro ⟨m', h, n', hn, e⟩
    cases e
    exact ⟨m', h, hn⟩
  · rintro ⟨m', h, hn⟩
    exact ⟨m', h, n, hn, rfl⟩

/-- What a run of insertions fails with. -/
theorem insertAll_error {v : Nat → Verdicts} {points : List Nat} {e : Failure}
    (h : m.insertAll budget v points = .error e) : (∃ i ∈ points, e = .inconsistent i) ∨ e = .budgetExceeded budget := by
  induction points generalizing m with
  | nil => cases h
  | cons i rest ih =>
    rw [insertAll_cons] at h
    rcases bind_eq_error.1 h with h | ⟨n, -, h⟩
    · exact (insert_error h).imp_left fun e => ⟨i, List.mem_cons_self, e⟩
    · exact (ih h).imp_left fun ⟨j, hj, e⟩ => ⟨j, List.mem_cons_of_mem _ hj, e⟩

/-- Insertions of new points keep a closed surface closed, whatever the verdicts are. -/
theorem ClosedSurface.insertAll (h : m.ClosedSurface sites) {v : Nat → Verdicts} {points : List Nat}
    (hn : (sites ++ points).Nodup) (hok : m.insertAll budget v points = .ok n) :
    n.ClosedSurface (sites ++ points) := by
  induction points using List.reverseRecOn generalizing n with
  | nil => cases hok; simpa using h
  | append_singleton points i ih =>
    obtain ⟨m', hm', hok⟩ := insertAll_concat.1 hok
    rw [← List.append_assoc] at hn ⊢
    obtain ⟨hn, -, hd⟩ := List.nodup_append.1 hn
    exact (ih hn hm').insert (fun hi => hd i hi i (by simp) rfl) hok

/-- The last insertion of a run takes a new point into a closed surface. -/
theorem ClosedSurface.last_insertion (h : m.ClosedSurface sites) {v : Nat → Verdicts} {points : List Nat}
    (hn : (sites ++ (points ++ [i])).Nodup) (hok : m.insertAll budget v (points ++ [i]) = .ok n) :
    ∃ m', m.insertAll budget v points = .ok m' ∧ (sites ++ points).Nodup ∧ i ∉ sites ++ points ∧
      m'.ClosedSurface (sites ++ points) ∧ m'.insert budget (v i) i = .ok n := by
  obtain ⟨m', hm', hok⟩ := insertAll_concat.1 hok
  rw [← List.append_assoc] at hn
  obtain ⟨hn, -, hd⟩ := List.nodup_append.1 hn
  exact ⟨m', hm', hn, fun hi => hd i hi i (by simp) rfl, h.insertAll hn hm', hok⟩

end Mesh

end DelaunaySurface
