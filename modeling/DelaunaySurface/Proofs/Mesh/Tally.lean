import DelaunaySurface.Proofs.Mesh.Cutoff
/-!
# The tally of a run

The searches for a cavity end by themselves, whatever the verdicts are: each step takes a cell in use that was not taken
before. The budget only decides whether the cost is paid (`cavity_ends`, `insert_ends`). So the counts of a run are those
of its cavities, one for each point (`accounted_insertAll`).
-/

namespace DelaunaySurface

namespace Mesh

variable {m n : Mesh} {sites points : List Nat} {v : Verdicts} {c c' : Cavity} {i budget start : Nat}

/-! ## One cavity -/

/-- A cavity honestly paid for: its members are cells in use, each taken once and charged once. The first of them was not
taken to clear the view. -/
structure Account (m : Mesh) (c : Cavity) : Prop where
  nodup : c.members.toList.Nodup
  live : ∀ t ∈ c.members.toList, m.Live t
  paid : m.Paid c
  repairs_lt : c.repairs < c.members.size

theorem conflictRegion_paid (h : m.conflictRegion v budget start = .ok c) : m.Paid c ∧ c.repairs < c.members.size := by
  refine conflictRegion_induction (P := fun c => m.Paid c ∧ c.repairs < c.members.size) ⟨paid_first m start, ?_⟩ ?_ h
  · exact Nat.zero_lt_one
  · rintro c t k ⟨hpaid, hlt⟩ - - -
    refine ⟨paid_absorb hpaid _, ?_⟩
    rw [absorb, Array.size_push]
    exact hlt.trans (Nat.lt_succ_self _)

/-- Each repair is a member too. -/
theorem clearView_paid (h : m.clearView v budget c = .ok c') (hc : m.Paid c ∧ c.repairs < c.members.size) :
    m.Paid c' ∧ c'.repairs < c'.members.size := by
  fun_induction clearView m v budget c with
  | case1 c hnone => cases h; exact hc
  | case2 c s hsome hlt ih =>
    refine ih h ⟨paid_absorb hc.1 _, ?_⟩
    simp only [absorb, Array.size_push]
    exact Nat.succ_lt_succ hc.2
  | case3 => cases h

/-- Without a cell to begin with there is nothing to pay for; that is not a matter of the budget. -/
theorem start?_of_inconsistent (h : m.cavity budget v i = .error (.inconsistent i)) :
    m.start? v (m.locate v).2 = none := by
  unfold cavity at h
  split at h
  · assumption
  · rcases bind_eq_error.1 h with h | ⟨c, -, h⟩
    · cases conflictRegion_error h
    · cases clearView_error h

namespace ClosedSurface

theorem account_of_cavity (h : m.ClosedSurface sites) (hc : m.cavity budget v i = .ok c) : m.Account c := by
  have hpatch := h.patch_of_cavity hc
  have hpaid : (m.opened v).Paid c ∧ c.repairs < c.members.size := by
    unfold cavity at hc
    split at hc
    · cases hc
    · obtain ⟨c₀, hregion, hview⟩ := bind_eq_ok.1 hc
      exact clearView_paid hview (conflictRegion_paid hregion)
  refine ⟨hpatch.nodup, hpatch.live h, ?_, hpaid.2⟩
  rw [Paid, ← operations_opened m v]
  exact hpaid.1

/-- The searches for a cavity end without a budget: there is one cavity, and a budget pays for it or not. -/
theorem cavity_ends (h : m.ClosedSurface sites) (v : Verdicts) (i : Nat) :
    (∀ budget, m.cavity budget v i = .error (.inconsistent i)) ∨
      ∃ c, m.Account c ∧
        ∀ budget, m.cavity budget v i = if c.operations ≤ budget then .ok c else .error (.budgetExceeded budget) := by
  rcases h.cavity_within (v := v) (i := i) le_rfl with herror | ⟨c, hc, -⟩
  · refine .inl fun budget => ?_
    rw [cavity, start?_of_inconsistent herror]
  · refine .inr ⟨c, h.account_of_cavity hc, fun budget => ?_⟩
    rcases le_total budget (m.tally.operations + m.population) with hle | hle
    · exact (cavity_cutOff hle).done c hc
    · -- A budget with room for all cells gives a cavity too, and the smaller one has paid for the same.
      rcases h.cavity_within (v := v) (i := i) hle with herror | ⟨c', hc', -⟩
      · rw [cavity, start?_of_inconsistent herror] at hc
        cases hc
      · have hcut := (cavity_cutOff hle).done c' hc'
        rw [hc] at hcut
        split at hcut
        · rename_i hpaid
          cases hcut
          rw [hc', if_pos (hpaid.trans hle)]
        · cases hcut

end ClosedSurface

/-! ## One insertion -/

theorem largest_opened (m : Mesh) (v : Verdicts) : (m.opened v).tally.largest = m.tally.largest := by
  unfold opened locate
  split <;> rfl

/-- What one cavity adds to the tally. -/
structure Charges (m : Mesh) (c : Cavity) (n : Mesh) : Prop where
  operations : n.tally.operations = m.tally.operations + c.members.size
  largest : n.tally.largest = max m.tally.largest c.members.size
  repairs : n.tally.repairs = m.tally.repairs + c.repairs

theorem Account.charges (hc : m.Account c) {l : List Nat} {rim : List RimSide} :
    m.Charges c ((m.charged v c).fill i l rim) := by
  constructor <;> rw [tally_fill]
  · exact hc.paid
  · have hsize : c.operations - m.tally.operations = c.members.size := by
      rw [hc.paid, Nat.add_sub_cancel_left]
    simp only [charged, operations_opened, largest_opened, hsize]
  · exact congrArg (· + c.repairs) (locate_repairs m v)

/-- The insertion of `i` into `m` ends by itself: there is no cell to begin with, or its searches come to one cavity, and the
budget only decides whether that is paid for. -/
def InsertionEnds (m : Mesh) (v : Verdicts) (i : Nat) : Prop :=
  (∀ budget, m.insert budget v i = .error (.inconsistent i)) ∨
    ∃ c result, m.Account c ∧
      (∀ budget, m.cavity budget v i = if c.operations ≤ budget then .ok c else .error (.budgetExceeded budget)) ∧
      (∀ budget, m.insert budget v i = if c.operations ≤ budget then result else .error (.budgetExceeded budget)) ∧
      (result = .error (.inconsistent i) ∨ ∃ n, result = .ok n ∧ m.Charges c n)

theorem ClosedSurface.insert_ends (h : m.ClosedSurface sites) (v : Verdicts) (i : Nat) : m.InsertionEnds v i := by
  rcases h.cavity_ends v i with hnone | ⟨c, hc, hcavity⟩
  · refine .inl fun budget => ?_
    rw [insert_eq, hnone]
    rfl
  · refine .inr ⟨c, if closesUp ((m.opened v).rim c) && ((m.opened v).rim c).any finite then
      .ok ((m.charged v c).fill i c.members.toList ((m.opened v).rim c)) else .error (.inconsistent i), hc, hcavity, ?_, ?_⟩
    · intro budget
      rw [insert_eq, hcavity]
      split <;> rfl
    · split
      · exact .inr ⟨_, rfl, hc.charges⟩
      · exact .inl rfl

/-- An insertion that succeeds charges its cavity. -/
theorem ClosedSurface.charges_of_insert (h : m.ClosedSurface sites) (hok : m.insert budget v i = .ok n) :
    ∃ c, m.cavity budget v i = .ok c ∧ m.Account c ∧ m.Charges c n := by
  rw [insert_eq] at hok
  obtain ⟨c, hc, hok⟩ := bind_eq_ok.1 hok
  have haccount := h.account_of_cavity hc
  split at hok
  · cases hok
    exact ⟨c, hc, haccount, haccount.charges⟩
  · cases hok

/-! ## A run of insertions -/

/-- The cavities of a run of insertions, up to the first that fails. -/
def cavities (m : Mesh) (budget : Nat) (v : Nat → Verdicts) : List Nat → List Cavity
  | [] => []
  | i :: rest =>
    match m.cavity budget (v i) i, m.insert budget (v i) i with
    | .ok c, .ok n => c :: n.cavities budget v rest
    | _, _ => []

/-- The tally of `n` is that of `m` and of the cavities between. -/
structure Accounted (m : Mesh) (l : List Cavity) (n : Mesh) : Prop where
  operations : n.tally.operations = m.tally.operations + (l.map (·.members.size)).sum
  repairs : n.tally.repairs = m.tally.repairs + (l.map (·.repairs)).sum
  le_largest : m.tally.largest ≤ n.tally.largest
  size_le : ∀ c ∈ l, c.members.size ≤ n.tally.largest
  largest_mem : n.tally.largest = m.tally.largest ∨ ∃ c ∈ l, c.members.size = n.tally.largest
  repairs_lt : ∀ c ∈ l, c.repairs < c.members.size

namespace Accounted

theorem nil (m : Mesh) : m.Accounted [] m where
  operations := rfl
  repairs := rfl
  le_largest := le_rfl
  size_le := nofun
  largest_mem := .inl rfl
  repairs_lt := nofun

theorem cons {m' : Mesh} {l : List Cavity} (hlt : c.repairs < c.members.size) (hc : m.Charges c m')
    (h : m'.Accounted l n) : m.Accounted (c :: l) n where
  operations := by rw [h.operations, hc.operations, List.map_cons, List.sum_cons, Nat.add_assoc]
  repairs := by rw [h.repairs, hc.repairs, List.map_cons, List.sum_cons, Nat.add_assoc]
  le_largest := (le_max_left _ _).trans (hc.largest.ge.trans h.le_largest)
  size_le := List.forall_mem_cons.2 ⟨(le_max_right _ _).trans (hc.largest.ge.trans h.le_largest), h.size_le⟩
  largest_mem := by
    rcases h.largest_mem with hlargest | ⟨d, hd, e⟩
    · -- Nothing later was larger: the largest is the start's or this one.
      rw [hc.largest] at hlargest
      rcases max_choice m.tally.largest c.members.size with hmax | hmax
      · exact .inl (hlargest.trans hmax)
      · exact .inr ⟨c, List.mem_cons_self, (hlargest.trans hmax).symm⟩
    · exact .inr ⟨d, List.mem_cons_of_mem _ hd, e⟩
  repairs_lt := List.forall_mem_cons.2 ⟨hlt, h.repairs_lt⟩

variable {l : List Cavity}

/-- Each cavity has a member that is not a repair. -/
theorem repairs_add_length_le (h : m.Accounted l n) :
    (l.map (·.repairs)).sum + l.length ≤ (l.map (·.members.size)).sum := by
  have hsum : (l.map (·.repairs)).sum + l.length = (l.map fun c => c.repairs + 1).sum := by
    rw [List.sum_map_add, List.map_const', List.sum_replicate, smul_eq_mul, Nat.mul_one]
  rw [hsum]
  exact List.sum_le_sum fun c hc => h.repairs_lt c hc

theorem sum_size_le (h : m.Accounted l n) : (l.map (·.members.size)).sum ≤ l.length * n.tally.largest := by
  refine (List.sum_le_card_nsmul _ n.tally.largest fun x hx => ?_).trans (by simp)
  obtain ⟨c, hc, rfl⟩ := List.mem_map.1 hx
  exact h.size_le c hc

/-- Counted from zero, the largest is that of the largest cavity. -/
theorem largest_eq (h : m.Accounted l n) (hzero : m.tally.largest = 0) :
    n.tally.largest = (l.map (·.members.size)).max?.getD 0 := by
  cases l with
  | nil => exact h.largest_mem.elim (·.trans hzero) nofun
  | cons c rest =>
    have hmem : ∃ d ∈ c :: rest, d.members.size = n.tally.largest := h.largest_mem.resolve_left fun hlargest => by
      have hle := h.size_le c List.mem_cons_self
      have hlt := h.repairs_lt c List.mem_cons_self
      omega
    have hmax : ((c :: rest).map (·.members.size)).max? = some n.tally.largest := by
      refine List.max?_eq_some_iff.2 ⟨List.mem_map.2 hmem, fun x hx => ?_⟩
      obtain ⟨d, hd, rfl⟩ := List.mem_map.1 hx
      exact h.size_le d hd
    rw [hmax, Option.getD_some]

end Accounted

/-- A run that succeeds makes one cavity for each point and counts what they took. -/
theorem ClosedSurface.accounted_insertAll (h : m.ClosedSurface sites) {v : Nat → Verdicts}
    (hn : (sites ++ points).Nodup) (hok : m.insertAll budget v points = .ok n) :
    (m.cavities budget v points).length = points.length ∧ m.Accounted (m.cavities budget v points) n := by
  induction points generalizing m sites with
  | nil =>
    cases hok
    exact ⟨rfl, .nil _⟩
  | cons i rest ih =>
    rw [insertAll_cons] at hok
    obtain ⟨m', hm', hok⟩ := bind_eq_ok.1 hok
    have hi : i ∉ sites := fun hi => (List.nodup_append.1 hn).2.2 i hi i List.mem_cons_self rfl
    obtain ⟨c, hc, haccount, hcharges⟩ := h.charges_of_insert hm'
    rw [List.append_cons] at hn
    obtain ⟨hlength, haccounted⟩ := ih (h.insert hi hm') hn hok
    rw [cavities, hc, hm']
    exact ⟨congrArg Nat.succ hlength, haccounted.cons haccount.repairs_lt hcharges⟩

end Mesh

end DelaunaySurface
