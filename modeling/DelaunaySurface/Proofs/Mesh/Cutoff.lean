import DelaunaySurface.Proofs.Mesh.Budget
/-!
# A smaller budget

The same run within two budgets. Both do the same, operation by operation, until the smaller budget is spent. So the
run within the smaller one has the same result if it can pay for it, and ends for want of budget if it cannot
(`insertAll_cutOff`). Nothing is asked of the verdicts.
-/

namespace DelaunaySurface

variable {β γ : Type} {b b' : Nat} {price : β → Nat} {price' : γ → Nat}

/-- `x` and `x'` are what a computation gives within the budgets `b` and `b'`: the first is the second, cut off where
the budget `b` is spent. -/
structure CutOff (b b' : Nat) (price : β → Nat) (x x' : Except Failure β) : Prop where
  /-- A result is paid for or not. -/
  done : ∀ r, x' = .ok r → x = if price r ≤ b then .ok r else .error (.budgetExceeded b)
  spent : x' = .error (.budgetExceeded b') → x = .error (.budgetExceeded b)
  /-- Another failure may come after the budget is spent. -/
  failed : ∀ e, x' = .error e → x = .error e ∨ x = .error (.budgetExceeded b)

namespace CutOff

theorem ok {r : β} (h : price r ≤ b) : CutOff b b' price (.ok r) (.ok r) where
  done r' e := by
    cases e
    rw [if_pos h]
  spent := nofun
  failed := nofun

theorem error {e : Failure} (h : e ≠ .budgetExceeded b') : CutOff b b' price (.error e) (.error e) where
  done := nofun
  spent he := absurd (Except.error.inj he) h
  failed _ he := .inl he

/-- What the smaller budget has no room for costs more than it. -/
theorem overdrawn {x' : Except Failure β} (h : ∀ r, x' = .ok r → b < price r) :
    CutOff b b' price (.error (.budgetExceeded b)) x' where
  done r hr := by rw [if_neg (not_le.2 (h r hr))]
  spent _ := rfl
  failed _ _ := .inr rfl

/-- Where the budget is spent, the larger one may see any failure. -/
theorem refused {e : Failure} : CutOff b b' price (.error (.budgetExceeded b)) (.error e) :=
  overdrawn fun _ h => by cases h

/-- One computation after another, when the second never takes back what the first has spent. -/
theorem bind {x x' : Except Failure β} {f f' : β → Except Failure γ} (h : CutOff b b' price x x')
    (hmono : ∀ r q, f' r = .ok q → price r ≤ price' q) (hf : ∀ r, price r ≤ b → CutOff b b' price' (f r) (f' r)) :
    CutOff b b' price' (x >>= f) (x' >>= f') := by
  cases x' with
  | ok r =>
    have hx := h.done r rfl
    by_cases hr : price r ≤ b
    · rw [if_pos hr] at hx
      rw [hx]
      exact hf r hr
    · rw [if_neg hr] at hx
      rw [hx]
      exact overdrawn fun q hq => (not_le.1 hr).trans_le (hmono r q hq)
  | error e =>
    by_cases he : e = .budgetExceeded b'
    · rw [h.spent (congrArg _ he)]
      exact refused
    · rcases h.failed e rfl with hx | hx
      · rw [hx]
        exact error he
      · rw [hx]
        exact refused

theorem map {x x' : Except Failure β} {f : β → γ} (h : CutOff b b' price x x') (hf : ∀ r, price' (f r) = price r) :
    CutOff b b' price' (x.map f) (x'.map f) := by
  have hbind : ∀ y : Except Failure β, y.map f = y >>= fun r => .ok (f r) := fun y => by cases y <;> rfl
  rw [hbind, hbind]
  refine h.bind (fun r q hq => ?_) fun r hr => ok ((hf r).le.trans hr)
  cases hq
  exact (hf r).ge

end CutOff

namespace Mesh

variable {m n : Mesh} {v : Verdicts} {c c' : Cavity} {i start budget : Nat} {todo : List Nat}

/-! ## Nothing spent is taken back -/

theorem operations_le_spread (h : spread m v budget c todo = .ok c') : c.operations ≤ c'.operations := by
  fun_induction spread m v budget c todo with
  | case1 => cases h; exact Nat.le_refl _
  | case2 c t todo hskip ih => exact ih h
  | case3 c t todo hskip hlt ih => exact (Nat.le_succ _).trans (ih h)
  | case4 => cases h

theorem operations_lt_conflictRegion (h : m.conflictRegion v budget start = .ok c) : m.tally.operations < c.operations := by
  unfold conflictRegion at h
  split at h
  · exact operations_le_spread h
  · cases h

theorem operations_le_clearView (h : m.clearView v budget c = .ok c') : c.operations ≤ c'.operations := by
  fun_induction clearView m v budget c with
  | case1 => cases h; exact Nat.le_refl _
  | case2 c s hs hlt ih => exact (Nat.le_succ _).trans (ih h)
  | case3 => cases h

theorem operations_lt_cavity (h : m.cavity budget v i = .ok c) : m.tally.operations < c.operations := by
  unfold cavity at h
  split at h
  · cases h
  · obtain ⟨c₀, hregion, hview⟩ := bind_eq_ok.1 h
    have hfirst := operations_lt_conflictRegion hregion
    rw [operations_opened] at hfirst
    exact hfirst.trans_le (operations_le_clearView hview)

theorem operations_of_insert (h : m.insert budget v i = .ok n) :
    ∃ c, m.cavity budget v i = .ok c ∧ n.tally.operations = c.operations := by
  rw [insert_eq] at h
  obtain ⟨c, hc, h⟩ := bind_eq_ok.1 h
  split at h
  · cases h
    exact ⟨c, hc, by rw [tally_fill]; rfl⟩
  · cases h

theorem operations_lt_insert (h : m.insert budget v i = .ok n) : m.tally.operations < n.tally.operations := by
  obtain ⟨c, hc, e⟩ := operations_of_insert h
  rw [e]
  exact operations_lt_cavity hc

theorem operations_le_insertAll {v : Nat → Verdicts} {points : List Nat} (h : m.insertAll budget v points = .ok n) :
    m.tally.operations ≤ n.tally.operations := by
  induction points generalizing m with
  | nil => cases h; exact Nat.le_refl _
  | cons i rest ih =>
    rw [insertAll_cons] at h
    obtain ⟨m', hm', h⟩ := bind_eq_ok.1 h
    exact (operations_lt_insert hm').le.trans (ih h)

/-! ## The smaller budget cuts off -/

theorem spread_cutOff (hle : b ≤ b') (hc : c.operations ≤ b) :
    CutOff b b' Cavity.operations (spread m v b c todo) (spread m v b' c todo) := by
  fun_induction spread m v b' c todo with
  | case1 c =>
    rw [spread]
    exact .ok hc
  | case2 c t todo hskip ih =>
    rw [spread, if_pos hskip]
    exact ih hc
  | case3 c t todo hskip hlt ih =>
    rw [spread, if_neg hskip]
    by_cases hroom : c.operations < b
    · rw [if_pos hroom]
      exact ih hroom
    · -- The absorption that the smaller budget refuses is charged within the larger one.
      rw [if_neg hroom]
      exact .overdrawn fun r hr => (not_lt.1 hroom).trans_lt (operations_le_spread hr)
  | case4 c t todo hskip hlt =>
    rw [spread, if_neg hskip, if_neg fun h => hlt (h.trans_le hle)]
    exact .refused

theorem conflictRegion_cutOff (hle : b ≤ b') :
    CutOff b b' Cavity.operations (m.conflictRegion v b start) (m.conflictRegion v b' start) := by
  unfold conflictRegion
  by_cases hroom : m.unopened.operations < b
  · rw [if_pos hroom, if_pos (hroom.trans_le hle)]
    exact spread_cutOff hle hroom
  · rw [if_neg hroom]
    refine .overdrawn fun c hc => ?_
    split at hc
    · exact (not_lt.1 hroom).trans_lt (operations_le_spread hc)
    · cases hc

theorem clearView_cutOff (hle : b ≤ b') (hc : c.operations ≤ b) :
    CutOff b b' Cavity.operations (m.clearView v b c) (m.clearView v b' c) := by
  fun_induction clearView m v b' c with
  | case1 c hnone =>
    rw [clearView, hnone]
    exact .ok hc
  | case2 c s hs hlt ih =>
    rw [clearView, hs]
    by_cases hroom : c.operations < b
    · simp only [if_pos hroom]
      exact ih hroom
    · simp only [if_neg hroom]
      exact .overdrawn fun r hr => (not_lt.1 hroom).trans_lt (operations_le_clearView hr)
  | case3 c s hs hlt =>
    rw [clearView, hs]
    have hroom : ¬c.operations < b := fun h => hlt (h.trans_le hle)
    simp only [if_neg hroom]
    exact .refused

theorem cavity_cutOff (hle : b ≤ b') : CutOff b b' Cavity.operations (m.cavity b v i) (m.cavity b' v i) := by
  unfold cavity
  split
  · exact .error (by rintro ⟨⟩)
  · exact (conflictRegion_cutOff hle).bind (fun _ _ => operations_le_clearView) fun _ => clearView_cutOff hle

theorem insert_cutOff (hle : b ≤ b') :
    CutOff b b' (·.tally.operations) (m.insert b v i) (m.insert b' v i) := by
  rw [insert_eq, insert_eq]
  refine (cavity_cutOff hle).bind (fun c n hn => ?_) fun c hc => ?_
  · split at hn
    · cases hn
      rw [tally_fill]
      exact Nat.le_refl _
    · cases hn
  · split
    · refine .ok ?_
      rw [tally_fill]
      exact hc
    · exact .error (by rintro ⟨⟩)

/-- A run of insertions within the smaller budget is the one within the larger, cut off. -/
theorem insertAll_cutOff (hle : b ≤ b') (hm : m.tally.operations ≤ b) {v : Nat → Verdicts} {points : List Nat} :
    CutOff b b' (·.tally.operations) (m.insertAll b v points) (m.insertAll b' v points) := by
  induction points generalizing m with
  | nil => exact .ok hm
  | cons i rest ih =>
    rw [insertAll_cons, insertAll_cons]
    exact (insert_cutOff hle).bind (fun _ _ => operations_le_insertAll) fun _ => ih

end Mesh

end DelaunaySurface
