import DelaunaySurface.Proofs.Triangulation.EmptyCircles
/-!
# Builds over exact numbers

What a build that succeeds says about its samples, over exact numbers and with no tolerance: their places
differ, the seed turns left, and the mesh is a Delaunay surface.
-/

namespace DelaunaySurface

namespace Schedule

variable {s : Samples Rat}

/-! ## Places differ -/

/-- The place of a sample, in the order by abscissa, then ordinate. -/
def lexPlace (s : Samples Rat) (i : Nat) : Rat ×ₗ Rat := toLex ((s.point i).x, (s.point i).y)

/-- What samples are sorted by. -/
def lexKey (s : Samples Rat) (i : Nat) : Rat ×ₗ Rat ×ₗ Nat := toLex ((s.point i).x, toLex ((s.point i).y, i))

theorem then_ne_gt (o o' : Ordering) : o.then o' ≠ .gt ↔ o = .lt ∨ o = .eq ∧ o' ≠ .gt := by
  cases o <;> simp [Ordering.then]

theorem order_eq_lt (a b : Rat) : Scalar.order a b = .lt ↔ a < b := by
  change (if a < b then Ordering.lt else if b < a then .gt else .eq) = .lt ↔ _
  split
  · exact iff_of_true rfl ‹_›
  · refine iff_of_false ?_ ‹_›
    split <;> nofun

theorem order_eq_eq (a b : Rat) : Scalar.order a b = .eq ↔ a = b := by
  change (if a < b then Ordering.lt else if b < a then .gt else .eq) = .eq ↔ _
  split
  · exact iff_of_false nofun (ne_of_lt ‹_›)
  · split
    · exact iff_of_false nofun (ne_of_gt ‹_›)
    · exact iff_of_true rfl (le_antisymm (not_lt.1 ‹_›) (not_lt.1 ‹_›))

theorem placeOrder_ne_gt (i j : Nat) : (placeOrder s i j != .gt) = true ↔ lexKey s i ≤ lexKey s j := by
  rw [bne_iff_ne, placeOrder, then_ne_gt, then_ne_gt, order_eq_lt, order_eq_eq, order_eq_lt, order_eq_eq, compare_le_iff_le,
    lexKey, lexKey, Prod.Lex.toLex_le_toLex, Prod.Lex.toLex_le_toLex]

theorem lexPlace_le {i j : Nat} (h : lexKey s i ≤ lexKey s j) : lexPlace s i ≤ lexPlace s j := by
  rw [lexKey, lexKey, Prod.Lex.toLex_le_toLex, Prod.Lex.toLex_le_toLex] at h
  rw [lexPlace, lexPlace, Prod.Lex.toLex_le_toLex]
  exact h.imp_right fun h => ⟨h.1, h.2.elim le_of_lt fun h => h.1.le⟩

theorem lexPlace_inj {i j : Nat} : lexPlace s i = lexPlace s j ↔ (s.point i).same (s.point j) = true := by
  rw [lexPlace, lexPlace, EmbeddingLike.apply_eq_iff_eq, Prod.mk.injEq, Point.same, Bool.and_eq_true]
  exact and_congr decide_eq_true_iff.symm decide_eq_true_iff.symm

/-- Among sorted samples, twins are neighbours. -/
theorem lexPlace_lt_of_firstTwins? {l : List Nat} (h : firstTwins? s l = none) (hl : l.IsChain fun i j => lexPlace s i ≤ lexPlace s j) :
    l.IsChain fun i j => lexPlace s i < lexPlace s j := by
  induction l with
  | nil => exact .nil
  | cons i l ih =>
    cases l with
    | nil => exact .singleton i
    | cons j rest =>
      rw [List.isChain_cons_cons] at hl ⊢
      rw [firstTwins?] at h
      split at h
      · cases h
      · rename_i hsame
        exact ⟨lt_of_le_of_ne hl.1 fun e => hsame (lexPlace_inj.1 e), ih h hl.2⟩

/-- Accepted samples are at different places. -/
theorem ne_of_validate (h : validate s = .ok ()) : ∀ i < s.size, ∀ j < s.size, i ≠ j → s.point i ≠ s.point j := by
  have hsorted := sorted_of_key (placeOrder_ne_gt (s := s)) (List.range s.size)
  have hchain := lexPlace_lt_of_firstTwins? (validate_ok_iff.1 h).2.2 (hsorted.imp lexPlace_le).isChain
  have hne : ((List.range s.size).mergeSort fun i j => placeOrder s i j != .gt).Pairwise fun i j => s.point i ≠ s.point j :=
    (List.isChain_iff_pairwise.1 hchain).imp fun hlt e => hlt.ne (by rw [lexPlace, lexPlace, e])
  have hsymm : Std.Symm fun i j => s.point i ≠ s.point j := ⟨fun _ _ => Ne.symm⟩
  intro i hi j hj hij
  refine hne.forall ?_ ?_ hij <;> rwa [List.mem_mergeSort, List.mem_range]

/-! ## The seed -/

theorem turn_seed {l others : List Nat} {first : Triple Nat} (h : seed ⟨0⟩ s l = .ok (first, others)) :
    0 < cross (s.point first.fst) (s.point first.snd) (s.point first.trd) :=
  cross_pos_of_turn (turn_seed_cases h)

end Schedule

namespace Triangulation

/-- The mesh of a build that succeeds is a Delaunay surface over all samples. -/
theorem delaunay_of_mesh {s : Samples Rat} {budget : Nat} {m : Mesh} (h : mesh ⟨budget, ⟨0⟩⟩ s = .ok m) :
    ∃ sites, m.Delaunay s.point sites ∧ sites.Perm (List.range s.size) := by
  obtain ⟨hvalid, first, others, hseed, hrun⟩ := mesh_eq_ok.1 h
  have hd := Schedule.ne_of_validate hvalid
  have hlt : ∀ x ∈ first.toList ++ others, x < s.size := fun x hx => Schedule.lt_of_mem_schedule hseed hx
  have hdelaunay := Mesh.delaunay_seed s.point (Schedule.closedSurface_seed hseed) (Schedule.turn_seed hseed) fun x hx y hy =>
    hd x (hlt x (List.mem_append_left _ hx)) y (hlt y (List.mem_append_left _ hy))
  rcases hdelaunay.insertAll_cases (Schedule.schedule_nodup hseed) (fun x hx y hy => hd x (hlt x hx) y (hlt y hy)) budget with
    herror | ⟨n, hok, hn, -⟩
  · cases herror.symm.trans hrun
  · cases hok.symm.trans hrun
    exact ⟨_, hn, Schedule.schedule_perm hseed⟩

theorem emptyCircles_of_mesh {s : Samples Rat} {budget : Nat} {m : Mesh} (h : mesh ⟨budget, ⟨0⟩⟩ s = .ok m) :
    (ofMesh s.size m).EmptyCircles s := by
  obtain ⟨sites, hdelaunay, hperm⟩ := delaunay_of_mesh h
  exact emptyCircles_ofMesh hdelaunay fun i hi => hperm.mem_iff.2 (List.mem_range.2 hi)

end Triangulation

end DelaunaySurface
