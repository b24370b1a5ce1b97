import DelaunaySurface.Proofs.Surface.Plain
import DelaunaySurface.Proofs.Triangulation.Walk
/-!
# Keeping the build does not show

A surface with a memo answers every call as the plain surface does that builds at each question. A call
does one of three things to the memo: nothing, a new generation, or a request for the build (`Effect`).
What is kept is therefore always the build of the samples and settings there are (`Current`), and within
one generation the builder runs at most once.
-/

namespace DelaunaySurface

namespace Memo

variable {m : Memo} {make : Unit → Built}

/-! ## The memo -/

@[simp] theorem peek_empty : Memo.empty.peek = none := rfl

@[simp] theorem peek_invalidate : m.invalidate.peek = none := rfl

@[simp] theorem generation_invalidate : m.invalidate.generation = m.generation + 1 := rfl

/-- A request is answered with the build kept, or else with a new one. -/
theorem obtain_fst : (m.obtain make).1 = m.peek.getD (make ()) := by
  rw [obtain, peek]
  cases m.current? <;> rfl

theorem peek_obtain : (m.obtain make).2.peek = some (m.obtain make).1 := by
  rw [obtain]
  cases h : m.current? with
  | none => simp [peek, current?]
  | some e =>
    change m.current?.map (·.result) = _
    rw [h]
    rfl

@[simp] theorem generation_obtain : (m.obtain make).2.generation = m.generation := by
  rw [obtain]
  cases m.current? <;> rfl

/-- How often the builder has run, counting the run that the next request needs. -/
def due (m : Memo) : Nat := m.misses + if m.peek.isSome then 0 else 1

/-- The builder runs when nothing is kept, and then something is. -/
theorem due_obtain : (m.obtain make).2.due = m.due := by
  rw [due, peek_obtain, due, peek, obtain]
  cases m.current? <;> rfl

end Memo

namespace Surface

variable {α : Type} [Scalar α] {s : Surface α}

/-- The surface without its memo. -/
def plain (s : Surface α) : PlainSurface α := ⟨s.samples, s.settings, s.hint⟩

/-- The surface after a request for its build. -/
def asked (s : Surface α) : Surface α := { s with memo := (s.memo.obtain fun _ => s.plain.build).2 }

theorem triangulation_eq (s : Surface α) : s.triangulation = ((s.memo.obtain fun _ => s.plain.build).1, s.asked) := rfl

/-! ## What stays true -/

/-- What a surface keeps goes with its samples and settings. -/
structure Current (s : Surface α) : Prop where
  /-- The build is the one that would be made now. -/
  kept : ∀ b ∈ s.memo.peek, b = s.plain.build
  /-- The triangle of the last answer is one of the build that is kept. -/
  hint : ∀ i ∈ s.hint, ∃ t, s.memo.peek = some (.ok t) ∧ i < t.size

/-- What a call leaves of a surface. -/
inductive Effect (s : Surface α) : Surface α → Prop
  /-- The build stays, and with it all that it was made from. -/
  | keep (settings : Settings α) (hint : Option Nat) (hbuild : settings.build = s.settings.build)
      (hhint : ∀ i ∈ hint, i ∈ s.hint) : Effect s { s with settings, hint }
  /-- A new generation begins. -/
  | renew (samples : Samples α) (settings : Settings α) : Effect s { s.invalidate with samples, settings }
  /-- The build is asked for. -/
  | ask (hint : Option Nat) (hhint : ∀ i ∈ hint, ∃ t, s.plain.build = .ok t ∧ i < t.size) :
      Effect s { s.asked with hint }

theorem Effect.refl (s : Surface α) : s.Effect s :=
  .keep s.settings s.hint rfl fun _ hi => hi

theorem current_fresh (samples : Samples α) (settings : Settings α) : (fresh samples settings).Current where
  kept := by simp [fresh]
  hint := by simp [fresh]

namespace Current

variable (h : s.Current)

include h

theorem triangulation_eq : s.triangulation = (s.plain.build, s.asked) := by
  rw [s.triangulation_eq, Memo.obtain_fst]
  cases hp : s.memo.peek with
  | none => rfl
  | some b => rw [h.kept b hp, Option.getD_some]

theorem peek_asked : s.asked.memo.peek = some s.plain.build :=
  Memo.peek_obtain.trans (congrArg (some ·.1) h.triangulation_eq)

theorem hint_lt {i : Nat} (hi : i ∈ s.hint) : ∃ t, s.plain.build = .ok t ∧ i < t.size := by
  obtain ⟨t, ht, hlt⟩ := h.hint i hi
  exact ⟨t, (h.kept _ ht).symm, hlt⟩

/-- What a call leaves of a current surface is current. -/
theorem effect {s' : Surface α} (he : s.Effect s') : s'.Current := by
  cases he with
  | keep settings hint hbuild hhint =>
    refine ⟨fun b hb => ?_, fun i hi => h.hint i (hhint i hi)⟩
    rw [h.kept b hb, PlainSurface.build, PlainSurface.build]
    exact congrArg (Triangulation.build · s.samples) hbuild.symm
  | renew => exact ⟨by simp [invalidate], by simp [invalidate]⟩
  | ask hint hhint =>
    refine ⟨fun b hb => Option.some.inj (hb.symm.trans h.peek_asked), fun i hi => ?_⟩
    obtain ⟨t, ht, hlt⟩ := hhint i hi
    exact ⟨t, h.peek_asked.trans (congrArg some ht), hlt⟩

end Current

/-- Within one generation the builder does not run again once it has run. -/
theorem Effect.due {s' : Surface α} (he : s.Effect s') : s.memo.generation ≤ s'.memo.generation ∧
    (s'.memo.generation = s.memo.generation → s'.memo.due = s.memo.due) := by
  cases he with
  | keep => exact ⟨le_rfl, fun _ => rfl⟩
  | renew => simp [invalidate]
  | ask =>
    rw [asked]
    exact ⟨Memo.generation_obtain.ge, fun _ => Memo.due_obtain⟩

/-! ## One call -/

/-- An edit gives the samples and the report that it gives without a memo. -/
theorem edit_eq (s : Surface α) (e : Edit α) : (s.edit e).1 = (s.plain.edit e).1 ∧
    (s.edit e).2.plain = (s.plain.edit e).2 ∧ s.Effect (s.edit e).2 := by
  simp only [edit, PlainSurface.edit, plain, Edit.outcome_eq]
  cases e.run s.samples with
  | ok r => exact ⟨rfl, rfl, .renew _ _⟩
  | error failure =>
    cases e with
    | remove i => exact ⟨rfl, rfl, .refl s⟩
    | _ => exact ⟨rfl, rfl, .renew _ _⟩

theorem change_eq [DecidableEq α] (s : Surface α) (c : Change α) :
    (s.change c).plain = s.plain.change c ∧ s.Effect (s.change c) := by
  -- A setting that the build reads is compared first; where it stays, nothing happens.
  have hguard : ∀ (P : Prop) [Decidable P] (settings : Settings α),
      (if P then s else { s.invalidate with settings }).plain =
        (if P then s.plain else { s.plain.forget with settings }) ∧
      s.Effect (if P then s else { s.invalidate with settings }) := by
    intro P _ settings
    split
    · exact ⟨rfl, .refl s⟩
    · exact ⟨rfl, .renew _ _⟩
  cases c with
  | budget n => exact hguard _ _
  | tolerance t => exact hguard _ _
  | strategy t => exact ⟨rfl, .keep _ none rfl nofun⟩
  | marginValue a => exact hguard _ _
  | columns n => exact ⟨rfl, .keep _ _ rfl fun _ hi => hi⟩
  | rows n => exact ⟨rfl, .keep _ _ rfl fun _ hi => hi⟩
  | margin a => exact hguard _ _
  | minimum a => exact ⟨rfl, .keep _ _ rfl fun _ hi => hi⟩
  | maximum a => exact ⟨rfl, .keep _ _ rfl fun _ hi => hi⟩

namespace Current

variable (h : s.Current)

include h

theorem effect_asked : s.Effect s.asked :=
  .ask s.hint fun _ hi => h.hint_lt hi

/-- The triangle of an answer is one of the build. -/
theorem hint_value? (p : Point α) : ∀ i ∈ (s.plain.value? p).2.hint, ∃ t, s.plain.build = .ok t ∧ i < t.size := by
  intro i hi
  rw [PlainSurface.value?] at hi
  cases hb : s.plain.build with
  | error failure =>
    rw [hb] at hi
    exact hb ▸ h.hint_lt hi
  | ok t =>
    rw [hb] at hi
    refine ⟨t, rfl, Locator.hint_lt (Triangulation.neighbour_lt_of_build hb) (Triangulation.size_pos_of_build hb) (fun j hj => ?_) i hi⟩
    obtain ⟨t', ht', hlt⟩ := h.hint_lt hj
    rw [hb, Except.ok.injEq] at ht'
    exact ht' ▸ hlt

theorem value?_eq (p : Point α) : (s.value? p).1 = (s.plain.value? p).1 ∧
    (s.value? p).2.plain = (s.plain.value? p).2 ∧ s.Effect (s.value? p).2 := by
  have hhint := h.hint_value? p
  rw [value?, h.triangulation_eq]
  rw [PlainSurface.value?] at hhint ⊢
  cases hb : s.plain.build with
  | error failure => exact ⟨rfl, rfl, h.effect_asked⟩
  | ok t =>
    rw [hb] at hhint
    exact ⟨rfl, rfl, .ask _ (hb ▸ hhint)⟩

theorem sample?_eq (f : Frame α) : s.sample? f = (s.plain.sample? f, s.asked) := by
  rw [sample?, h.triangulation_eq, PlainSurface.sample?]
  cases s.plain.build <;> rfl

theorem histogram?_eq : s.histogram?.1 = s.plain.histogram? ∧ (s.histogram?.2 = s ∨ s.histogram?.2 = s.asked) := by
  rw [histogram?, PlainSurface.histogram?, show s.plain.histogramFrame = s.histogramFrame from rfl]
  cases s.histogramFrame with
  | error failure => exact ⟨rfl, .inl rfl⟩
  | ok f =>
    dsimp only
    rw [h.sample?_eq]
    exact ⟨rfl, .inr rfl⟩

theorem isolines_eq (level : α) : (s.isolines level).1 = s.plain.isolines level ∧
    ((s.isolines level).2 = s ∨ (s.isolines level).2 = s.asked) := by
  rw [isolines, PlainSurface.isolines, h.triangulation_eq, show s.plain.samples = s.samples from rfl]
  cases s.samples.isEmpty with
  | true => exact ⟨rfl, .inl rfl⟩
  | false =>
    cases s.plain.build with
    | error failure => exact ⟨rfl, .inr rfl⟩
    | ok t => exact ⟨rfl, .inr rfl⟩

variable [DecidableEq α]

/-- One call of a current surface: the answer of the plain one, and one of the three effects. -/
theorem run (c : Call α) : (s.run c).1 = (s.plain.run c).1 ∧ (s.run c).2.plain = (s.plain.run c).2 ∧
    s.Effect (s.run c).2 := by
  have hleft : ∀ s' : Surface α, s' = s ∨ s' = s.asked → s'.plain = s.plain ∧ s.Effect s' := by
    rintro s' (rfl | rfl)
    · exact ⟨rfl, .refl _⟩
    · exact ⟨rfl, h.effect_asked⟩
  cases c with
  | edit e =>
    obtain ⟨hreport, hafter, he⟩ := s.edit_eq e
    exact ⟨congrArg Answer.edited hreport, hafter, he⟩
  | replace samples => exact ⟨rfl, rfl, .renew samples s.settings⟩
  | change c => exact ⟨rfl, s.change_eq c⟩
  | triangulation =>
    refine ⟨?_, rfl, h.effect_asked⟩
    change Answer.built s.triangulation.1 = .built s.plain.build
    rw [h.triangulation_eq]
  | value p => exact ⟨congrArg (Option.elim · Answer.lost Answer.value) (h.value?_eq p).1, (h.value?_eq p).2⟩
  | valueOrUndefined p =>
    refine ⟨?_, (h.value?_eq p).2⟩
    change ((s.value? p).1.map _).elim Answer.lost Answer.number = _
    rw [(h.value?_eq p).1]
    rfl
  | sample f =>
    refine ⟨?_, ?_⟩
    · change (s.sample? f).1.elim Answer.lost _ = _
      rw [h.sample?_eq]
      rfl
    · exact hleft _ (.inr (congrArg Prod.snd (h.sample?_eq f)))
  | histogramFrame => exact ⟨rfl, hleft s (.inl rfl)⟩
  | histogram => exact ⟨congrArg (Option.elim · Answer.lost Answer.raster) h.histogram?_eq.1, hleft _ h.histogram?_eq.2⟩
  | isolines level => exact ⟨congrArg Answer.isolines (h.isolines_eq level).1, hleft _ (h.isolines_eq level).2⟩
  | heightRange => exact ⟨rfl, hleft s (.inl rfl)⟩

end Current

/-! ## Every call -/

variable [DecidableEq α]

/-- What calls answer, one after the other. -/
def answers (s : Surface α) : List (Call α) → List (Answer α)
  | [] => []
  | c :: rest => (s.run c).1 :: (s.run c).2.answers rest

/-- The surface after calls. -/
def after (s : Surface α) (calls : List (Call α)) : Surface α :=
  calls.foldl (fun s c => (s.run c).2) s

theorem Current.after (h : s.Current) (calls : List (Call α)) : (s.after calls).Current := by
  induction calls generalizing s with
  | nil => exact h
  | cons c calls ih => exact ih (h.effect (h.run c).2.2)

theorem Current.answers (h : s.Current) (calls : List (Call α)) : s.answers calls = s.plain.answers calls := by
  induction calls generalizing s with
  | nil => rfl
  | cons c calls ih =>
    obtain ⟨hanswer, hplain, he⟩ := h.run c
    rw [Surface.answers, PlainSurface.answers, hanswer, ← hplain, ih (h.effect he)]

theorem Current.due_after (h : s.Current) (calls : List (Call α)) : s.memo.generation ≤ (s.after calls).memo.generation ∧
    ((s.after calls).memo.generation = s.memo.generation → (s.after calls).memo.due = s.memo.due) := by
  induction calls generalizing s with
  | nil => exact ⟨le_rfl, fun _ => rfl⟩
  | cons c calls ih =>
    have he := (h.run c).2.2
    obtain ⟨hle, hdue⟩ := he.due
    obtain ⟨hle', hdue'⟩ := ih (h.effect he)
    refine ⟨hle.trans hle', fun heq => ?_⟩
    change (((s.run c).2.after calls).memo.generation = _) at heq
    have hmid : (s.run c).2.memo.generation = s.memo.generation := by omega
    exact (hdue' (heq.trans hmid.symm)).trans (hdue hmid)

/-- What holds of a surface between calls. -/
structure Sound (s : Surface α) : Prop extends Current s where
  /-- As long as no new generation begins, the builder runs once at most. -/
  builds_once : ∀ calls, (s.after calls).memo.generation = s.memo.generation →
    (s.after calls).memo.misses ≤ s.memo.misses + 1
  /-- A call that fails leaves samples and settings alone. -/
  failed : ∀ c, (s.run c).1.failed → (s.run c).2.samples = s.samples ∧ (s.run c).2.settings = s.settings

theorem Current.sound (h : s.Current) : s.Sound where
  toCurrent := h
  builds_once calls hgeneration := by
    have hdue := (h.due_after calls).2 hgeneration
    simp only [Memo.due] at hdue
    split at hdue <;> split at hdue <;> omega
  failed c hc := by
    obtain ⟨hanswer, hplain, -⟩ := h.run c
    rw [hanswer] at hc
    have hsame := PlainSurface.run_failed hc
    rw [← hplain] at hsame
    exact hsame

/-- Keeping the build does not show, whatever is called in whatever order: all calls are answered as if every
question built anew. -/
theorem memo_invisible (samples : Samples α) (settings : Settings α) (calls : List (Call α)) :
    (fresh samples settings).answers calls = (PlainSurface.fresh samples settings).answers calls ∧
      ((fresh samples settings).after calls).Sound :=
  ⟨(current_fresh samples settings).answers calls, ((current_fresh samples settings).after calls).sound⟩

end Surface

end DelaunaySurface
