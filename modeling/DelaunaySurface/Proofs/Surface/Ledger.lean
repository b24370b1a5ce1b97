import Mathlib.Data.List.DropRight
import DelaunaySurface.Surface.Memo
/-!
# What a memo counts

A memo tells its history. Whatever it was used for and in whatever order, it keeps the one build made since it was last
emptied, and its counts are those of the uses since they were last set to zero (`faithful_after`).
-/

namespace DelaunaySurface

namespace Memo

/-- The memo after calls, from an empty one. -/
def after (calls : List Call) : Memo := calls.foldl (fun m c => (m.run c).2) empty

/-! ## Histories -/

/-- A call, with the calls before it. -/
structure Moment where
  past : List Call
  call : Call

/-- The calls as moments, after those of the past. -/
def momentsFrom (past : List Call) : List Call → List Moment
  | [] => []
  | c :: rest => ⟨past, c⟩ :: momentsFrom (past ++ [c]) rest

def moments (calls : List Call) : List Moment := momentsFrom [] calls

namespace Call

/-- The call discards what is kept. -/
def empties : Call → Bool
  | .invalidate | .clear => true
  | _ => false

/-- The call sets the counts to zero. -/
def resets : Call → Bool
  | .clear | .resetCounts => true
  | _ => false

def isRequest : Call → Bool
  | .obtain _ => true
  | _ => false

def isChange : Call → Bool
  | .invalidate => true
  | _ => false

end Call

namespace Moment

/-- What was answered at a moment. -/
def answer (x : Moment) : Answer := ((after x.past).run x.call).1

/-- The build that was made at a moment, if the builder ran. -/
def made? (x : Moment) : Option Built :=
  match x.answer with
  | .built result true => some result
  | _ => none

/-- The builder ran and failed. -/
def failed (x : Moment) : Bool := x.made?.any (!·.isOk)

end Moment

/-- The builds made since the memo was last emptied. -/
def made (calls : List Call) : List Built :=
  ((moments calls).rtakeWhile fun x => !x.call.empties).filterMap Moment.made?

/-- The moments since the counts were last set to zero. -/
def recent (calls : List Call) : List Moment := (moments calls).rtakeWhile fun x => !x.call.resets

/-- The samples changed while a build was kept. -/
def Moment.discards (x : Moment) : Bool := x.call.isChange && !(made x.past).isEmpty

theorem after_concat (calls : List Call) (c : Call) : after (calls ++ [c]) = ((after calls).run c).2 :=
  List.foldl_concat ..

theorem momentsFrom_concat (past calls : List Call) (c : Call) :
    momentsFrom past (calls ++ [c]) = momentsFrom past calls ++ [⟨past ++ calls, c⟩] := by
  induction calls generalizing past with
  | nil => rw [List.append_nil]; rfl
  | cons d calls ih =>
    rw [List.cons_append, momentsFrom, ih, momentsFrom, List.append_assoc]
    rfl

theorem moments_concat (calls : List Call) (c : Call) : moments (calls ++ [c]) = moments calls ++ [⟨calls, c⟩] :=
  momentsFrom_concat [] calls c

theorem made_concat (calls : List Call) (c : Call) :
    made (calls ++ [c]) = if c.empties then [] else made calls ++ (Moment.made? ⟨calls, c⟩).toList := by
  rw [made, made, moments_concat, List.rtakeWhile_concat]
  cases c.empties with
  | true => rfl
  | false =>
    simp only [Bool.not_false, if_true, List.filterMap_append, Bool.false_eq_true, if_false]
    cases h : Moment.made? ⟨calls, c⟩ <;> simp [h]

/-- A call that neither empties the memo nor has a build made leaves the build that is kept. -/
theorem made_concat_of_none {calls : List Call} {c : Call} (hc : c.empties = false) (h : Moment.made? ⟨calls, c⟩ = none) :
    made (calls ++ [c]) = made calls := by
  rw [made_concat, hc, h]
  exact List.append_nil _

theorem countP_recent_concat (p : Moment → Bool) (calls : List Call) (c : Call) :
    (recent (calls ++ [c])).countP p = if c.resets then 0 else (recent calls).countP p + if p ⟨calls, c⟩ then 1 else 0 := by
  rw [recent, recent, moments_concat, List.rtakeWhile_concat]
  cases c.resets with
  | true => rfl
  | false => simp [List.countP_append, List.countP_singleton]

/-! ## The ledger -/

/-- What a memo holds is what its history tells. -/
structure Ledger (calls : List Call) (m : Memo) : Prop where
  /-- No entry outlives its generation. -/
  current : ∀ e ∈ m.entry, e.generation = m.generation
  /-- The build made since the memo was last emptied is kept. It is one at most. -/
  kept : made calls = (m.entry.map (·.result)).toList
  requests : m.hits + m.misses = (recent calls).countP (·.call.isRequest)
  misses : m.misses = (recent calls).countP (·.made?.isSome)
  failedBuilds : m.failedBuilds = (recent calls).countP (·.failed)
  invalidations : m.invalidations = (recent calls).countP (·.discards)
  generation : m.generation = calls.countP (·.isChange)

/-! ## One call -/

section Call

variable {m : Memo} {make : Unit → Built} {calls : List Call}

/-- Where no entry is stale, the entry is the current one. -/
theorem current?_of_current (h : ∀ e ∈ m.entry, e.generation = m.generation) : m.current? = m.entry := by
  rw [current?]
  cases he : m.entry with
  | none => rfl
  | some e => rw [Option.filter_some, if_pos (decide_eq_true (h e he))]

/-- A request without a current build makes one and counts a miss, -/
theorem obtain_of_none (h : m.current? = none) : m.obtain make =
    (make (), { m with
      entry := some ⟨m.generation, make ()⟩
      misses := m.misses + 1
      failedBuilds := m.failedBuilds + if (make ()).isOk then 0 else 1 }) := by
  rw [obtain, h]
  cases make () <;> rfl

/-- and one with a current build counts a hit. -/
theorem obtain_of_some {e : Entry} (h : m.current? = some e) : m.obtain make = (e.result, { m with hits := m.hits + 1 }) := by
  rw [obtain, h]

theorem run_obtain : m.run (.obtain make) = (.built (m.obtain make).1 m.current?.isNone, (m.obtain make).2) := rfl

theorem made?_obtain_of_none (make : Unit → Built) (h : (after calls).current? = none) :
    Moment.made? ⟨calls, .obtain make⟩ = some (make ()) := by
  rw [Moment.made?, Moment.answer, run_obtain, obtain_of_none h, h]
  rfl

theorem made?_obtain_of_some (make : Unit → Built) {e : Entry} (h : (after calls).current? = some e) :
    Moment.made? ⟨calls, .obtain make⟩ = none := by
  rw [Moment.made?, Moment.answer, run_obtain, h]
  rfl

end Call

namespace Ledger

variable {calls : List Call}

theorem nil : Ledger [] (after []) where
  current := nofun
  kept := rfl
  requests := rfl
  misses := rfl
  failedBuilds := rfl
  invalidations := rfl
  generation := rfl

variable (h : Ledger calls (after calls))

include h

theorem current?_eq : (after calls).current? = (after calls).entry := current?_of_current h.current

theorem obtain (make : Unit → Built) : Ledger (calls ++ [.obtain make]) ((after calls).obtain make).2 := by
  have hkept := h.kept
  cases hentry : (after calls).entry with
  | none =>
    have hnone := h.current?_eq.trans hentry
    have hmade := made?_obtain_of_none make hnone
    rw [hentry] at hkept
    rw [obtain_of_none hnone]
    constructor
    case current =>
      rintro e ⟨⟩
      rfl
    case kept =>
      rw [made_concat, hmade, hkept]
      rfl
    case generation =>
      rw [List.countP_append]
      exact h.generation
    all_goals rw [countP_recent_concat]
    case requests => exact congrArg (· + 1) h.requests
    case misses =>
      rw [hmade]
      exact congrArg (· + 1) h.misses
    case failedBuilds =>
      rw [Moment.failed, hmade, ← h.failedBuilds]
      cases make () <;> rfl
    case invalidations => exact h.invalidations
  | some e =>
    have hsome := h.current?_eq.trans hentry
    have hmade := made?_obtain_of_some make hsome
    rw [obtain_of_some hsome]
    constructor
    case current => exact h.current
    case kept => exact (made_concat_of_none rfl hmade).trans hkept
    case generation =>
      rw [List.countP_append]
      exact h.generation
    all_goals rw [countP_recent_concat]
    case requests =>
      have := h.requests
      change (after calls).hits + 1 + (after calls).misses = (recent calls).countP _ + 1
      omega
    case misses =>
      rw [hmade]
      exact h.misses
    case failedBuilds =>
      rw [Moment.failed, hmade]
      exact h.failedBuilds
    case invalidations => exact h.invalidations

theorem peek : Ledger (calls ++ [.peek]) (after calls) := by
  constructor
  case current => exact h.current
  case kept => exact (made_concat_of_none rfl rfl).trans h.kept
  case generation =>
    rw [List.countP_append]
    exact h.generation
  all_goals rw [countP_recent_concat]
  case requests => exact h.requests
  case misses => exact h.misses
  case failedBuilds => exact h.failedBuilds
  case invalidations => exact h.invalidations

theorem invalidate : Ledger (calls ++ [.invalidate]) (after calls).invalidate := by
  constructor
  case current => exact nofun
  case kept => exact made_concat ..
  case generation =>
    rw [List.countP_append]
    exact congrArg (· + 1) h.generation
  all_goals rw [countP_recent_concat]
  case requests => exact h.requests
  case misses => exact h.misses
  case failedBuilds => exact h.failedBuilds
  case invalidations =>
    rw [Memo.invalidate, Moment.discards, h.kept, ← h.invalidations]
    cases (after calls).entry <;> rfl

theorem clear : Ledger (calls ++ [.clear]) (after calls).clear := by
  constructor
  case current => exact nofun
  case kept => exact made_concat ..
  case generation =>
    rw [List.countP_append]
    exact h.generation
  all_goals
    rw [countP_recent_concat]
    rfl

theorem resetCounts : Ledger (calls ++ [.resetCounts]) (after calls).resetCounts := by
  constructor
  case current => exact h.current
  case kept => exact (made_concat_of_none rfl rfl).trans h.kept
  case generation =>
    rw [List.countP_append]
    exact h.generation
  all_goals
    rw [countP_recent_concat]
    rfl

theorem concat (c : Call) : Ledger (calls ++ [c]) (after (calls ++ [c])) := by
  rw [after_concat]
  cases c with
  | obtain make => exact h.obtain make
  | peek => exact h.peek
  | invalidate => exact h.invalidate
  | clear => exact h.clear
  | resetCounts => exact h.resetCounts

end Ledger

/-! ## Every history -/

theorem ledger_after (calls : List Call) : Ledger calls (after calls) := by
  induction calls using List.reverseRecOn with
  | nil => exact .nil
  | append_singleton calls c ih => exact ih.concat c

/-- A memo that tells its history, and answers by it. -/
structure Faithful (calls : List Call) (m : Memo) : Prop extends Ledger calls m where
  /-- The builder runs when no build was made since the memo was last emptied; otherwise that build is the answer. -/
  request : ∀ make, (m.run (.obtain make)).1 = match made calls with
    | [] => .built (make ()) true
    | result :: _ => .built result false
  once : (made calls).length ≤ 1
  /-- A look finds what a request would answer without building. -/
  look : ∀ result, (m.run .peek).1 = .kept (some result) ↔ ∀ make, (m.run (.obtain make)).1 = .built result false

theorem Ledger.faithful {calls : List Call} {m : Memo} (h : Ledger calls m) : Faithful calls m := by
  have hcurrent := current?_of_current h.current
  have hlook : m.run .peek = (.kept (m.current?.map (·.result)), m) := rfl
  cases he : m.entry with
  | none =>
    have hnone := hcurrent.trans he
    have hmade : made calls = [] := by rw [h.kept, he]; rfl
    refine ⟨h, fun make => ?_, ?_, fun result => iff_of_false ?_ fun hall => ?_⟩
    · rw [run_obtain, obtain_of_none hnone, hnone, hmade]
      rfl
    · rw [hmade]
      exact Nat.zero_le 1
    · rw [hlook, hnone]
      nofun
    · have := hall fun _ => result
      rw [run_obtain, hnone, Answer.built.injEq] at this
      cases this.2
  | some e =>
    have hsome := hcurrent.trans he
    have hmade : made calls = [e.result] := by rw [h.kept, he]; rfl
    have hrequest : ∀ make, (m.run (.obtain make)).1 = .built e.result false := fun make => by
      rw [run_obtain, obtain_of_some hsome, hsome]
      rfl
    refine ⟨h, fun make => ?_, hmade ▸ le_rfl, fun result => ?_⟩
    · rw [hrequest, hmade]
    · simp only [hrequest, hlook, hsome, Option.map_some, Answer.kept.injEq, Option.some.injEq, Answer.built.injEq, and_true]
      exact ⟨fun h _ => h, fun h => h fun _ => result⟩

/-- Whatever a memo was used for and in whatever order, it keeps the build made since it was last emptied, answers with
it, and counts the uses since its counts were last set to zero. -/
theorem faithful_after (calls : List Call) : Faithful calls (after calls) :=
  (ledger_after calls).faithful

end Memo

end DelaunaySurface
