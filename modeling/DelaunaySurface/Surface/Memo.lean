import DelaunaySurface.Triangulation.Build
/-!
# Keeping a build

One build is kept until what it was made from changes. Each change begins a new generation. Failed
builds are kept as well, so that samples that cannot be triangulated are tried once.
-/

namespace DelaunaySurface

abbrev Built := Except Failure Triangulation

/-- A build with the generation it was made in. -/
structure Memo.Entry where
  generation : Nat
  result : Built

/-- A place for one build, with counts of its use. -/
structure Memo where
  entry : Option Memo.Entry
  generation : Nat
  /-- Builds asked for while one was kept. -/
  hits : Nat
  /-- Builds asked for while none was kept. -/
  misses : Nat
  /-- Changes that discarded a build. -/
  invalidations : Nat
  /-- Builds that failed. -/
  failedBuilds : Nat

namespace Memo

/-- Nothing kept, nothing counted. -/
def empty : Memo := ⟨none, 0, 0, 0, 0, 0⟩

/-- Begins a new generation and discards the build. -/
def invalidate (m : Memo) : Memo :=
  { m with
    entry := none
    generation := m.generation + 1
    invalidations := if m.entry.isSome then m.invalidations + 1 else m.invalidations }

/-- The entry, if it belongs to the current generation. -/
def current? (m : Memo) : Option Entry :=
  m.entry.filter (·.generation = m.generation)

/-- The build of the current generation, if it was made. -/
def peek (m : Memo) : Option Built :=
  m.current?.map (·.result)

/-- The build of the current generation, made now if it is not kept. -/
def obtain (m : Memo) (make : Unit → Built) : Built × Memo :=
  match m.current? with
  | some e => (e.result, { m with hits := m.hits + 1 })
  | none =>
    let result := make ()
    (result,
      { m with
        entry := some ⟨m.generation, result⟩
        misses := m.misses + 1
        failedBuilds := match result with
          | .ok _ => m.failedBuilds
          | .error _ => m.failedBuilds + 1 })

def resetCounts (m : Memo) : Memo :=
  { m with hits := 0, misses := 0, invalidations := 0, failedBuilds := 0 }

/-- Discards the build and sets all counts to zero; the generation stays. -/
def clear (m : Memo) : Memo :=
  resetCounts { m with entry := none }

/-- An estimate of the bytes that the build takes: three words and three links for a triangle, a word
and a flag for a sample, a word and an edge for a hull vertex. -/
def bytes (m : Memo) : Nat :=
  match m.entry with
  | some ⟨_, .ok t⟩ => 72 * t.size + 9 * t.sampleCount + 24 * t.hull.length
  | _ => 0

/-- The share of requests that found a build; zero without requests. -/
def hitRate {α : Type} [Scalar α] (m : Memo) : α :=
  if m.hits + m.misses = 0 then 0
  else Scalar.ofCount m.hits / Scalar.ofCount (m.hits + m.misses)

/-- One use of the place. -/
inductive Call
  /-- Asks for the build, with what makes it. -/
  | obtain (make : Unit → Built)
  | peek
  | invalidate
  | clear
  | resetCounts

/-- What a use answers: the build asked for, with whether it was made now, or the build kept. -/
inductive Answer
  | built (result : Built) (now : Bool)
  | kept (result : Option Built)
  | done

def run (m : Memo) : Call → Answer × Memo
  | .obtain make =>
    let (result, after) := m.obtain make
    (.built result m.current?.isNone, after)
  | .peek => (.kept m.peek, m)
  | .invalidate => (.done, m.invalidate)
  | .clear => (.done, m.clear)
  | .resetCounts => (.done, m.resetCounts)

end Memo

end DelaunaySurface
