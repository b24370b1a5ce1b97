import DelaunaySurface.Formula.Basic
import DelaunaySurface.Double.Numeral
import DelaunaySurface.Text.Blank
/-!
# Reading formulas

One pass from left to right. The reader expects either an operand or what may follow one, and keeps
a stack of what is still open: parentheses, argument lists, signs, and operators whose right operand
is being read. `+` and `-` bind weakest, then `*`, `/` and `%`, then a sign, then `^`; `^` groups to
the right and all others to the left.
-/

namespace DelaunaySurface

namespace Operator

def ofChar? : Char → Option Operator
  | '+' => some .add
  | '-' => some .subtract
  | '*' => some .multiply
  | '/' => some .divide
  | '%' => some .remainder
  | '^' => some .power
  | _ => none

/-- How tightly an operator binds. -/
def level : Operator → Nat
  | add | subtract => 1
  | multiply | divide | remainder => 2
  | power => 4

/-- How tightly a sign binds. -/
def signLevel : Nat := 3

/-- A construct of the given level on the left ends before the operator. -/
def endsLeft (op : Operator) (level : Nat) : Bool :=
  if op = power then op.level < level else op.level ≤ level

end Operator

namespace Formula

/-- What is open around the place being read. -/
inductive Frame
  | group
  /-- A function with the arguments read so far, the last one first. -/
  | call (name : String) (arguments : List Formula)
  /-- A sign that waits for its operand. -/
  | signed (minus : Bool)
  /-- An operator that waits for its right operand. -/
  | binary (operator : Operator) (left : Formula)

def Frame.isOpenParenthesis : Frame → Bool
  | .group | .call .. => true
  | .signed _ | .binary .. => false

/-- What may come next. -/
inductive Expected
  | operand
  /-- An operator, a comma or a closing parenthesis after `left`. -/
  | continuation (left : Formula)

/-- Completes the innermost signs and operators with the operand `e`, as long as their level passes
the test; stops at a parenthesis. -/
def complete (ends : Nat → Bool) : List Frame → Formula → Formula × List Frame
  | .signed minus :: frames, e =>
    if ends Operator.signLevel then complete ends frames (.signed minus e) else (e, .signed minus :: frames)
  | .binary op left :: frames, e =>
    if ends op.level then complete ends frames (.binary op left e) else (e, .binary op left :: frames)
  | frames, e => (e, frames)

/-- Space, tab, carriage return and line feed may stand between tokens. -/
def isSpacing (c : Char) : Bool :=
  c = ' ' || c = '\t' || c = '\r' || c = '\n'

def beginsName (c : Char) : Bool :=
  c.isAlpha || c = '_'

def continuesName (c : Char) : Bool :=
  c.isAlphanum || c = '_'

/-- What can begin an operand. -/
inductive Opening
  | number (value : Float)
  | name (name : String)
  | call (name : String)
  | sign (minus : Bool)
  | parenthesis

/-- The length of the exponent at the head of the text, 0 without one; none when it lacks digits. -/
def exponentLength? : List Char → Option Nat
  | c :: cs =>
    if c = 'e' || c = 'E' then
      let signs := match cs with
        | s :: _ => if s = '+' || s = '-' then 1 else 0
        | [] => 0
      let digits := (cs.drop signs).takeWhile Char.isDigit
      if digits.isEmpty then none else some (1 + signs + digits.length)
    else some 0
  | [] => some 0

/-- The length of what follows the first digit of a numeral: more digits, a point and digits, an
exponent. -/
def numeralLength? (cs : List Char) : Option Nat :=
  let whole := (cs.takeWhile Char.isDigit).length
  let point := match cs.drop whole with
    | '.' :: r => 1 + (r.takeWhile Char.isDigit).length
    | _ => 0
  (exponentLength? (cs.drop (whole + point))).map (whole + point + ·)

/-- Reads what begins an operand with `c`, and how many of the characters after `c` belong to it. -/
def opening? (c : Char) (cs : List Char) : Option (Opening × Nat) :=
  if c.isDigit then do
    let n ← numeralLength? cs
    let value ← Double.read? (c :: cs.take n)
    return (.number value, n)
  else if beginsName c then
    let rest := cs.takeWhile continuesName
    let name := String.ofList (c :: rest)
    let after := cs.drop rest.length
    let spacing := (after.takeWhile isSpacing).length
    match after.drop spacing with
    | '(' :: _ => some (.call name, rest.length + spacing + 1)
    | _ => some (.name name, rest.length)
  else match c with
    | '+' => some (.sign false, 0)
    | '-' => some (.sign true, 0)
    | '(' => some (.parenthesis, 0)
    | _ => none

def afterOpening (frames : List Frame) : Opening → List Frame × Expected
  | .number value => (frames, .continuation (.number value))
  | .name name => (frames, .continuation (.variable name))
  | .call name => (.call name [] :: frames, .operand)
  | .sign minus => (.signed minus :: frames, .operand)
  | .parenthesis => (.group :: frames, .operand)

/-- The state after the character `c` behind the operand `left`; none when it cannot stand there. A
comma may stand only directly inside the parentheses of a function. -/
def afterOperand? (c : Char) (frames : List Frame) (left : Formula) : Option (List Frame × Expected) :=
  match c with
  | ')' =>
    match complete (fun _ => true) frames left with
    | (e, .group :: outer) => some (outer, .continuation e)
    | (e, .call name arguments :: outer) =>
      some (outer, .continuation (.call name (arguments.reverse ++ [e])))
    | _ => none
  | ',' =>
    match complete (fun _ => true) frames left with
    | (e, .call name arguments :: outer) => some (.call name (e :: arguments) :: outer, .operand)
    | _ => none
  | _ => (Operator.ofChar? c).map fun op =>
    let (e, outer) := complete op.endsLeft frames left
    (.binary op e :: outer, .operand)

/-- Reads on from `offset`. All characters before it are ASCII, so characters count bytes. -/
def readFrom (offset : Nat) (frames : List Frame) (expected : Expected) : List Char → Except Error Formula
  | [] =>
    match expected with
    | .operand => .error .missingOperand
    | .continuation left =>
      match complete (fun _ => true) frames left with
      | (e, []) => .ok e
      | (_, unclosed) => .error (.unclosed (unclosed.countP Frame.isOpenParenthesis))
  | c :: cs =>
    if isSpacing c then readFrom (offset + 1) frames expected cs
    else
      match expected with
      | .operand =>
        match opening? c cs with
        | none => .error (.unexpected offset)
        | some (o, used) =>
          let (frames, expected) := afterOpening frames o
          readFrom (offset + 1 + used) frames expected (cs.drop used)
      | .continuation left =>
        match afterOperand? c frames left with
        | none => .error (.unexpected offset)
        | some (frames, expected) => readFrom (offset + 1) frames expected cs
termination_by cs => cs.length
decreasing_by all_goals simp only [List.length_cons, List.length_drop]; omega

/-- Reads a formula; blanks around it do not count, not even for offsets. -/
def read (text : String) : Except Error Formula :=
  readFrom 0 [] .operand (Text.trim text.toList)

end Formula

end DelaunaySurface
