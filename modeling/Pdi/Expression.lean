import Mathlib.Algebra.Group.Int.Defs
import Pdi.Access
import Pdi.NumberText

/-!
# Expressions and their parser

The expressions that a text without string parts stands for: integer and
floating-point literals, references to data and operations on them. The parser is
one function for each parsing function of the source. A function of the source
that works on a copy of the caller's cursor and writes it back when it returns is
`commit`.

The functions call each other through parentheses and indices, so they take fuel;
running out of it is told apart from every error, like moving past the end of the
text.
-/
namespace Pdi.Expression

open Pdi.Cursor Pdi.NumberText Pdi.Datatypes

inductive Operator where
  | plus | minus | mult | div | mod | equal | and | or | gt | lt
  deriving DecidableEq, Repr

def Operator.char : Operator → Char
  | .plus => '+'
  | .minus => '-'
  | .mult => '*'
  | .div => '/'
  | .mod => '%'
  | .equal => '='
  | .and => '&'
  | .or => '|'
  | .gt => '>'
  | .lt => '<'

def Operator.level : Operator → Nat
  | .or => 1
  | .and => 2
  | .equal => 3
  | .gt | .lt => 4
  | .plus | .minus => 5
  | .mult | .div | .mod => 6

mutual
inductive Expr where
  | intLiteral (value : Int)
  /-- A literal is kept as the text that `strtod` converts. -/
  | floatLiteral (text : Text)
  | reference (referenced format : Text) (subelements : Accessors)
  | operation (first : Expr) (operands : Operands)
  deriving DecidableEq

inductive Operands where
  | nil
  | cons (op : Operator) (operand : Expr) (rest : Operands)
  deriving DecidableEq

inductive Accessors where
  | nil
  | index (expression : Expr) (rest : Accessors)
  | member (name : Text) (rest : Accessors)
  deriving DecidableEq
end

/-! ## Characters -/

def operatorAt : Option Char → Option Operator
  | some '+' => some .plus
  | some '-' => some .minus
  | some '*' => some .mult
  | some '/' => some .div
  | some '%' => some .mod
  | some '=' => some .equal
  | some '&' => some .and
  | some '|' => some .or
  | some '>' => some .gt
  | some '<' => some .lt
  | _ => none

def opLevel (c : Option Char) : Nat :=
  match operatorAt c with
  | some op => op.level
  | none => 0

def idStart (c : Char) : Bool := isLetter c || c == '_'
def idPart (c : Char) : Bool := isLetter c || isDigit c || c == '_'

/-- How an error message shows the character at the cursor. -/
def shown (c : Option Char) : String := (c.getD '\x00').toString

def pastEnd : Failure := .undefined "cursor moved past the end of the text"
def noEnd : Failure := .undefined "parsing does not end"

/-- The range of `long`. -/
def longMin : Int := -2 ^ 63
def longMax : Int := 2 ^ 63 - 1

/-! ## The parser -/

def skipSpaces : Parser Failure Unit := skipWhile isSpace

/-- The cursor moves over the character `c`, which must be there. -/
def expect (c : Char) (complaint : String → String) : Parser Failure Unit := do
  let found ← peek
  if found = some c then advance pastEnd else fail (valueError (complaint (shown found)))

def parseOperator (level : Nat) : Parser Failure Operator := commit do
  let found ← peek
  match operatorAt found with
  | none => fail (valueError ("Expected operator, found '" ++ shown found ++ "'"))
  | some op =>
    if op.level ≠ level then fail (valueError "Mixing operator priority")
    else do
      advance pastEnd
      skipSpaces
      pure op

def parseId : Parser Failure Text := commit do
  let text ← remaining
  match text with
  | [] => fail (valueError ("Invalid first ID character: " ++ shown none))
  | c :: rest =>
    if idStart c then do
      moveTo (rest.dropWhile idPart)
      pure (c :: rest.takeWhile idPart)
    else fail (valueError ("Invalid first ID character: " ++ shown (some c)))

/-- `Int_literal::parse`. The two messages of a value out of range are told apart
by comparing the new literal's address with null, so that it is always the first. -/
def parseInt : Parser Failure Expr := commit do
  let text ← remaining
  match strtol text with
  | none => fail (valueError ("Expected integer, found `" ++ String.ofList text ++ "'"))
  | some (n, rest) =>
    if n < longMin ∨ longMax < n then
      fail (valueError ("Value too large for PDI integers: " ++ String.ofList rest))
    else do
      moveTo rest
      skipSpaces
      pure (.intLiteral n)

/-- `Float_literal::parse` -/
def parseFloat : Parser Failure Expr := commit do
  let text ← remaining
  match strtod text with
  | none => fail (valueError ("Expected double, found `" ++ String.ofList text ++ "'"))
  | some (number, rest) => do
    moveTo rest
    skipSpaces
    pure (.floatLiteral number)

/-- The opening brace of a reference, if it has one. -/
def parseCurly : Parser Failure Bool := do
  if (← peek) = some '\x7b' then do
    advance pastEnd
    skipSpaces
    pure true
  else pure false

/-- The format of a reference: from a colon up to the next closing brace, or up to
the end of the text where there is none. -/
def parseFormat : Parser Failure Text := do
  if (← peek) = some ':' then do
    let text ← remaining
    moveTo (text.dropWhile (· != '\x7d'))
    pure (text.takeWhile (· != '\x7d'))
  else pure []

def closeCurly (curly : Bool) : Parser Failure Unit :=
  if curly then do
    expect '\x7d' (fun found => "Expected '\x7d', found " ++ found)
    skipSpaces
  else pure ()

/-- An operation is only built when there is an operator. -/
def Expr.build (first : Expr) : Operands → Expr
  | .nil => first
  | .cons op operand rest => .operation first (.cons op operand rest)

mutual
/-- `Operation::parse`. The source calls itself with the next level up to 7. -/
def parseOperation (fuel level : Nat) : Parser Failure Expr :=
  match fuel with
  | 0 => fail noEnd
  | fuel + 1 =>
    if level = 7 then parseTerm fuel
    else commit do
      let first ← parseOperation fuel (level + 1)
      let operands ← parseOperands fuel level
      pure (first.build operands)

/-- The loop of `Operation::parse`. -/
def parseOperands (fuel level : Nat) : Parser Failure Operands :=
  match fuel with
  | 0 => fail noEnd
  | fuel + 1 => do
    if opLevel (← peek) = level then do
      let op ← parseOperator level
      let operand ← parseOperation fuel (level + 1)
      let rest ← parseOperands fuel level
      pure (.cons op operand rest)
    else pure .nil

def parseTerm (fuel : Nat) : Parser Failure Expr :=
  match fuel with
  | 0 => fail noEnd
  | fuel + 1 => do
    match ← peek with
    | some '(' => commit do
      advance pastEnd
      skipSpaces
      let result ← parseOperation fuel 1
      expect ')' (fun found => "Expected ')', found '" ++ found ++ "'")
      skipSpaces
      pure result
    | some '$' => parseReference fuel
    | _ => do
      -- the choice looks at all that is left of the text, not only at this number
      if '.' ∈ (← remaining) then parseFloat else parseInt

/-- `Reference_expression::parse` -/
def parseReference (fuel : Nat) : Parser Failure Expr :=
  match fuel with
  | 0 => fail noEnd
  | fuel + 1 => commit do
    expect '$' (fun found => "Expected '$', got " ++ found)
    let curly ← parseCurly
    let referenced ← parseId
    skipSpaces
    let subelements ← parseAccessors fuel
    let format ← parseFormat
    closeCurly curly
    pure (.reference referenced format subelements)

/-- The loop of `Reference_expression::parse`. -/
def parseAccessors (fuel : Nat) : Parser Failure Accessors :=
  match fuel with
  | 0 => fail noEnd
  | fuel + 1 => do
    match ← peek with
    | some '[' => do
      advance pastEnd
      skipSpaces
      let expression ← parseOperation fuel 1
      expect ']' (fun found => "Expected ']', found " ++ found)
      skipSpaces
      let rest ← parseAccessors fuel
      pure (.index expression rest)
    | some '.' => do
      advance pastEnd
      skipSpaces
      let name ← parseId
      skipSpaces
      let rest ← parseAccessors fuel
      pure (.member name rest)
    | _ => pure .nil
end

/-- Fuel that is enough for a text. -/
def fuelFor (t : Text) : Nat := 10 * t.length + 10

/-- An operation with space around it. -/
def parseWhole (fuel : Nat) : Parser Failure Expr := do
  skipSpaces
  let result ← parseOperation fuel 1
  skipSpaces
  pure result

/-- The part of `Impl::parse` that reads a text as an operation. Where it does not succeed the
text is taken as a string. -/
def parseText (t : Text) : Option Expr :=
  match (parseWhole (fuelFor t)).run t with
  | ([], .ok e) => some e
  | _ => none

example : parseText " 1 + 2*(3 - 4) ".toList = some (.operation (.intLiteral 1) (.cons .plus
    (.operation (.intLiteral 2) (.cons .mult
      (.operation (.intLiteral 3) (.cons .minus (.intLiteral 4) .nil)) .nil)) .nil)) := by
  decide +kernel

example : parseText "$\x7ba[$i].b:05d\x7d".toList = some (.reference ['a'] ":05d".toList
    (.index (.reference ['i'] [] .nil) (.member ['b'] .nil))) := by
  decide +kernel

end Pdi.Expression
