import Cppnet.Bytes
import Cppnet.Util.Replace

/-!
# Parsing patterns

`expr::parse` of `pattern/pattern.cpp`: the operators of a pattern are sorted by their precedence, with a stack, and
put out together with the literals between them. What is put out is not used.

The position in the pattern is what is left of it. The loop over a literal ends at an operator, and the step to the
next turn passes over it. Behind the end of the pattern, a byte is compared with a backslash, which does not matter.
-/

namespace Cppnet.Pattern

open Lib Util

/-- `is_operator`. -/
def isOperator (c : Byte) : Bool := (sv "|[].*+?()").contains c

/-- `op`, from weak to strong. -/
inductive Op
  | verticalBar
  | bracketOpen
  | bracketClose
  | period
  | asterisk
  | plus
  | questionMark
  | parenOpen
  | parenClose
  deriving DecidableEq

/-- `op_to_char`. -/
def opToChar : Op → Bytes
  | .verticalBar => sv "|"
  | .bracketOpen => sv "["
  | .bracketClose => sv "]"
  | .period => sv "."
  | .asterisk => sv "*"
  | .plus => sv "+"
  | .questionMark => sv "?"
  | .parenOpen => sv "("
  | .parenClose => sv ")"

/-- `operator<=`. -/
def Op.le : Op → Op → Bool
  | .verticalBar, _ | .bracketOpen, _ | .bracketClose, _ => true
  | .period, rhs =>
    match rhs with
    | .verticalBar | .bracketOpen | .bracketClose => false
    | _ => true
  | .asterisk, rhs | .plus, rhs | .questionMark, rhs =>
    match rhs with
    | .verticalBar | .bracketOpen | .bracketClose | .period => false
    | _ => true
  | .parenOpen, rhs | .parenClose, rhs =>
    match rhs with
    | .parenClose | .parenOpen => true
    | _ => false

/-- `parse_exception`. -/
structure ParseException where
  what : String
  deriving DecidableEq

/-- What was put out, and the stack of the operators, the last one first. -/
structure Parser where
  output : List Bytes := []
  operators : List Op := []
  deriving DecidableEq

/-- `handle_op`. -/
def handleOp (o : Op) (output : List Bytes) : List Op → Parser
  | [] => ⟨output, [o]⟩
  | top :: operators =>
    if top ≠ .parenOpen ∧ o.le top then handleOp o (output ++ [opToChar top]) operators
    else ⟨output, o :: top :: operators⟩

/-- The operators up to the last `start` are put out. -/
def popTo (start : Op) (what : String) (output : List Bytes) : List Op → Except ParseException Parser
  | [] => .error ⟨what⟩
  | top :: operators =>
    if top = start then .ok ⟨output, operators⟩ else popTo start what (output ++ [opToChar top]) operators

/-- What is left behind the loop over a literal. -/
def afterLiteral : Bytes → Bytes
  | [] => []
  | [c] => if isOperator c then [c] else []
  | c :: c' :: text =>
    if isOperator c then c :: c' :: text else if c' = ch '\\' then afterLiteral text else afterLiteral (c' :: text)

/-- One turn: the character `c`, with `text` behind it. -/
def parseChar (s : Parser) (c : Byte) (text : Bytes) : Except ParseException (Parser × Bytes) :=
  if c = ch '(' then .ok ({ s with operators := .parenOpen :: s.operators }, text)
  else if c = ch ')' then
    (popTo .parenOpen "mismatched parentheses" s.output s.operators).map fun s => (s, text)
  else if c = ch '|' then .ok (handleOp .verticalBar s.output s.operators, text)
  else if c = ch '[' then .ok ({ s with operators := .bracketOpen :: s.operators }, text)
  else if c = ch ']' then
    (popTo .bracketOpen "mismatched brackets" s.output s.operators).map fun s => (s, text)
  else if c = ch '.' then .ok (handleOp .period s.output s.operators, text)
  else if c = ch '*' then .ok (handleOp .asterisk s.output s.operators, text)
  else if c = ch '+' then .ok (handleOp .plus s.output s.operators, text)
  else if c = ch '?' then .ok (handleOp .questionMark s.output s.operators, text)
  else
    let rest := afterLiteral (c :: text)
    let lit := (c :: text).take ((c :: text).length - rest.length)
    .ok ({ s with output := s.output ++ [replace lit (sv "\\") []] }, rest.drop 1)

/-- The loop over the pattern. -/
def parseTurn (s : Parser × Bytes) : Option (Turn (Parser × Bytes) (Except ParseException Parser)) :=
  match s.2 with
  | [] => some (.done (.ok s.1))
  | c :: text =>
    match parseChar s.1 c text with
    | .ok s => some (.next s)
    | .error e => some (.done (.error e))

/-- The operators that are left are put out. -/
def finish (output : List Bytes) : List Op → Except ParseException (List Bytes)
  | [] => .ok output
  | op :: operators =>
    if op = .parenOpen ∨ op = .parenClose then .error ⟨"mismatched parentheses"⟩
    else finish (output ++ [opToChar op]) operators

/-- `expr::parse`: what is put out. -/
def parse (str : Bytes) : Option (Except ParseException (List Bytes)) :=
  (Loop.run parseTurn (str.length + 1) ({}, str)).map fun r => r.bind fun s => finish s.output s.operators

end Cppnet.Pattern
