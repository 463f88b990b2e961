import Mathlib
import Lucie.Keymap.Context

/-!
# Parsing and printing predicates

The parser is a loop over binary operators with a precedence threshold. It works on the
characters that are left; white space after every token is skipped at once.
-/

set_option autoImplicit false

namespace Lucie

/-- `char::is_whitespace`: the Unicode property `White_Space`. -/
def isWhitespace (c : Char) : Bool :=
  (0x9 ≤ c.toNat && c.toNat ≤ 0xD) || c.toNat == 0x20 || c.toNat == 0x85 || c.toNat == 0xA0 ||
    c.toNat == 0x1680 || (0x2000 ≤ c.toNat && c.toNat ≤ 0x200A) || c.toNat == 0x2028 ||
    c.toNat == 0x2029 || c.toNat == 0x202F || c.toNat == 0x205F || c.toNat == 0x3000

/-- The table behind `char::is_alphanumeric`. Its ASCII part is spelled out; of the other
characters, those that are white space are not alphanumeric. -/
class CharTable where
  isAlphanumeric : Char → Bool
  ascii : ∀ c : Char, c.toNat < 128 → isAlphanumeric c = c.isAlphanum
  not_whitespace : ∀ c, isWhitespace c = true → isAlphanumeric c = false

theorem isAlphanum_range {c : Char} (h : c.isAlphanum = true) :
    65 ≤ c.toNat ∧ c.toNat ≤ 90 ∨ 97 ≤ c.toNat ∧ c.toNat ≤ 122 ∨
      48 ≤ c.toNat ∧ c.toNat ≤ 57 := by
  simp only [Char.isAlphanum, Char.isAlpha, Char.isUpper, Char.isLower, Char.isDigit,
    Bool.or_eq_true, Bool.and_eq_true, decide_eq_true_eq, UInt32.le_iff_toNat_le, ge_iff_le] at h
  change ((65 ≤ c.toNat ∧ c.toNat ≤ 90) ∨ (97 ≤ c.toNat ∧ c.toNat ≤ 122)) ∨
    (48 ≤ c.toNat ∧ c.toNat ≤ 57) at h
  tauto

theorem not_isWhitespace_of_isAlphanum {c : Char} (h : c.isAlphanum = true) :
    isWhitespace c = false := by
  have hrange := isAlphanum_range h
  simp only [isWhitespace, Bool.or_eq_false_iff, Bool.and_eq_false_iff, decide_eq_false_iff_not,
    beq_eq_false_iff_ne]
  omega

/-- The table without the characters outside of ASCII. -/
abbrev CharTable.asciiOnly : CharTable where
  isAlphanumeric := Char.isAlphanum
  ascii _ _ := rfl
  not_whitespace c h := by
    by_contra halnum
    have hnot := not_isWhitespace_of_isAlphanum (Bool.not_eq_false _ ▸ halnum)
    exact Bool.false_ne_true (hnot ▸ h)

/-- `skip_whitespace`. -/
def skipWhitespace (source : List Char) : List Char := source.dropWhile isWhitespace

theorem length_skipWhitespace_le (source : List Char) :
    (skipWhitespace source).length ≤ source.length :=
  List.length_dropWhile_le _ _

/-- `is_vim_operator_char`. -/
def isVimOperatorChar (c : Char) : Bool :=
  c == '>' || c == '<' || c == '~' || c == '"' || c == '?'

/-- `is_identifier_char`. -/
def isIdentifierChar [CharTable] (c : Char) : Bool :=
  CharTable.isAlphanumeric c || c == '_' || c == '-'

/-- The errors of the parser. -/
inductive ParseError
  /-- `unexpected end` -/
  | unexpectedEnd
  /-- `expected a ')'` -/
  | expectedParen
  /-- `unexpected character` and the character -/
  | unexpectedCharacter (c : Char)
  /-- `operands of == must be identifiers` -/
  | equalOperands
  /-- `operands of != must be identifiers` -/
  | notEqualOperands
  deriving DecidableEq

/-- The binary operators of the loop in `parse_expr`. -/
inductive Operator
  | child
  | and
  | or
  | eq
  | neq
  deriving DecidableEq

namespace Operator

/-- The order in which the loop tries the operators. -/
def all : List Operator := [child, and, or, eq, neq]

def text : Operator → List Char
  | child => ['>']
  | and => ['&', '&']
  | or => ['|', '|']
  | eq => ['=', '=']
  | neq => ['!', '=']

/-- `PRECEDENCE_CHILD`, `PRECEDENCE_OR`, `PRECEDENCE_AND` and `PRECEDENCE_EQ`. -/
def precedence : Operator → ℕ
  | child => 1
  | or => 2
  | and => 3
  | eq => 4
  | neq => 4

end Operator

/-- `PRECEDENCE_NOT`. -/
def precedenceNot : ℕ := 5

namespace KeyBindingContextPredicate

/-- `new_eq`. -/
def newEq : KeyBindingContextPredicate → KeyBindingContextPredicate →
    Except ParseError KeyBindingContextPredicate
  | identifier left, identifier right => .ok (equal left right)
  | _, _ => .error .equalOperands

/-- `new_neq`. -/
def newNeq : KeyBindingContextPredicate → KeyBindingContextPredicate →
    Except ParseError KeyBindingContextPredicate
  | identifier left, identifier right => .ok (notEqual left right)
  | _, _ => .error .notEqualOperands

/-- The constructor beside an operator: `new_child`, `new_and`, `new_or`, `new_eq` and
`new_neq`. -/
def constructor : Operator → KeyBindingContextPredicate → KeyBindingContextPredicate →
    Except ParseError KeyBindingContextPredicate
  | .child, left, right => .ok (descendant left right)
  | .and, left, right => .ok (and left right)
  | .or, left, right => .ok (or left right)
  | .eq, left, right => newEq left right
  | .neq, left, right => newNeq left right

/-- The first operator that the source starts with, among those that bind tightly enough. -/
def nextOperator (source : List Char) (minPrecedence : ℕ) : Option Operator :=
  Operator.all.find? fun operator =>
    operator.text.isPrefixOf source && minPrecedence ≤ operator.precedence

/-- A predicate and the source after it. -/
abbrev Parsed := Except ParseError (KeyBindingContextPredicate × List Char)

mutual

/-- `parse_expr`. It is `none` when the fuel runs out. -/
def parseExpr [CharTable] : ℕ → List Char → ℕ → Option Parsed
  | 0, _, _ => none
  | fuel + 1, source, minPrecedence =>
    match parsePrimary fuel source with
    | some (.ok (predicate, rest)) => parseLoop fuel predicate rest minPrecedence
    | failed => failed

/-- The loop of `parse_expr`. -/
def parseLoop [CharTable] : ℕ → KeyBindingContextPredicate → List Char → ℕ → Option Parsed
  | 0, _, _, _ => none
  | fuel + 1, predicate, source, minPrecedence =>
    match nextOperator source minPrecedence with
    | none => some (.ok (predicate, source))
    | some operator =>
      let source := skipWhitespace (source.drop operator.text.length)
      match parseExpr fuel source (operator.precedence + 1) with
      | some (.ok (right, rest)) =>
        match constructor operator predicate right with
        | .ok predicate => parseLoop fuel predicate rest minPrecedence
        | .error error => some (.error error)
      | failed => failed

/-- `parse_primary`. -/
def parsePrimary [CharTable] : ℕ → List Char → Option Parsed
  | 0, _ => none
  | _ + 1, [] => some (.error .unexpectedEnd)
  | fuel + 1, next :: source =>
    if next = '(' then
      match parseExpr fuel (skipWhitespace source) 0 with
      | some (.ok (predicate, ')' :: rest)) => some (.ok (predicate, skipWhitespace rest))
      | some (.ok _) => some (.error .expectedParen)
      | failed => failed
    else if next = '!' then
      match parseExpr fuel (skipWhitespace source) precedenceNot with
      | some (.ok (predicate, rest)) => some (.ok (not predicate, rest))
      | failed => failed
    else if isIdentifierChar next then
      let name := (next :: source).takeWhile fun c => isIdentifierChar c || isVimOperatorChar c
      let rest := (next :: source).dropWhile fun c => isIdentifierChar c || isVimOperatorChar c
      some (.ok (identifier (String.ofList name), skipWhitespace rest))
    else if isVimOperatorChar next then
      some (.ok (identifier (String.ofList [next]), skipWhitespace source))
    else some (.error (.unexpectedCharacter next))

end

/-- `KeyBindingContextPredicate::parse`. Every second call consumes a character. -/
def parse [CharTable] (source : String) :
    Option (Except ParseError KeyBindingContextPredicate) :=
  let source := skipWhitespace source.toList
  match parseExpr (2 * source.length + 2) source 0 with
  | none => none
  | some (.error error) => some (.error error)
  | some (.ok (predicate, [])) => some (.ok predicate)
  | some (.ok (_, next :: _)) => some (.error (.unexpectedCharacter next))

/-- `Display`. -/
def display : KeyBindingContextPredicate → String
  | identifier name => name
  | equal left right => left ++ " == " ++ right
  | notEqual left right => left ++ " != " ++ right
  | not pred => "!" ++ pred.display
  | descendant parent child => parent.display ++ " > " ++ child.display
  | and left right => "(" ++ left.display ++ " && " ++ right.display ++ ")"
  | or left right => "(" ++ left.display ++ " || " ++ right.display ++ ")"

end KeyBindingContextPredicate

end Lucie
