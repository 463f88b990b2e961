import Lucie.Keymap.ParsePredicate

/-!
# The grammar of predicates

The language on its own terms: tokens with white space around them, and a grammar that is
stratified by the precedence of the operators. `Reads` is the same spelling of tokens from
left to right, as a parser meets it.
-/

set_option autoImplicit false

namespace Lucie

open KeyBindingContextPredicate

/-- The characters that continue a name. -/
def isNameChar [CharTable] (c : Char) : Bool := isIdentifierChar c || isVimOperatorChar c

/-- The tokens. A vim operator on its own is a name; inside of a name it is part of it. -/
inductive Token
  | word (name : List Char)
  | vim (c : Char)
  | openParen
  | closeParen
  | bang
  | operator (op : Operator)

namespace Token

def text : Token → List Char
  | word name => name
  | vim c => [c]
  | openParen => ['(']
  | closeParen => [')']
  | bang => ['!']
  | operator op => op.text

/-- The characters of a name are those that the lexer allows. -/
def Valid [CharTable] : Token → Prop
  | word name => ∃ c cs, name = c :: cs ∧ isIdentifierChar c = true ∧ ∀ d ∈ cs, isNameChar d = true
  | vim c => isVimOperatorChar c = true
  | _ => True

/-- A word is as long as possible. -/
def Ends [CharTable] (token : Token) (after : List Char) : Prop :=
  ∀ name, token = word name → ∀ c ∈ after.head?, isNameChar c = false

end Token

/-- The text consists of the tokens, with any white space after each of them. -/
inductive Spells [CharTable] : List Token → List Char → Prop
  | nil : Spells [] []
  | cons {token : Token} {tokens : List Token} {text : List Char} (space : List Char)
      (hvalid : token.Valid) (hspace : ∀ c ∈ space, isWhitespace c = true)
      (hends : token.Ends (space ++ text)) (h : Spells tokens text) :
      Spells (token :: tokens) (token.text ++ space ++ text)

/-- The trees of the grammar. -/
inductive Expr
  | name (text : List Char)
  | not (e : Expr)
  | binary (op : Operator) (left right : Expr)
  deriving DecidableEq

/-- The grammar. A phrase of a level is one of the next level, or two operands around an
operator of this level, the left one of the same level. The tightest level are negations,
names and predicates in parentheses. -/
inductive Derives : ℕ → List Token → Expr → Prop
  | next {level : ℕ} {tokens : List Token} {e : Expr} (h : Derives (level + 1) tokens e) :
      Derives level tokens e
  | binary {left right : List Token} {l r : Expr} (op : Operator)
      (hleft : Derives op.precedence left l) (hright : Derives (op.precedence + 1) right r) :
      Derives op.precedence (left ++ .operator op :: right) (.binary op l r)
  | not {tokens : List Token} {e : Expr} (h : Derives precedenceNot tokens e) :
      Derives precedenceNot (.bang :: tokens) (.not e)
  | paren {tokens : List Token} {e : Expr} (h : Derives Operator.child.precedence tokens e) :
      Derives precedenceNot (.openParen :: tokens ++ [.closeParen]) e
  | word (name : List Char) : Derives precedenceNot [.word name] (.name name)
  | vim (c : Char) : Derives precedenceNot [.vim c] (.name [c])

/-- The source is a phrase of the loosest level, with any white space around its tokens. -/
def Generates [CharTable] (source : String) (e : Expr) : Prop :=
  ∃ space text tokens, source.toList = space ++ text ∧ (∀ c ∈ space, isWhitespace c = true) ∧
    Spells tokens text ∧ Derives Operator.child.precedence tokens e

/-- The predicate of a tree, if the operands of `==` and `!=` are names. -/
def Expr.predicate : Expr → Option KeyBindingContextPredicate
  | .name text => some (identifier (String.ofList text))
  | .not e => e.predicate.map .not
  | .binary op left right =>
    match left.predicate, right.predicate with
    | some l, some r => (constructor op l r).toOption
    | _, _ => none

/-- The tokens are read off the front of a source, skipping white space after each. -/
inductive Reads [CharTable] : List Token → List Char → List Char → Prop
  | nil (source : List Char) : Reads [] source source
  | cons {token : Token} {tokens : List Token} {after rest : List Char} (hvalid : token.Valid)
      (hends : token.Ends after) (h : Reads tokens (skipWhitespace after) rest) :
      Reads (token :: tokens) (token.text ++ after) rest

theorem mem_of_isVimOperatorChar {c : Char} (h : isVimOperatorChar c = true) :
    c ∈ ['>', '<', '~', '"', '?'] := by
  simpa [isVimOperatorChar, or_assoc] using h

theorem skipWhitespace_append {space text : List Char}
    (hspace : ∀ c ∈ space, isWhitespace c = true) :
    skipWhitespace (space ++ text) = skipWhitespace text :=
  List.dropWhile_append_of_pos hspace

section

variable [CharTable]

theorem not_isIdentifierChar {c : Char} (h : c ∈ ['(', ')', '!', '>', '<', '~', '"', '?', ' ']) :
    isIdentifierChar c = false := by
  have hascii : c.toNat < 128 ∧ c.isAlphanum = false ∧ c ≠ '_' ∧ c ≠ '-' := by
    simp only [List.mem_cons, List.not_mem_nil, or_false] at h
    obtain rfl | rfl | rfl | rfl | rfl | rfl | rfl | rfl | rfl := h <;> decide
  obtain ⟨hlt, halnum, hunderscore, hdash⟩ := hascii
  simp [isIdentifierChar, CharTable.ascii c hlt, halnum, hunderscore, hdash]

theorem not_isWhitespace_of_isIdentifierChar {c : Char} (h : isIdentifierChar c = true) :
    isWhitespace c = false := by
  simp only [isIdentifierChar, Bool.or_eq_true, beq_iff_eq] at h
  obtain (h | rfl) | rfl := h
  · by_contra hspace
    have hnot := CharTable.not_whitespace c (Bool.not_eq_false _ ▸ hspace)
    exact Bool.false_ne_true (hnot ▸ h)
  · decide
  · decide

theorem not_isIdentifierChar_of_isVimOperatorChar {c : Char} (h : isVimOperatorChar c = true) :
    isIdentifierChar c = false := by
  apply not_isIdentifierChar
  have hmem := mem_of_isVimOperatorChar h
  simp only [List.mem_cons, List.not_mem_nil, or_false] at hmem ⊢
  tauto

/-- A token starts with a character that is no white space. -/
theorem Token.text_eq_cons {token : Token} (h : token.Valid) :
    ∃ c cs, token.text = c :: cs ∧ isWhitespace c = false := by
  cases token with
  | word name =>
    obtain ⟨c, cs, rfl, hc, _⟩ := h
    exact ⟨c, cs, rfl, not_isWhitespace_of_isIdentifierChar hc⟩
  | vim c =>
    refine ⟨c, [], rfl, ?_⟩
    have hmem := mem_of_isVimOperatorChar h
    simp only [List.mem_cons, List.not_mem_nil, or_false] at hmem
    obtain rfl | rfl | rfl | rfl | rfl := hmem <;> decide
  | openParen => exact ⟨'(', [], rfl, by decide⟩
  | closeParen => exact ⟨')', [], rfl, by decide⟩
  | bang => exact ⟨'!', [], rfl, by decide⟩
  | operator op => cases op <;> exact ⟨_, _, rfl, by decide⟩

/-- A spelled text starts with a token, so there is nothing to skip. -/
theorem Spells.skipWhitespace_eq {tokens : List Token} {text : List Char}
    (h : Spells tokens text) : skipWhitespace text = text := by
  cases h with
  | nil => rfl
  | cons space hvalid _ _ _ =>
    obtain ⟨c, cs, htext, hc⟩ := Token.text_eq_cons hvalid
    simp [htext, skipWhitespace, List.dropWhile_cons_of_neg, hc]

theorem Spells.reads {tokens : List Token} {text : List Char} (h : Spells tokens text) :
    Reads tokens text [] := by
  induction h with
  | nil => exact .nil []
  | cons space hvalid hspace hends h ih =>
    rw [List.append_assoc]
    refine .cons hvalid hends ?_
    rwa [skipWhitespace_append hspace, h.skipWhitespace_eq]

theorem Reads.spells {tokens : List Token} {source : List Char} (h : Reads tokens source []) :
    Spells tokens source := by
  generalize hrest : ([] : List Char) = rest at h
  induction h with
  | nil => exact hrest ▸ .nil
  | @cons token tokens after rest hvalid hends _ ih =>
    have hsplit : after = after.takeWhile isWhitespace ++ skipWhitespace after :=
      List.takeWhile_append_dropWhile.symm
    rw [hsplit, ← List.append_assoc]
    refine .cons _ hvalid ?_ (hsplit ▸ hends) (ih hrest)
    exact fun c hc => List.mem_takeWhile_imp hc

theorem Reads.append {tokens tokens' : List Token} {source mid rest : List Char}
    (h : Reads tokens source mid) (h' : Reads tokens' mid rest) :
    Reads (tokens ++ tokens') source rest := by
  induction h with
  | nil => exact h'
  | cons hvalid hends _ ih => exact .cons hvalid hends (ih h')

theorem Reads.split {tokens tokens' : List Token} {source rest : List Char}
    (h : Reads (tokens ++ tokens') source rest) :
    ∃ mid, Reads tokens source mid ∧ Reads tokens' mid rest := by
  induction tokens generalizing source with
  | nil => exact ⟨source, .nil source, h⟩
  | cons token tokens ih =>
    cases h with
    | cons hvalid hends h =>
      obtain ⟨mid, hleft, hright⟩ := ih h
      exact ⟨mid, .cons hvalid hends hleft, hright⟩

end

/-- A phrase of a level is one of any looser level. -/
theorem Derives.mono {level level' : ℕ} {tokens : List Token} {e : Expr}
    (h : Derives level tokens e) (hle : level' ≤ level) : Derives level' tokens e := by
  obtain ⟨k, rfl⟩ := Nat.exists_eq_add_of_le hle
  induction k with
  | zero => exact h
  | succ k ih => exact ih (.next h) (Nat.le_add_right _ _)

theorem Operator.one_le_precedence (op : Operator) : 1 ≤ op.precedence := by
  cases op <;> decide

theorem Operator.precedence_lt (op : Operator) : op.precedence < precedenceNot := by
  cases op <;> decide

/-- The threshold zero is as good as the loosest level. -/
theorem Derives.loosest {tokens : List Token} {e : Expr} (h : Derives 0 tokens e) :
    Derives Operator.child.precedence tokens e := by
  generalize hlevel : 0 = level at h
  cases h with
  | next h =>
    subst hlevel
    exact h
  | binary op => exact absurd op.one_le_precedence (by omega)
  | _ => exact absurd hlevel (by decide)

end Lucie
