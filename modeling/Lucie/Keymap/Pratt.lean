import Lucie.Keymap.Grammar

/-!
# Reading phrases with a threshold

The parser as a relation between a source, a tree and the source that is left. It reads the
phrases of the grammar and determines their trees, so the grammar is unambiguous.
-/

set_option autoImplicit false

namespace Lucie

open KeyBindingContextPredicate

/-- What is read: an expression above a threshold, the rest of one whose left operand has
been read, or a primary. -/
inductive Goal
  | expr (minPrecedence : ℕ)
  | loop (left : Expr) (minPrecedence : ℕ)
  | primary

/-- The steps of the parser. -/
inductive Pratt [CharTable] : Goal → List Char → Expr → List Char → Prop
  | expr {m : ℕ} {source mid rest : List Char} {left e : Expr}
      (hprimary : Pratt .primary source left mid) (hloop : Pratt (.loop left m) mid e rest) :
      Pratt (.expr m) source e rest
  | stop {m : ℕ} {source : List Char} {e : Expr} (hnext : nextOperator source m = none) :
      Pratt (.loop e m) source e source
  | step {m : ℕ} {source mid rest : List Char} {left right e : Expr} {op : Operator}
      (hnext : nextOperator source m = some op)
      (hright : Pratt (.expr (op.precedence + 1))
        (skipWhitespace (source.drop op.text.length)) right mid)
      (hloop : Pratt (.loop (.binary op left right) m) mid e rest) :
      Pratt (.loop left m) source e rest
  | paren {source rest : List Char} {e : Expr}
      (h : Pratt (.expr 0) (skipWhitespace source) e (')' :: rest)) :
      Pratt .primary ('(' :: source) e (skipWhitespace rest)
  | not {source rest : List Char} {e : Expr}
      (h : Pratt (.expr precedenceNot) (skipWhitespace source) e rest) :
      Pratt .primary ('!' :: source) (.not e) rest
  | word {source : List Char} {c : Char} (hc : isIdentifierChar c = true) :
      Pratt .primary (c :: source) (.name ((c :: source).takeWhile isNameChar))
        (skipWhitespace ((c :: source).dropWhile isNameChar))
  | vim {source : List Char} {c : Char} (hc : isVimOperatorChar c = true) :
      Pratt .primary (c :: source) (.name [c]) (skipWhitespace source)

/-- No operator at the front of the source binds more tightly. -/
def Stops (level : ℕ) (source : List Char) : Prop :=
  ∀ op : Operator, op.text <+: source → op.precedence ≤ level

theorem Operator.mem_all (op : Operator) : op ∈ Operator.all := by
  cases op <;> decide

theorem nextOperator_eq_none {source : List Char} {m : ℕ} :
    nextOperator source m = none ↔
      ∀ op : Operator, op.text <+: source → op.precedence < m := by
  simp only [nextOperator, List.find?_eq_none, Bool.and_eq_true, List.isPrefixOf_iff_prefix,
    decide_eq_true_eq, not_and, not_le]
  constructor
  · exact fun h op => h op op.mem_all
  · exact fun h op _ => h op

theorem of_nextOperator {source : List Char} {m : ℕ} {op : Operator}
    (h : nextOperator source m = some op) : op.text <+: source ∧ m ≤ op.precedence := by
  simpa using List.find?_some h

/-- The operators start with different characters. -/
theorem Operator.eq_of_text_prefix {op op' : Operator} {after : List Char}
    (h : op'.text <+: op.text ++ after) : op' = op := by
  cases op <;> cases op' <;> first | rfl | simp [text] at h

theorem nextOperator_text {op : Operator} {after : List Char} {m : ℕ} (hm : m ≤ op.precedence) :
    nextOperator (op.text ++ after) m = some op := by
  cases hnext : nextOperator (op.text ++ after) m with
  | none =>
    have hlt := nextOperator_eq_none.mp hnext op (List.prefix_append _ _)
    omega
  | some op' => rw [Operator.eq_of_text_prefix (of_nextOperator hnext).1]

theorem drop_text (op : Operator) (after : List Char) :
    (op.text ++ after).drop op.text.length = after :=
  List.drop_left

theorem stops_precedenceNot (source : List Char) : Stops precedenceNot source :=
  fun op _ => op.precedence_lt.le

variable [CharTable]

/-- The steps determine the tree. -/
theorem Pratt.unique {goal : Goal} {source rest rest' : List Char} {e e' : Expr}
    (h : Pratt goal source e rest) (h' : Pratt goal source e' rest') : e = e' ∧ rest = rest' := by
  induction h generalizing e' rest' with
  | expr _ _ ihprimary ihloop =>
    cases h' with
    | expr hprimary hloop =>
      obtain ⟨rfl, rfl⟩ := ihprimary hprimary
      exact ihloop hloop
  | stop hnext =>
    cases h' with
    | stop => exact ⟨rfl, rfl⟩
    | step hnext' => simp [hnext] at hnext'
  | step hnext _ _ ihright ihloop =>
    cases h' with
    | stop hnext' => simp [hnext] at hnext'
    | step hnext' hright hloop =>
      obtain rfl := Option.some.inj (hnext.symm.trans hnext')
      obtain ⟨rfl, rfl⟩ := ihright hright
      exact ihloop hloop
  | paren _ ih =>
    cases h' with
    | paren h =>
      obtain ⟨rfl, hrest⟩ := ih h
      obtain rfl := (List.cons.inj hrest).2
      exact ⟨rfl, rfl⟩
    | word hc => simp [not_isIdentifierChar] at hc
    | vim hc => simp [isVimOperatorChar] at hc
  | not _ ih =>
    cases h' with
    | not h =>
      obtain ⟨rfl, rfl⟩ := ih h
      exact ⟨rfl, rfl⟩
    | word hc => simp [not_isIdentifierChar] at hc
    | vim hc => simp [isVimOperatorChar] at hc
  | word hc =>
    cases h' with
    | paren => simp [not_isIdentifierChar] at hc
    | not => simp [not_isIdentifierChar] at hc
    | word => exact ⟨rfl, rfl⟩
    | vim hc' => simp [not_isIdentifierChar_of_isVimOperatorChar hc'] at hc
  | vim hc =>
    cases h' with
    | paren => simp [isVimOperatorChar] at hc
    | not => simp [isVimOperatorChar] at hc
    | word hc' => simp [not_isIdentifierChar_of_isVimOperatorChar hc] at hc'
    | vim => exact ⟨rfl, rfl⟩

/-- What reading towards a goal says about the tokens. A loop continues a phrase whose level
is as loose as the operators that may follow. -/
def Goal.Reached (source : List Char) (e : Expr) (rest : List Char) : Goal → Prop
  | .expr m => m ≤ precedenceNot → ∃ tokens, Reads tokens source rest ∧ Derives m tokens e ∧
      nextOperator rest m = none
  | .loop left m => ∀ before level, Derives level before left → m ≤ level → Stops level source →
      ∃ tokens, Reads tokens source rest ∧ Derives m (before ++ tokens) e ∧
        nextOperator rest m = none
  | .primary => ∃ tokens, Reads tokens source rest ∧ Derives precedenceNot tokens e

theorem reads_token {token : Token} {after : List Char} (hvalid : token.Valid)
    (hends : token.Ends after) :
    Reads [token] (token.text ++ after) (skipWhitespace after) :=
  .cons hvalid hends (.nil _)

theorem Token.ends_of_not_word {token : Token} (h : ∀ name, token ≠ .word name)
    (after : List Char) : token.Ends after :=
  fun name heq => absurd heq (h name)

theorem ends_dropWhile (name source : List Char) :
    (Token.word name).Ends (source.dropWhile isNameChar) := by
  intro _ _ c hc
  have hne := List.head?_dropWhile_not isNameChar source
  rw [Option.mem_def.mp hc] at hne
  simpa using hne

/-- The longest name is a word. -/
theorem valid_takeWhile {c : Char} {source : List Char} (hc : isIdentifierChar c = true) :
    (Token.word ((c :: source).takeWhile isNameChar)).Valid := by
  refine ⟨c, source.takeWhile isNameChar, ?_, hc, fun d hd => List.mem_takeWhile_imp hd⟩
  rw [List.takeWhile_cons_of_pos]
  simp [isNameChar, hc]

/-- What is read is a phrase of the grammar. -/
theorem Pratt.reached {goal : Goal} {source rest : List Char} {e : Expr}
    (h : Pratt goal source e rest) : goal.Reached source e rest := by
  induction h with
  | @expr m source mid rest left e _ _ ihprimary ihloop =>
    intro hm
    obtain ⟨before, hbefore, hleft⟩ := ihprimary
    obtain ⟨tokens, htokens, he, hnext⟩ :=
      ihloop before precedenceNot hleft hm (stops_precedenceNot mid)
    exact ⟨before ++ tokens, hbefore.append htokens, he, hnext⟩
  | @stop m source e hnext =>
    intro before level hleft hm _
    refine ⟨[], .nil source, ?_, hnext⟩
    rw [List.append_nil]
    exact hleft.mono hm
  | @step m source mid rest left right e op hnext _ _ ihright ihloop =>
    intro before level hleft hm hstops
    obtain ⟨hpre, hle⟩ := of_nextOperator hnext
    obtain ⟨after, rfl⟩ := hpre
    rw [drop_text] at ihright
    obtain ⟨operand, hoperand, hright, hstop⟩ := ihright op.precedence_lt
    have hlevel := hstops op (List.prefix_append _ _)
    have hbinary := Derives.binary op (hleft.mono hlevel) hright
    have hstops' : Stops op.precedence mid := by
      intro op' hop'
      have hlt := nextOperator_eq_none.mp hstop op' hop'
      omega
    obtain ⟨tokens, htokens, he, hnext'⟩ := ihloop _ _ hbinary hle hstops'
    refine ⟨.operator op :: (operand ++ tokens), ?_, ?_, hnext'⟩
    · exact .cons trivial (Token.ends_of_not_word (by simp) after) (hoperand.append htokens)
    · simpa using he
  | @paren source rest e _ ih =>
    obtain ⟨tokens, htokens, he, _⟩ := ih (Nat.zero_le _)
    refine ⟨.openParen :: tokens ++ [.closeParen], ?_, .paren he.loosest⟩
    have hclose : Reads [.closeParen] (')' :: rest) (skipWhitespace rest) :=
      reads_token trivial (Token.ends_of_not_word (by simp) rest)
    exact .cons trivial (Token.ends_of_not_word (by simp) source) (htokens.append hclose)
  | @not source rest e _ ih =>
    obtain ⟨tokens, htokens, he, _⟩ := ih le_rfl
    exact ⟨.bang :: tokens, .cons trivial (Token.ends_of_not_word (by simp) source) htokens,
      .not he⟩
  | @word source c hc =>
    refine ⟨[.word ((c :: source).takeWhile isNameChar)], ?_, .word _⟩
    have hreads := reads_token (@valid_takeWhile _ c source hc) (ends_dropWhile _ (c :: source))
    rwa [Token.text, List.takeWhile_append_dropWhile] at hreads
  | @vim source c hc =>
    exact ⟨[.vim c], @reads_token _ (.vim c) _ hc (Token.ends_of_not_word (by simp) source),
      .vim c⟩

/-- Every phrase is read, up to what the loop makes of the source behind it. -/
theorem Derives.pratt {level : ℕ} {tokens : List Token} {e : Expr} (h : Derives level tokens e)
    {source rest : List Char} (hreads : Reads tokens source rest) (hstops : Stops level rest)
    {m : ℕ} (hm : m ≤ level) {e' : Expr} {rest' : List Char}
    (hloop : Pratt (.loop e m) rest e' rest') : Pratt (.expr m) source e' rest' := by
  induction h generalizing source rest m e' rest' with
  | next _ ih =>
    apply ih hreads ?_ (hm.trans (Nat.le_succ _)) hloop
    exact fun op hop => (hstops op hop).trans (Nat.le_succ _)
  | binary op _ _ ihleft ihright =>
    obtain ⟨mid, hleft, hright⟩ := hreads.split
    cases hright with
    | @cons _ _ after _ _ _ hright =>
      have hnext := @nextOperator_text op after m hm
      have hstop : nextOperator rest (op.precedence + 1) = none :=
        nextOperator_eq_none.mpr fun op' hop' => Nat.lt_succ_of_le (hstops op' hop')
      have hoperand := ihright hright (fun op' hop' => (hstops op' hop').trans (Nat.le_succ _))
        le_rfl (.stop hstop)
      apply ihleft hleft ?_ hm
      · refine .step hnext ?_ hloop
        simpa only [Token.text, drop_text] using hoperand
      · intro op' hop'
        rw [Operator.eq_of_text_prefix hop']
  | not _ ih =>
    cases hreads with
    | @cons _ _ after _ _ _ hreads =>
      have hstop : nextOperator rest precedenceNot = none :=
        nextOperator_eq_none.mpr fun op _ => op.precedence_lt
      exact .expr (.not (ih hreads hstops le_rfl (.stop hstop))) hloop
  | paren _ ih =>
    cases hreads with
    | @cons _ _ after _ _ _ hreads =>
      obtain ⟨mid, hinner, hclose⟩ := hreads.split
      cases hclose with
      | @cons _ _ after' _ _ _ hclose =>
        cases hclose with
        | nil =>
          have hno : ∀ op : Operator, ¬op.text <+: Token.closeParen.text ++ after' := by
            intro op
            cases op <;> simp [Operator.text, Token.text]
          have hstop : nextOperator (Token.closeParen.text ++ after') 0 = none :=
            nextOperator_eq_none.mpr fun op hop => absurd hop (hno op)
          have hexpr := ih hinner (fun op hop => absurd hop (hno op)) (Nat.zero_le _) (.stop hstop)
          exact .expr (.paren hexpr) hloop
  | word name =>
    cases hreads with
    | @cons _ _ after _ hvalid hends hreads =>
      cases hreads with
      | nil =>
        obtain ⟨c, cs, rfl, hc, hcs⟩ := hvalid
        have hname : ∀ d ∈ c :: cs, isNameChar d = true := by
          intro d hd
          obtain rfl | hd := List.mem_cons.mp hd
          · simp [isNameChar, hc]
          · exact hcs d hd
        have hstop : ∀ d ∈ after.head?, isNameChar d = false := hends (c :: cs) rfl
        have htake : after.takeWhile isNameChar = [] := by
          cases after with
          | nil => rfl
          | cons d ds => simp [hstop d rfl]
        have hdrop : after.dropWhile isNameChar = after := by
          cases after with
          | nil => rfl
          | cons d ds => simp [hstop d rfl]
        have hprimary := @Pratt.word _ (cs ++ after) _ hc
        rw [← List.cons_append, List.takeWhile_append_of_pos hname,
          List.dropWhile_append_of_pos hname, htake, hdrop, List.append_nil] at hprimary
        exact .expr hprimary hloop
  | vim c =>
    cases hreads with
    | cons hvalid _ hreads =>
      cases hreads with
      | nil => exact .expr (.vim hvalid) hloop

end Lucie
