import Lucie.Keymap.Pratt

/-!
# The parser reads the grammar

With the fuel that `parse` gives it, the parser always returns. It accepts a string if and
only if the grammar has a tree for it in which the operands of `==` and `!=` are names.
-/

set_option autoImplicit false

namespace Lucie

open KeyBindingContextPredicate

theorem Operator.text_length_pos (op : Operator) : 0 < op.text.length := by
  cases op <;> decide

/-- What is left behind an operator is shorter. -/
theorem length_after_operator {source : List Char} {m : ℕ} {op : Operator}
    (h : nextOperator source m = some op) :
    (skipWhitespace (source.drop op.text.length)).length < source.length := by
  have hle := (of_nextOperator h).1.length_le
  have hskip := length_skipWhitespace_le (source.drop op.text.length)
  have hpos := op.text_length_pos
  rw [List.length_drop] at hskip
  omega

theorem Expr.predicate_binary {op : Operator} {left right : Expr}
    {t : KeyBindingContextPredicate} (h : (Expr.binary op left right).predicate = some t) :
    ∃ l r, left.predicate = some l ∧ right.predicate = some r ∧ constructor op l r = .ok t := by
  rw [predicate] at h
  cases hleft : left.predicate with
  | none => simp [hleft] at h
  | some l =>
    cases hright : right.predicate with
    | none => simp [hleft, hright] at h
    | some r =>
      refine ⟨l, r, rfl, rfl, ?_⟩
      simp only [hleft, hright] at h
      cases hconstructor : constructor op l r with
      | error error => simp [hconstructor, Except.toOption] at h
      | ok t' => simpa [hconstructor, Except.toOption] using h

variable [CharTable]

theorem Pratt.length_le {goal : Goal} {source rest : List Char} {e : Expr}
    (h : Pratt goal source e rest) :
    rest.length ≤ source.length ∧
      ((∀ left m, goal ≠ .loop left m) → rest.length < source.length) := by
  induction h with
  | expr _ _ ihprimary ihloop =>
    have hlt := ihprimary.2 (by simp)
    have hle := ihloop.1
    exact ⟨by omega, fun _ => by omega⟩
  | @stop m source e _ => exact ⟨le_rfl, fun h => absurd rfl (h e m)⟩
  | @step m source mid rest left right e op hnext _ _ ihright ihloop =>
    have hoperator := length_after_operator hnext
    have hright := ihright.1
    have hloop := ihloop.1
    exact ⟨by omega, fun h => absurd rfl (h left m)⟩
  | @paren source rest e _ ih =>
    have hlt := ih.2 (by simp)
    have hskip := length_skipWhitespace_le source
    have hskip' := length_skipWhitespace_le rest
    simp only [List.length_cons] at hlt ⊢
    exact ⟨by omega, fun _ => by omega⟩
  | @not source rest e _ ih =>
    have hle := ih.1
    have hskip := length_skipWhitespace_le source
    simp only [List.length_cons]
    exact ⟨by omega, fun _ => by omega⟩
  | @word source c hc =>
    have hname : isNameChar c = true := by simp [isNameChar, hc]
    have hskip := length_skipWhitespace_le (source.dropWhile isNameChar)
    have hdrop := List.length_dropWhile_le isNameChar source
    rw [List.dropWhile_cons_of_pos hname, List.length_cons]
    exact ⟨by omega, fun _ => by omega⟩
  | @vim source c _ =>
    have hskip := length_skipWhitespace_le source
    rw [List.length_cons]
    exact ⟨by omega, fun _ => by omega⟩

/-- A loop around an operand without a predicate yields none. -/
theorem Pratt.predicate_eq_none {left e : Expr} {m : ℕ} {source rest : List Char}
    (h : Pratt (.loop left m) source e rest) (hleft : left.predicate = none) :
    e.predicate = none := by
  generalize hgoal : Goal.loop left m = goal at h
  induction h generalizing left with
  | stop =>
    obtain ⟨rfl, rfl⟩ := Goal.loop.inj hgoal
    exact hleft
  | step _ _ _ _ ihloop =>
    obtain ⟨rfl, rfl⟩ := Goal.loop.inj hgoal
    refine ihloop ?_ rfl
    rw [Expr.predicate, hleft]
  | _ => simp at hgoal

/-- A success is the predicate of the tree that is read; after an error, no tree that is
read has a predicate. -/
def ParseOutcome (goal : Goal) (source : List Char) : Parsed → Prop
  | .error _ => ∀ e rest, Pratt goal source e rest → e.predicate = none
  | .ok (t, rest) => ∃ e, Pratt goal source e rest ∧ e.predicate = some t

/-- The functions return with this much fuel, with the right outcome. -/
structure Correct (fuel : ℕ) : Prop where
  expr : ∀ source m, 2 * source.length + 2 ≤ fuel →
    ∃ r, parseExpr fuel source m = some r ∧ ParseOutcome (.expr m) source r
  loop : ∀ left l source m, 2 * source.length + 1 ≤ fuel → left.predicate = some l →
    ∃ r, parseLoop fuel l source m = some r ∧ ParseOutcome (.loop left m) source r
  primary : ∀ source, 2 * source.length + 1 ≤ fuel →
    ∃ r, parsePrimary fuel source = some r ∧ ParseOutcome .primary source r

theorem Correct.parseExpr {fuel : ℕ} (h : Correct fuel) (source : List Char) (m : ℕ)
    (hfuel : 2 * source.length + 1 ≤ fuel) :
    ∃ r, parseExpr (fuel + 1) source m = some r ∧ ParseOutcome (.expr m) source r := by
  rw [KeyBindingContextPredicate.parseExpr]
  obtain ⟨r, hprimary, houtcome⟩ := h.primary source hfuel
  rw [hprimary]
  cases r with
  | error error =>
    refine ⟨_, rfl, ?_⟩
    rintro e rest (⟨hleft, hloop⟩ | _)
    exact hloop.predicate_eq_none (houtcome _ _ hleft)
  | ok result =>
    obtain ⟨l, mid⟩ := result
    obtain ⟨left, hleft, hl⟩ := houtcome
    have hlt := hleft.length_le.2 (by simp)
    obtain ⟨r, hloop, houtcome⟩ := h.loop left l mid m (by omega) hl
    refine ⟨r, hloop, ?_⟩
    cases r with
    | error error =>
      rintro e rest (⟨hleft', hloop⟩ | _)
      obtain ⟨rfl, rfl⟩ := hleft.unique hleft'
      exact houtcome e rest hloop
    | ok result =>
      obtain ⟨e, he, ht⟩ := houtcome
      exact ⟨e, .expr hleft he, ht⟩

theorem Correct.parseLoop {fuel : ℕ} (h : Correct fuel) {left : Expr}
    {l : KeyBindingContextPredicate} (source : List Char) (m : ℕ)
    (hfuel : 2 * source.length ≤ fuel) (hl : left.predicate = some l) :
    ∃ r, parseLoop (fuel + 1) l source m = some r ∧ ParseOutcome (.loop left m) source r := by
  rw [KeyBindingContextPredicate.parseLoop]
  cases hnext : nextOperator source m with
  | none => exact ⟨_, rfl, left, .stop hnext, hl⟩
  | some op =>
    have hlt := length_after_operator hnext
    dsimp only
    obtain ⟨r, hexpr, houtcome⟩ := h.expr (skipWhitespace (source.drop op.text.length))
      (op.precedence + 1) (by omega)
    rw [hexpr]
    cases r with
    | error error =>
      refine ⟨_, rfl, ?_⟩
      intro e rest he
      cases he with
      | stop hnone => simp [hnext] at hnone
      | step hnext' hright hloop =>
        obtain rfl := Option.some.inj (hnext.symm.trans hnext')
        apply hloop.predicate_eq_none
        rw [Expr.predicate, hl, houtcome _ _ hright]
    | ok result =>
      obtain ⟨r, mid⟩ := result
      obtain ⟨right, hright, hr⟩ := houtcome
      have hlt' := hright.length_le.2 (by simp)
      dsimp only
      cases hconstructor : constructor op l r with
      | error error =>
        refine ⟨_, rfl, ?_⟩
        intro e rest he
        cases he with
        | stop hnone => simp [hnext] at hnone
        | step hnext' hright' hloop =>
          obtain rfl := Option.some.inj (hnext.symm.trans hnext')
          obtain ⟨rfl, rfl⟩ := hright.unique hright'
          apply hloop.predicate_eq_none
          simp [Expr.predicate, hl, hr, hconstructor, Except.toOption]
      | ok q =>
        have hq : (Expr.binary op left right).predicate = some q := by
          simp [Expr.predicate, hl, hr, hconstructor, Except.toOption]
        obtain ⟨result, hloop, houtcome⟩ := h.loop _ q mid m (by omega) hq
        refine ⟨result, hloop, ?_⟩
        cases result with
        | error error =>
          intro e rest he
          cases he with
          | stop hnone => simp [hnext] at hnone
          | step hnext' hright' hloop =>
            obtain rfl := Option.some.inj (hnext.symm.trans hnext')
            obtain ⟨rfl, rfl⟩ := hright.unique hright'
            exact houtcome e rest hloop
        | ok result =>
          obtain ⟨e, he, ht⟩ := houtcome
          exact ⟨e, .step hnext hright he, ht⟩

/-- What is read after an opening parenthesis. -/
theorem Pratt.of_paren {source rest : List Char} {e : Expr}
    (h : Pratt .primary ('(' :: source) e rest) : ∃ after, rest = skipWhitespace after ∧
      Pratt (.expr 0) (skipWhitespace source) e (')' :: after) := by
  cases h with
  | paren h => exact ⟨_, rfl, h⟩
  | word hc => simp [not_isIdentifierChar] at hc
  | vim hc => simp [isVimOperatorChar] at hc

/-- What is read after an exclamation mark. -/
theorem Pratt.of_bang {source rest : List Char} {e : Expr}
    (h : Pratt .primary ('!' :: source) e rest) : ∃ operand, e = .not operand ∧
      Pratt (.expr precedenceNot) (skipWhitespace source) operand rest := by
  cases h with
  | not h => exact ⟨_, rfl, h⟩
  | word hc => simp [not_isIdentifierChar] at hc
  | vim hc => simp [isVimOperatorChar] at hc

theorem Correct.parsePrimary {fuel : ℕ} (h : Correct fuel) (source : List Char)
    (hfuel : 2 * source.length ≤ fuel) :
    ∃ r, parsePrimary (fuel + 1) source = some r ∧ ParseOutcome .primary source r := by
  cases source with
  | nil =>
    refine ⟨_, rfl, ?_⟩
    intro e rest he
    cases he
  | cons next source =>
    have hskip := length_skipWhitespace_le source
    rw [List.length_cons] at hfuel
    rw [KeyBindingContextPredicate.parsePrimary]
    split_ifs with hparen hbang hidentifier hvim
    · subst hparen
      obtain ⟨r, hexpr, houtcome⟩ := h.expr (skipWhitespace source) 0 (by omega)
      rw [hexpr]
      cases r with
      | error error =>
        refine ⟨_, rfl, ?_⟩
        intro e rest he
        obtain ⟨after, _, he⟩ := he.of_paren
        exact houtcome e _ he
      | ok result =>
        obtain ⟨t, rest⟩ := result
        obtain ⟨e, he, ht⟩ := houtcome
        have hclosed : ∀ e' rest', Pratt .primary ('(' :: source) e' rest' →
            ∃ after, rest = ')' :: after := by
          intro e' rest' he'
          obtain ⟨after, _, he'⟩ := he'.of_paren
          exact ⟨after, (he.unique he').2⟩
        cases rest with
        | nil =>
          refine ⟨.error .expectedParen, rfl, ?_⟩
          intro e' rest' he'
          obtain ⟨after, hafter⟩ := hclosed e' rest' he'
          simp at hafter
        | cons c rest =>
          by_cases hclose : c = ')'
          · subst hclose
            exact ⟨_, rfl, e, .paren he, ht⟩
          · refine ⟨.error .expectedParen, by simp [hclose], ?_⟩
            intro e' rest' he'
            obtain ⟨after, hafter⟩ := hclosed e' rest' he'
            exact absurd (List.cons.inj hafter).1 hclose
    · subst hbang
      obtain ⟨r, hexpr, houtcome⟩ := h.expr (skipWhitespace source) precedenceNot (by omega)
      rw [hexpr]
      cases r with
      | error error =>
        refine ⟨_, rfl, ?_⟩
        intro e rest he
        obtain ⟨operand, rfl, hoperand⟩ := he.of_bang
        rw [Expr.predicate, houtcome operand rest hoperand, Option.map_none]
      | ok result =>
        obtain ⟨e, he, ht⟩ := houtcome
        exact ⟨_, rfl, .not e, .not he, by rw [Expr.predicate, ht, Option.map_some]⟩
    · exact ⟨_, rfl, .name ((next :: source).takeWhile isNameChar), .word hidentifier, rfl⟩
    · exact ⟨_, rfl, .name [next], .vim hvim, rfl⟩
    · refine ⟨_, rfl, ?_⟩
      intro e rest he
      cases he with
      | paren => exact absurd rfl hparen
      | not => exact absurd rfl hbang
      | word hc => exact absurd hc hidentifier
      | vim hc => exact absurd hc hvim

theorem correct (fuel : ℕ) : Correct fuel := by
  induction fuel with
  | zero => exact ⟨by omega, by omega, by omega⟩
  | succ fuel ih =>
    constructor
    · exact fun source m hfuel => ih.parseExpr source m (by omega)
    · exact fun left l source m hfuel hl => ih.parseLoop source m (by omega) hl
    · exact fun source hfuel => ih.parsePrimary source (by omega)

/-- A string is generated if all of it is read. -/
theorem generates_iff {source : String} {e : Expr} :
    Generates source e ↔ Pratt (.expr 0) (skipWhitespace source.toList) e [] := by
  constructor
  · rintro ⟨space, text, tokens, hsource, hspace, hspells, he⟩
    rw [hsource, skipWhitespace_append hspace, hspells.skipWhitespace_eq]
    have hempty : ∀ op : Operator, ¬op.text <+: [] := by
      intro op hop
      have hle := hop.length_le
      have hpos := op.text_length_pos
      rw [List.length_nil] at hle
      omega
    apply he.pratt hspells.reads (fun op hop => absurd hop (hempty op)) (Nat.zero_le _)
    exact .stop (nextOperator_eq_none.mpr fun op hop => absurd hop (hempty op))
  · intro h
    obtain ⟨tokens, hreads, he, _⟩ := h.reached (Nat.zero_le _)
    refine ⟨source.toList.takeWhile isWhitespace, skipWhitespace source.toList, tokens,
      List.takeWhile_append_dropWhile.symm, ?_, hreads.spells, he.loosest⟩
    exact fun c hc => List.mem_takeWhile_imp hc

/-- The grammar is unambiguous. -/
theorem Generates.unique {source : String} {e e' : Expr} (h : Generates source e)
    (h' : Generates source e') : e = e' :=
  ((generates_iff.mp h).unique (generates_iff.mp h')).1

/-- `parse` always returns. It accepts the strings that have a tree in which the operands
of `==` and `!=` are names, with the predicate of this one tree. -/
theorem parse_iff_generates (source : String) : ∃ r, parse source = some r ∧
    (∀ t, r = .ok t ↔ ∃ e, Generates source e ∧ e.predicate = some t) ∧
    ∀ e e', Generates source e → Generates source e' → e = e' := by
  simp only [generates_iff]
  obtain ⟨r, hexpr, houtcome⟩ := (correct _).expr (skipWhitespace source.toList) 0 le_rfl
  have hunique : ∀ e e', Pratt (.expr 0) (skipWhitespace source.toList) e [] →
      Pratt (.expr 0) (skipWhitespace source.toList) e' [] → e = e' :=
    fun e e' h h' => (h.unique h').1
  unfold parse
  dsimp only
  rw [hexpr]
  cases r with
  | error error =>
    refine ⟨.error error, rfl, ?_, hunique⟩
    intro t
    constructor
    · simp
    · rintro ⟨e, he, ht⟩
      rw [houtcome e [] he] at ht
      simp at ht
  | ok result =>
    obtain ⟨p, rest⟩ := result
    obtain ⟨e, he, hp⟩ := houtcome
    cases rest with
    | nil =>
      refine ⟨.ok p, rfl, ?_, hunique⟩
      intro t
      constructor
      · rintro h
        obtain rfl := Except.ok.inj h
        exact ⟨e, he, hp⟩
      · rintro ⟨e', he', ht⟩
        obtain rfl := hunique e e' he he'
        rw [Option.some.inj (hp.symm.trans ht)]
    | cons next rest =>
      refine ⟨.error (.unexpectedCharacter next), rfl, ?_, hunique⟩
      intro t
      constructor
      · simp
      · rintro ⟨e', he', _⟩
        have hrest := (he.unique he').2
        simp at hrest

omit [CharTable] in
/-- The grammar alone also has comparisons of other operands, which the parser rejects. -/
theorem not_accepts_comparedNegation :
    (∃ e, @Generates .asciiOnly "c == !d" e) ∧
      ∃ error, @parse .asciiOnly "c == !d" = some (.error error) := by
  let table : CharTable := .asciiOnly
  have htext : "c == !d".toList = ['c', ' ', '=', '=', ' ', '!', 'd'] := by simp
  constructor
  · have hword : ∀ c : Char, c.isAlphanum = true → (Token.word [c]).Valid := by
      intro c hc
      refine ⟨c, [], rfl, ?_, by simp⟩
      simp only [isIdentifierChar, Bool.or_eq_true]
      exact Or.inl (Or.inl hc)
    have hd : Reads [.word ['d']] ['d'] [] :=
      reads_token (hword 'd' rfl) (by simp [Token.Ends])
    have hbang : Reads [.bang, .word ['d']] ['!', 'd'] [] :=
      .cons trivial (Token.ends_of_not_word (by simp) _) hd
    have heq : Reads [.operator .eq, .bang, .word ['d']] ['=', '=', ' ', '!', 'd'] [] :=
      .cons trivial (Token.ends_of_not_word (by simp) _) hbang
    have hc : Reads [.word ['c'], .operator .eq, .bang, .word ['d']]
        ['c', ' ', '=', '=', ' ', '!', 'd'] [] := by
      refine .cons (hword 'c' rfl) ?_ heq
      intro name _ c hc
      obtain rfl : ' ' = c := by simpa using hc
      decide
    have hderives : Derives Operator.eq.precedence [.word ['c'], .operator .eq, .bang, .word ['d']]
        (.binary .eq (.name ['c']) (.not (.name ['d']))) :=
      .binary .eq (Derives.word ['c']).next (.not (.word ['d']))
    exact ⟨_, [], _, _, htext, by simp, hc.spells, hderives.mono (by decide)⟩
  · refine ⟨.equalOperands, ?_⟩
    rw [parse, htext]
    rfl

end Lucie
