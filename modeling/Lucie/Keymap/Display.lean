import Lucie.Keymap.ParseCorrect

/-!
# Reading a printed predicate

Only conjunctions and disjunctions are printed in parentheses. Every printed text is a chain
of items around the operator `>`, and the chain is what it is read as; it is the printed
predicate unless an operand that needs parentheses has none.
-/

set_option autoImplicit false

namespace Lucie

open KeyBindingContextPredicate

namespace KeyBindingContextPredicate

def isDescendant : KeyBindingContextPredicate → Bool
  | descendant _ _ => true
  | _ => false

def isComparison : KeyBindingContextPredicate → Bool
  | equal _ _ | notEqual _ _ => true
  | _ => false

/-- No `>` is an operand of `!`, `&&` or `||` or the right operand of `>`, and no `==` or
`!=` is the operand of `!`. -/
def Reparses : KeyBindingContextPredicate → Prop
  | identifier _ | equal _ _ | notEqual _ _ => True
  | not pred => pred.Reparses ∧ pred.isDescendant = false ∧ pred.isComparison = false
  | descendant parent child => parent.Reparses ∧ child.Reparses ∧ child.isDescendant = false
  | and left right | or left right => left.Reparses ∧ right.Reparses ∧
      left.isDescendant = false ∧ right.isDescendant = false

/-- The tree of a predicate. -/
def toExpr : KeyBindingContextPredicate → Expr
  | identifier name => .name name.toList
  | equal left right => .binary .eq (.name left.toList) (.name right.toList)
  | notEqual left right => .binary .neq (.name left.toList) (.name right.toList)
  | not pred => .not pred.toExpr
  | descendant parent child => .binary .child parent.toExpr child.toExpr
  | and left right => .binary .and left.toExpr right.toExpr
  | or left right => .binary .or left.toExpr right.toExpr

end KeyBindingContextPredicate

theorem newEq_eq_ok {l r p : KeyBindingContextPredicate} (h : newEq l r = .ok p) :
    ∃ left right, l = identifier left ∧ r = identifier right ∧ p = equal left right := by
  cases l <;> cases r <;> simp [newEq] at h
  exact ⟨_, _, rfl, rfl, h.symm⟩

theorem newNeq_eq_ok {l r p : KeyBindingContextPredicate} (h : newNeq l r = .ok p) :
    ∃ left right, l = identifier left ∧ r = identifier right ∧ p = notEqual left right := by
  cases l <;> cases r <;> simp [newNeq] at h
  exact ⟨_, _, rfl, rfl, h.symm⟩

theorem predicate_toExpr (p : KeyBindingContextPredicate) : p.toExpr.predicate = some p := by
  induction p with
  | identifier name => simp [toExpr, Expr.predicate]
  | equal left right => simp [toExpr, Expr.predicate, constructor, newEq, Except.toOption]
  | notEqual left right => simp [toExpr, Expr.predicate, constructor, newNeq, Except.toOption]
  | not pred ih => simp [toExpr, Expr.predicate, ih]
  | descendant _ _ ihl ihr | and _ _ ihl ihr | or _ _ ihl ihr =>
    simp [toExpr, Expr.predicate, ihl, ihr, constructor, Except.toOption]

/-- A tree is determined by its predicate. -/
theorem predicate_eq_some {e : Expr} {p : KeyBindingContextPredicate} :
    e.predicate = some p ↔ e = p.toExpr := by
  constructor
  · intro h
    induction e generalizing p with
    | name text =>
      obtain rfl := Option.some.inj h
      simp [toExpr]
    | not e ih =>
      obtain ⟨q, hq, rfl⟩ := Option.map_eq_some_iff.mp h
      rw [toExpr, ih hq]
    | binary op left right ihl ihr =>
      obtain ⟨l, r, hl, hr, hp⟩ := Expr.predicate_binary h
      obtain rfl := ihl hl
      obtain rfl := ihr hr
      cases op with
      | eq =>
        obtain ⟨_, _, rfl, rfl, rfl⟩ := newEq_eq_ok hp
        rfl
      | neq =>
        obtain ⟨_, _, rfl, rfl, rfl⟩ := newNeq_eq_ok hp
        rfl
      | child | and | or =>
        obtain rfl := Except.ok.inj hp
        rfl
  · rintro rfl
    exact predicate_toExpr p

/-- What is printed between the operators `>`: a primary or a comparison. -/
inductive PrintedItem
  | primary (e : Expr)
  | comparison (op : Operator) (left right : Expr)

namespace PrintedItem

def expr : PrintedItem → Expr
  | primary e => e
  | comparison op left right => .binary op left right

/-- An exclamation mark belongs to the left operand of a comparison. -/
def negate : PrintedItem → PrintedItem
  | primary e => primary (.not e)
  | comparison op left right => comparison op (.not left) right

end PrintedItem

/-- The tree of a chain of items. -/
def chain (items : PrintedItem × List PrintedItem) : Expr :=
  items.2.foldl (fun e item => .binary .child e item.expr) items.1.expr

/-- The tree of two chains around an operator, which takes the items next to it. -/
def joined (op : Operator) (left right : PrintedItem × List PrintedItem) : Expr :=
  let first := match left.2.getLast? with
    | none => .binary op left.1.expr right.1.expr
    | some last =>
      .binary .child (chain (left.1, left.2.dropLast)) (.binary op last.expr right.1.expr)
  chain (.primary first, right.2)

/-- The items of a printed predicate. -/
def items : KeyBindingContextPredicate → PrintedItem × List PrintedItem
  | identifier name => (.primary (.name name.toList), [])
  | equal left right => (.comparison .eq (.name left.toList) (.name right.toList), [])
  | notEqual left right => (.comparison .neq (.name left.toList) (.name right.toList), [])
  | .not pred => ((items pred).1.negate, (items pred).2)
  | descendant parent child =>
    ((items parent).1, (items parent).2 ++ (items child).1 :: (items child).2)
  | .and left right => (.primary (joined .and (items left) (items right)), [])
  | .or left right => (.primary (joined .or (items left) (items right)), [])

theorem chain_append (head : PrintedItem) (tail : List PrintedItem) (item : PrintedItem) :
    chain (head, tail ++ [item]) = .binary .child (chain (head, tail)) item.expr := by
  simp [chain]

/-- A chain of several items is a `>` with the last item on its right. -/
theorem exists_chain_eq {head : PrintedItem} {tail : List PrintedItem} (h : tail ≠ []) :
    ∃ init last, tail = init ++ [last] ∧
      chain (head, tail) = .binary .child (chain (head, init)) last.expr := by
  obtain ⟨init, last, rfl⟩ := (List.eq_nil_or_concat tail).resolve_left h
  rw [List.concat_eq_append]
  exact ⟨init, last, rfl, chain_append head init last⟩

/-- Two operands around an operator other than `>` stay together if they are single items. -/
theorem joined_eq_iff {op : Operator} (hop : op ≠ .child)
    {left right : PrintedItem × List PrintedItem}
    {l r : Expr} : joined op left right = .binary op l r ↔
      (left.2 = [] ∧ chain left = l) ∧ right.2 = [] ∧ chain right = r := by
  obtain ⟨lhead, ltail⟩ := left
  obtain ⟨rhead, rtail⟩ := right
  by_cases hright : rtail = []
  · subst hright
    by_cases hleft : ltail = []
    · subst hleft
      simp [joined, chain, PrintedItem.expr]
    · obtain ⟨init, last, rfl, _⟩ := @exists_chain_eq lhead _ hleft
      simp [joined, chain, PrintedItem.expr, hop.symm]
  · constructor
    · intro h
      obtain ⟨init, last, rfl, hchain⟩ := @exists_chain_eq (.primary
        (match ltail.getLast? with
          | none => .binary op lhead.expr rhead.expr
          | some last => .binary .child (chain (lhead, ltail.dropLast))
            (.binary op last.expr rhead.expr))) _ hright
      rw [joined] at h
      rw [hchain] at h
      exact absurd (Expr.binary.inj h).1.symm hop
    · rintro ⟨_, hnil, _⟩
      exact absurd hnil hright

/-- The number of names and operators. -/
def Expr.size : Expr → ℕ
  | name _ => 1
  | not e => e.size + 1
  | binary _ left right => left.size + right.size + 1

theorem size_chain (items : PrintedItem × List PrintedItem) : (chain items).size =
    items.1.expr.size + (items.2.map fun item => item.expr.size + 1).sum := by
  obtain ⟨head, tail⟩ := items
  induction tail using List.reverseRecOn with
  | nil => rfl
  | append_singleton tail item ih =>
    rw [chain_append, Expr.size, ih]
    simp
    omega

theorem size_joined (op : Operator) (left right : PrintedItem × List PrintedItem) :
    (joined op left right).size = (chain left).size + (chain right).size + 1 := by
  obtain ⟨lhead, ltail⟩ := left
  rw [joined, size_chain, size_chain right]
  by_cases hleft : ltail = []
  · subst hleft
    simp [chain, PrintedItem.expr, Expr.size]
    omega
  · obtain ⟨init, last, rfl, hchain⟩ := @exists_chain_eq lhead _ hleft
    rw [hchain]
    simp [PrintedItem.expr, Expr.size]
    omega

theorem size_negate (item : PrintedItem) : item.negate.expr.size = item.expr.size + 1 := by
  cases item with
  | primary e => rfl
  | comparison op left right =>
    simp only [PrintedItem.negate, PrintedItem.expr, Expr.size]
    omega

/-- Reading keeps all of the printed names and operators. -/
theorem size_items (p : KeyBindingContextPredicate) :
    (chain (items p)).size = p.toExpr.size := by
  induction p with
  | identifier | equal | notEqual => rfl
  | not pred ih =>
    rw [toExpr, Expr.size, ← ih, size_chain, size_chain]
    simp only [items, size_negate]
    omega
  | descendant parent child ihp ihc =>
    rw [toExpr, Expr.size, ← ihp, ← ihc, size_chain, size_chain, size_chain, items]
    simp
    omega
  | and left right ihl ihr =>
    rw [toExpr, Expr.size, ← ihl, ← ihr, ← size_joined .and]
    rfl
  | or left right ihl ihr =>
    rw [toExpr, Expr.size, ← ihl, ← ihr, ← size_joined .or]
    rfl

theorem comparison_of_items {p : KeyBindingContextPredicate} {op : Operator} {left right : Expr}
    (h : (items p).1 = .comparison op left right) : op = .eq ∨ op = .neq := by
  induction p generalizing left right with
  | identifier | and | or => simp [items] at h
  | equal =>
    obtain ⟨rfl, _⟩ := PrintedItem.comparison.inj h
    exact Or.inl rfl
  | notEqual =>
    obtain ⟨rfl, _⟩ := PrintedItem.comparison.inj h
    exact Or.inr rfl
  | not pred ih =>
    rw [items] at h
    cases hhead : (items pred).1 with
    | primary e => simp [hhead, PrintedItem.negate] at h
    | comparison op' left' right' =>
      rw [hhead] at h
      obtain ⟨rfl, _⟩ := PrintedItem.comparison.inj h
      exact ih hhead
  | descendant parent child ihp _ => exact ihp h

/-- Read as printed, only a `>` has several items. -/
theorem tail_eq_nil_iff {p : KeyBindingContextPredicate} (h : chain (items p) = p.toExpr) :
    (items p).2 = [] ↔ p.isDescendant = false := by
  constructor
  · intro htail
    cases p with
    | descendant parent child => simp [items] at htail
    | _ => rfl
  · intro hp
    by_contra htail
    obtain ⟨init, last, _, hchain⟩ := @exists_chain_eq (items p).1 _ htail
    rw [h] at hchain
    cases p <;> simp [toExpr, isDescendant] at hchain hp

/-- Read as printed, the only item is a comparison just for `==` and `!=`. -/
theorem primary_iff {p : KeyBindingContextPredicate} (h : chain (items p) = p.toExpr)
    (htail : (items p).2 = []) :
    (items p).1 = .primary p.toExpr ↔ p.isComparison = false := by
  have hhead : (items p).1.expr = p.toExpr := by
    rw [← h, chain, htail]
    rfl
  constructor
  · intro hprimary
    cases p with
    | equal | notEqual => simp [items] at hprimary
    | _ => rfl
  · intro hp
    cases hitem : (items p).1 with
    | primary e =>
      rw [hitem] at hhead
      rw [← hhead]
      rfl
    | comparison op left right =>
      rw [hitem, PrintedItem.expr] at hhead
      obtain rfl | rfl := comparison_of_items hitem
      · cases p <;> simp [toExpr, isComparison] at hhead hp
      · cases p <;> simp [toExpr, isComparison] at hhead hp

/-- Conjunctions and disjunctions. -/
theorem joined_items_eq_iff {op : Operator} (hop : op ≠ .child)
    {left right : KeyBindingContextPredicate}
    (hleft : chain (items left) = left.toExpr ↔ left.Reparses)
    (hright : chain (items right) = right.toExpr ↔ right.Reparses) :
    joined op (items left) (items right) = .binary op left.toExpr right.toExpr ↔
      left.Reparses ∧ right.Reparses ∧ left.isDescendant = false ∧ right.isDescendant = false := by
  rw [joined_eq_iff hop]
  constructor
  · rintro ⟨⟨hltail, hl⟩, hrtail, hr⟩
    exact ⟨hleft.mp hl, hright.mp hr, (tail_eq_nil_iff hl).mp hltail,
      (tail_eq_nil_iff hr).mp hrtail⟩
  · rintro ⟨hl, hr, hldescendant, hrdescendant⟩
    have hl := hleft.mpr hl
    have hr := hright.mpr hr
    exact ⟨⟨(tail_eq_nil_iff hl).mpr hldescendant, hl⟩, (tail_eq_nil_iff hr).mpr hrdescendant, hr⟩

/-- The chain of items is the printed predicate if and only if no parentheses are missing. -/
theorem chain_items_eq_iff (p : KeyBindingContextPredicate) :
    chain (items p) = p.toExpr ↔ p.Reparses := by
  induction p with
  | identifier | equal | notEqual => exact iff_of_true rfl trivial
  | not pred ih =>
    constructor
    · intro h
      have htail : (items pred).2 = [] := by
        by_contra htail
        obtain ⟨init, last, _, hchain⟩ := @exists_chain_eq (items pred).1.negate _ htail
        rw [items, hchain] at h
        simp [toExpr] at h
      have hprimary : (items pred).1 = .primary pred.toExpr := by
        rw [items, chain, htail] at h
        cases hitem : (items pred).1 with
        | primary e =>
          rw [hitem] at h
          rw [Expr.not.inj h]
        | comparison op left right =>
          simp [hitem, PrintedItem.negate, PrintedItem.expr, toExpr] at h
      have hpred : chain (items pred) = pred.toExpr := by
        rw [chain, htail, hprimary]
        rfl
      exact ⟨ih.mp hpred, (tail_eq_nil_iff hpred).mp htail, (primary_iff hpred htail).mp hprimary⟩
    · rintro ⟨hpred, hdescendant, hcomparison⟩
      have hchain := ih.mpr hpred
      have htail := (tail_eq_nil_iff hchain).mpr hdescendant
      rw [items, chain, htail, (primary_iff hchain htail).mpr hcomparison]
      rfl
  | descendant parent child ihp ihc =>
    have hitems : chain (items (descendant parent child)) =
        chain ((items parent).1, (items parent).2 ++ (items child).1 :: (items child).2) := rfl
    constructor
    · intro h
      by_cases htail : (items child).2 = []
      · rw [hitems, htail, chain_append] at h
        obtain ⟨_, hparent, hhead⟩ := Expr.binary.inj h
        have hchild : chain (items child) = child.toExpr := by
          rw [← hhead, chain, htail]
          rfl
        exact ⟨ihp.mp hparent, ihc.mp hchild, (tail_eq_nil_iff hchild).mp htail⟩
      · obtain ⟨init, last, hlast, _⟩ := @exists_chain_eq (items child).1 _ htail
        rw [hitems, hlast, ← List.cons_append, ← List.append_assoc, chain_append] at h
        have hsize := size_items child
        rw [← (Expr.binary.inj h).2.2, size_chain, hlast] at hsize
        simp at hsize
        omega
    · rintro ⟨hparent, hchild, hdescendant⟩
      have hchain := ihc.mpr hchild
      have htail := (tail_eq_nil_iff hchain).mpr hdescendant
      have hhead : (items child).1.expr = child.toExpr := by
        rw [← hchain, chain, htail]
        rfl
      rw [hitems, htail, chain_append, hhead, ihp.mpr hparent]
      rfl
  | and left right ihl ihr => exact joined_items_eq_iff (by simp) ihl ihr
  | or left right ihl ihr => exact joined_items_eq_iff (by simp) ihl ihr

/-- The token of a printed name. -/
def nameToken (name : List Char) : Token :=
  match name with
  | [c] => if isVimOperatorChar c then .vim c else .word [c]
  | name => .word name

/-- The tokens of a printed predicate. -/
def tokens : KeyBindingContextPredicate → List Token
  | identifier name => [nameToken name.toList]
  | equal left right => [nameToken left.toList, .operator .eq, nameToken right.toList]
  | notEqual left right => [nameToken left.toList, .operator .neq, nameToken right.toList]
  | .not pred => .bang :: tokens pred
  | descendant parent child => tokens parent ++ .operator .child :: tokens child
  | .and left right =>
    .openParen :: (tokens left ++ .operator .and :: tokens right) ++ [.closeParen]
  | .or left right =>
    .openParen :: (tokens left ++ .operator .or :: tokens right) ++ [.closeParen]

theorem derives_nameToken (name : List Char) :
    Derives precedenceNot [nameToken name] (.name name) := by
  unfold nameToken
  split
  · split_ifs
    · exact .vim _
    · exact .word _
  · exact .word _

/-- The tokens are those of the item. -/
def PrintedItem.Derives (tokens : List Token) : PrintedItem → Prop
  | primary e => Lucie.Derives precedenceNot tokens e
  | comparison op left right => ∃ l r, tokens = l ++ .operator op :: r ∧
      op.precedence = Operator.eq.precedence ∧ Lucie.Derives precedenceNot l left ∧
      Lucie.Derives precedenceNot r right

/-- The tokens are those of the items, with operators `>` between them. -/
inductive Chained : List Token → PrintedItem × List PrintedItem → Prop
  | single {tokens : List Token} {item : PrintedItem} (h : item.Derives tokens) :
      Chained tokens (item, [])
  | snoc {before tokens : List Token} {head item : PrintedItem} {tail : List PrintedItem}
      (hbefore : Chained before (head, tail)) (h : item.Derives tokens) :
      Chained (before ++ .operator .child :: tokens) (head, tail ++ [item])

/-- An item binds more tightly than `&&`. -/
theorem PrintedItem.Derives.derives {tokens : List Token} {item : PrintedItem}
    (h : item.Derives tokens) :
    Lucie.Derives (Operator.and.precedence + 1) tokens item.expr := by
  cases item with
  | primary e => exact Lucie.Derives.mono h (by decide)
  | comparison op left right =>
    obtain ⟨l, r, rfl, hop, hl, hr⟩ := h
    have hbinary := Lucie.Derives.binary op (hl.mono op.precedence_lt.le) (hr.mono op.precedence_lt)
    exact hbinary.mono (by rw [hop]; decide)

/-- A chain behind other tokens, which its first item completes to a phrase. -/
theorem Chained.derives_append {before tokens : List Token} {items : PrintedItem × List PrintedItem}
    (h : Chained tokens items) {first : Expr}
    (hfirst : ∀ tokens, items.1.Derives tokens →
      Derives Operator.child.precedence (before ++ tokens) first) :
    Derives Operator.child.precedence (before ++ tokens) (chain (.primary first, items.2)) := by
  induction h with
  | single h => exact hfirst _ h
  | @snoc before' tokens head item tail _ h ih =>
    rw [chain_append, ← List.append_assoc]
    exact .binary .child (ih hfirst) (h.derives.mono (by decide))

theorem Chained.derives {tokens : List Token} {items : PrintedItem × List PrintedItem}
    (h : Chained tokens items) : Derives Operator.child.precedence tokens (chain items) :=
  @Chained.derives_append [] _ _ h _ fun _ hitem => hitem.derives.mono (by decide)

theorem Chained.append {tokens tokens' : List Token} {items items' : PrintedItem × List PrintedItem}
    (h : Chained tokens items) (h' : Chained tokens' items') :
    Chained (tokens ++ .operator .child :: tokens') (items.1, items.2 ++ items'.1 :: items'.2) := by
  induction h' with
  | single hitem => exact .snoc h hitem
  | @snoc before tokens' head item tail _ hitem ih =>
    have hsnoc := Chained.snoc ih hitem
    simpa using hsnoc

theorem Chained.negate {tokens : List Token} {items : PrintedItem × List PrintedItem}
    (h : Chained tokens items) : Chained (.bang :: tokens) (items.1.negate, items.2) := by
  induction h with
  | @single tokens item h =>
    refine .single ?_
    cases item with
    | primary e => exact Derives.not h
    | comparison op left right =>
      obtain ⟨l, r, rfl, hop, hl, hr⟩ := h
      exact ⟨.bang :: l, r, rfl, hop, .not hl, hr⟩
  | snoc _ hitem ih => exact .snoc ih hitem

/-- Two chains around a logical operator. -/
theorem Chained.joined {op : Operator} (hlow : Operator.child.precedence < op.precedence)
    (hhigh : op.precedence ≤ Operator.and.precedence) {left right : List Token}
    {litems ritems : PrintedItem × List PrintedItem} (hleft : Chained left litems)
    (hright : Chained right ritems) :
    Derives Operator.child.precedence (left ++ .operator op :: right)
      (joined op litems ritems) := by
  have hoperands : ∀ {l r : List Token} {litem ritem : PrintedItem}, litem.Derives l →
      ritem.Derives r →
      Derives op.precedence (l ++ .operator op :: r) (.binary op litem.expr ritem.expr) := by
    intro l r litem ritem hl hr
    exact .binary op (hl.derives.mono (by omega)) (hr.derives.mono (by omega))
  rw [← List.singleton_append, ← List.append_assoc]
  cases hleft with
  | @single _ item hitem =>
    apply hright.derives_append
    intro tokens htokens
    have hbinary := (hoperands hitem htokens).mono hlow.le
    simpa [Lucie.joined] using hbinary
  | @snoc before left head item tail hbefore hitem =>
    apply hright.derives_append
    intro tokens htokens
    have hbinary := Derives.binary .child hbefore.derives ((hoperands hitem htokens).mono hlow)
    simpa using hbinary

theorem chained_tokens (p : KeyBindingContextPredicate) : Chained (tokens p) (items p) := by
  induction p with
  | identifier name => exact .single (derives_nameToken name.toList)
  | equal left right =>
    exact .single ⟨[nameToken left.toList], [nameToken right.toList], rfl, rfl,
      derives_nameToken left.toList, derives_nameToken right.toList⟩
  | notEqual left right =>
    exact .single ⟨[nameToken left.toList], [nameToken right.toList], rfl, rfl,
      derives_nameToken left.toList, derives_nameToken right.toList⟩
  | not pred ih => exact ih.negate
  | descendant parent child ihp ihc => exact ihp.append ihc
  | and left right ihl ihr => exact .single (.paren (ihl.joined (by decide) (by decide) ihr))
  | or left right ihl ihr => exact .single (.paren (ihl.joined (by decide) (by decide) ihr))

theorem text_nameToken (name : List Char) : (nameToken name).text = name := by
  unfold nameToken
  split
  · split_ifs <;> rfl
  · rfl

theorem tokens_ne_nil (p : KeyBindingContextPredicate) : tokens p ≠ [] := by
  cases p <;> simp [tokens]

section

variable [CharTable]

/-- The names are those that the lexer allows. -/
def Expr.Named : Expr → Prop
  | name text => (nameToken text).Valid
  | not e => e.Named
  | binary _ left right => left.Named ∧ right.Named

theorem valid_nameToken {name : List Char} (h : (Token.word name).Valid) :
    (nameToken name).Valid := by
  unfold nameToken
  split
  · split_ifs with hvim
    · exact hvim
    · exact h
  · exact h

theorem Pratt.named {goal : Goal} {source rest : List Char} {e : Expr}
    (h : Pratt goal source e rest) (hgoal : ∀ left m, goal = .loop left m → left.Named) :
    e.Named := by
  induction h with
  | expr _ _ ihprimary ihloop =>
    apply ihloop
    intro left m heq
    obtain ⟨rfl, rfl⟩ := Goal.loop.inj heq
    exact ihprimary (by simp)
  | @stop m _ e _ => exact hgoal e m rfl
  | @step m _ _ _ left right _ op _ _ _ ihright ihloop =>
    apply ihloop
    intro left' m' heq
    obtain ⟨rfl, rfl⟩ := Goal.loop.inj heq
    exact ⟨hgoal left m rfl, ihright (by simp)⟩
  | paren _ ih => exact ih (by simp)
  | not _ ih => exact ih (by simp)
  | @word source c hc => exact valid_nameToken (valid_takeWhile hc)
  | @vim source c hc => simp [Expr.Named, nameToken, hc, Token.Valid]

/-- No name goes on. -/
def Separated (after : List Char) : Prop := ∀ c ∈ after.head?, isNameChar c = false

theorem separated_cons {c : Char} {after : List Char} (h : c = ' ' ∨ c = ')') :
    Separated (c :: after) := by
  rintro d hd
  obtain rfl : c = d := by simpa using hd
  obtain rfl | rfl := h
  · simp [isNameChar, not_isIdentifierChar, isVimOperatorChar]
  · simp [isNameChar, not_isIdentifierChar, isVimOperatorChar]

theorem reads_nameToken {name after : List Char} (hvalid : (nameToken name).Valid)
    (hafter : Separated after) :
    Reads [nameToken name] (name ++ after) (skipWhitespace after) := by
  have hreads := @reads_token _ _ after hvalid fun _ _ c hc => hafter c hc
  rwa [text_nameToken] at hreads

theorem Reads.skipWhitespace_eq {tokens : List Token} {source rest : List Char}
    (h : Reads tokens source rest) (hne : tokens ≠ []) : skipWhitespace source = source := by
  cases h with
  | nil => exact absurd rfl hne
  | cons hvalid _ _ =>
    obtain ⟨c, cs, htext, hc⟩ := Token.text_eq_cons hvalid
    simp [htext, skipWhitespace, hc]

/-- An operator with a blank on both sides. -/
theorem reads_binary {op : Operator} {left right : List Token} {text after rest : List Char}
    (hleft : Reads left text (skipWhitespace (' ' :: (op.text ++ ' ' :: after))))
    (hright : Reads right after rest) (hne : right ≠ []) :
    Reads (left ++ .operator op :: right) text rest := by
  have hblank : skipWhitespace (' ' :: (op.text ++ ' ' :: after)) = op.text ++ ' ' :: after := by
    cases op <;> rfl
  have hskip : skipWhitespace (' ' :: after) = after := hright.skipWhitespace_eq hne
  rw [hblank] at hleft
  have hends : (Token.operator op).Ends (' ' :: after) := Token.ends_of_not_word (by simp) _
  refine hleft.append (.cons trivial hends ?_)
  rwa [hskip]

/-- Two operands in parentheses. -/
theorem reads_parenthesized {op : Operator} {left right : KeyBindingContextPredicate}
    (hleft : ∀ {after}, Separated after →
      Reads (tokens left) (left.display.toList ++ after) (skipWhitespace after))
    (hright : ∀ {after}, Separated after →
      Reads (tokens right) (right.display.toList ++ after) (skipWhitespace after))
    (after : List Char) :
    Reads (.openParen :: (tokens left ++ .operator op :: tokens right) ++ [.closeParen])
      ('(' :: (left.display.toList ++ ' ' :: (op.text ++ ' ' :: (right.display.toList ++
        ')' :: after)))) (skipWhitespace after) := by
  have hr := @hright (')' :: after) (separated_cons (Or.inr rfl))
  have hl := @hleft (' ' :: (op.text ++ ' ' :: (right.display.toList ++ ')' :: after)))
    (separated_cons (Or.inl rfl))
  have hbinary := reads_binary hl hr (tokens_ne_nil right)
  have hclose : Reads [.closeParen] (skipWhitespace (')' :: after)) (skipWhitespace after) :=
    @reads_token _ .closeParen _ trivial (Token.ends_of_not_word (by simp) after)
  have hinner := hbinary.append hclose
  have hskip := hinner.skipWhitespace_eq (by simp)
  have hends : ∀ after, Token.openParen.Ends after := Token.ends_of_not_word (by simp)
  exact .cons trivial (hends _) (hskip.symm ▸ hinner)

/-- A printed predicate is spelled by its tokens. -/
theorem reads_display {p : KeyBindingContextPredicate} (hp : p.toExpr.Named) {after : List Char}
    (hafter : Separated after) :
    Reads (tokens p) (p.display.toList ++ after) (skipWhitespace after) := by
  induction p generalizing after with
  | identifier name => exact reads_nameToken hp hafter
  | equal left right =>
    have hright := reads_nameToken hp.2 hafter
    have hleft := @reads_nameToken _ left.toList (' ' :: (Operator.eq.text ++ ' ' ::
      (right.toList ++ after))) hp.1 (separated_cons (Or.inl rfl))
    simpa [display, tokens, Operator.text] using reads_binary hleft hright (by simp)
  | notEqual left right =>
    have hright := reads_nameToken hp.2 hafter
    have hleft := @reads_nameToken _ left.toList (' ' :: (Operator.neq.text ++ ' ' ::
      (right.toList ++ after))) hp.1 (separated_cons (Or.inl rfl))
    simpa [display, tokens, Operator.text] using reads_binary hleft hright (by simp)
  | not pred ih =>
    have hpred := ih hp hafter
    have hends : ∀ after, Token.bang.Ends after := Token.ends_of_not_word (by simp)
    have hbang : Reads (.bang :: tokens pred) _ (skipWhitespace after) := .cons trivial (hends _)
      ((hpred.skipWhitespace_eq (tokens_ne_nil pred)).symm ▸ hpred)
    simpa [display, tokens, Token.text] using hbang
  | descendant parent child ihp ihc =>
    have hchild := ihc hp.2 hafter
    have hparent := @ihp hp.1 (' ' :: (Operator.child.text ++ ' ' ::
      (child.display.toList ++ after))) (separated_cons (Or.inl rfl))
    simpa [display, tokens, Operator.text] using reads_binary hparent hchild (tokens_ne_nil child)
  | and left right ihl ihr =>
    have h := @reads_parenthesized _ .and _ _ (ihl hp.1) (ihr hp.2) after
    simpa [display, tokens, Operator.text] using h
  | or left right ihl ihr =>
    have h := @reads_parenthesized _ .or _ _ (ihl hp.1) (ihr hp.2) after
    simpa [display, tokens, Operator.text] using h

/-- The printed text is read as the chain of its items. -/
theorem generates_display {p : KeyBindingContextPredicate} (hp : p.toExpr.Named) :
    Generates p.display (chain (items p)) := by
  have hreads := @reads_display _ _ hp [] (by simp [Separated])
  rw [List.append_nil] at hreads
  exact ⟨[], p.display.toList, tokens p, rfl, by simp, hreads.spells, (chained_tokens p).derives⟩

/-- A parsed predicate is printed in a form that parses to it if and only if no operand
needs parentheses that are not printed. -/
theorem parse_display_iff {source : String} {p : KeyBindingContextPredicate}
    (h : parse source = some (.ok p)) : parse p.display = some (.ok p) ↔ p.Reparses := by
  obtain ⟨r, hr, hok, _⟩ := parse_iff_generates source
  obtain ⟨e, he, hp⟩ := (hok p).mp (Option.some.inj (hr.symm.trans h))
  obtain rfl := predicate_eq_some.mp hp
  have hnamed := (generates_iff.mp he).named (by simp)
  have hdisplay := generates_display hnamed
  obtain ⟨r', hr', hok', hunique⟩ := parse_iff_generates p.display
  rw [hr', Option.some.injEq, hok', ← chain_items_eq_iff]
  constructor
  · rintro ⟨e', he', hp'⟩
    rw [hunique _ e' hdisplay he', predicate_eq_some.mp hp']
  · intro hchain
    exact ⟨_, hdisplay, predicate_eq_some.mpr hchain⟩

end

theorem parse_display_iff_conjunction :
    @parse .asciiOnly (KeyBindingContextPredicate.and (.not (.identifier "a"))
      (.equal "b" "c")).display =
        some (.ok (.and (.not (.identifier "a")) (.equal "b" "c"))) ↔
      (KeyBindingContextPredicate.and (.not (.identifier "a")) (.equal "b" "c")).Reparses := by
  let table : CharTable := .asciiOnly
  apply @parse_display_iff _ "!a && b == c"
  have htext : "!a && b == c".toList =
      ['!', 'a', ' ', '&', '&', ' ', 'b', ' ', '=', '=', ' ', 'c'] := by simp
  rw [parse, htext]
  rfl

/-- A negated comparison is printed without its parentheses, and does not parse. -/
theorem not_parse_display_negatedEqual : ∃ p, @parse .asciiOnly "!(a == b)" = some (.ok p) ∧
    @parse .asciiOnly p.display ≠ some (.ok p) := by
  let table : CharTable := .asciiOnly
  refine ⟨.not (.equal "a" "b"), ?_, ?_⟩
  · have htext : "!(a == b)".toList = ['!', '(', 'a', ' ', '=', '=', ' ', 'b', ')'] := by simp
    rw [parse, htext]
    rfl
  · have htext : (KeyBindingContextPredicate.not (.equal "a" "b")).display.toList =
        ['!', 'a', ' ', '=', '=', ' ', 'b'] := by simp [display]
    rw [parse, htext]
    decide

end Lucie
