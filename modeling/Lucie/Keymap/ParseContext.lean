import Lucie.Keymap.ParsePredicate

/-!
# Parsing key contexts

A key context is parsed entry by entry. Every entry takes its identifiers, its `=` and the
white space behind them off the source; a character that is none of these stays, and the
parser meets it again at the next entry.
-/

set_option autoImplicit false

namespace Lucie.KeyContext

variable [CharTable]

/-- One entry of `parse_expr`: the source behind it and the context with it. -/
def parseEntry (source : List Char) (context : KeyContext) : List Char × KeyContext :=
  let key := String.ofList (source.takeWhile isIdentifierChar)
  let source := skipWhitespace (source.dropWhile isIdentifierChar)
  match source with
  | '=' :: suffix =>
    let source := skipWhitespace suffix
    let value := String.ofList (source.takeWhile isIdentifierChar)
    (skipWhitespace (source.dropWhile isIdentifierChar), context.set key value)
  | source => (source, context.add key)

/-- `KeyContext::parse_expr`, which has no error to return. It is `none` when the fuel runs
out. -/
def parseExpr : ℕ → List Char → KeyContext → Option KeyContext
  | 0, _, _ => none
  | fuel + 1, source, context =>
    if source.isEmpty then some context
    else
      let (source, context) := parseEntry source context
      parseExpr fuel source context

/-- `KeyContext::parse`. -/
def parse (fuel : ℕ) (source : String) : Option KeyContext :=
  parseExpr fuel (skipWhitespace source.toList) []

/-- The parser comes to an end. -/
def ParseTerminates (source : String) : Prop :=
  ∃ fuel context, parse fuel source = some context

/-- The characters that the parser takes off the source. -/
def isContextChar (c : Char) : Bool := isWhitespace c || isIdentifierChar c || c == '='

section Progress

omit [CharTable] in
/-- What a skip does not match stays. -/
theorem mem_dropWhile {p : Char → Bool} {source : List Char} {c : Char} (hmem : c ∈ source)
    (hc : p c = false) : c ∈ source.dropWhile p := by
  rw [← List.takeWhile_append_dropWhile (p := p) (l := source), List.mem_append] at hmem
  refine hmem.resolve_left fun hskipped => ?_
  rw [List.mem_takeWhile_imp hskipped] at hc
  cases hc

omit [CharTable] in
/-- After a skip, the source does not begin with white space. -/
theorem skipWhitespace_head {source rest : List Char} {c : Char}
    (h : skipWhitespace source = c :: rest) : isWhitespace c = false := by
  have hhead := List.head?_dropWhile_not isWhitespace source
  rw [← skipWhitespace, h, List.head?_cons] at hhead
  simpa using hhead

variable {source : List Char} (context : KeyContext)

/-- An entry leaves every character that the parser does not take. -/
theorem mem_parseEntry {c : Char} (hmem : c ∈ source) (hc : isContextChar c = false) :
    c ∈ (parseEntry source context).1 := by
  simp only [isContextChar, Bool.or_eq_false_iff, beq_eq_false_iff_ne] at hc
  obtain ⟨⟨hspace, hidentifier⟩, hequal⟩ := hc
  have hkey : c ∈ skipWhitespace (source.dropWhile isIdentifierChar) :=
    mem_dropWhile (mem_dropWhile hmem hidentifier) hspace
  unfold parseEntry
  dsimp only
  split
  · rename_i suffix heq
    rw [heq, List.mem_cons] at hkey
    exact mem_dropWhile (mem_dropWhile (mem_dropWhile (hkey.resolve_left hequal) hspace)
      hidentifier) hspace
  · exact hkey

/-- An entry that begins with an identifier or with `=` takes a character off the source. -/
theorem length_parseEntry_lt {c : Char} {rest : List Char} (hsource : source = c :: rest)
    (hspace : isWhitespace c = false) (hc : isContextChar c = true) :
    (parseEntry source context).1.length < source.length := by
  have hkey := length_skipWhitespace_le (source.dropWhile isIdentifierChar)
  have hdrop := (List.dropWhile_suffix isIdentifierChar (l := source)).length_le
  unfold parseEntry
  dsimp only
  split
  · rename_i suffix heq
    rw [heq, List.length_cons] at hkey
    have h₁ := length_skipWhitespace_le suffix
    have h₂ := (List.dropWhile_suffix isIdentifierChar (l := skipWhitespace suffix)).length_le
    have h₃ := length_skipWhitespace_le ((skipWhitespace suffix).dropWhile isIdentifierChar)
    dsimp only
    omega
  · rename_i hne
    have hidentifier : isIdentifierChar c = true := by
      by_contra hnot
      -- what is neither an identifier nor white space is the `=` of the first branch
      have hequal : c = '=' := by simpa [isContextChar, hspace, hnot] using hc
      refine hne rest ?_
      rw [hsource, List.dropWhile_cons, if_neg hnot, skipWhitespace, List.dropWhile_cons,
        if_neg (by simp [hspace]), hequal]
    rw [hsource, List.dropWhile_cons, if_pos hidentifier] at hkey ⊢
    have hrest := (List.dropWhile_suffix isIdentifierChar (l := rest)).length_le
    dsimp only
    rw [List.length_cons]
    omega

/-- What an entry leaves is part of the source. -/
theorem parseEntry_suffix : (parseEntry source context).1 <:+ source := by
  have hkey : skipWhitespace (source.dropWhile isIdentifierChar) <:+ source :=
    (List.dropWhile_suffix _).trans (List.dropWhile_suffix _)
  unfold parseEntry
  dsimp only
  split
  · rename_i suffix heq
    rw [heq] at hkey
    exact ((List.dropWhile_suffix _).trans (List.dropWhile_suffix _)).trans
      ((List.dropWhile_suffix _).trans ((List.suffix_cons _ _).trans hkey))
  · exact hkey

/-- What an entry leaves does not begin with white space. -/
theorem parseEntry_head {c : Char} {rest : List Char}
    (h : (parseEntry source context).1 = c :: rest) : isWhitespace c = false := by
  unfold parseEntry at h
  dsimp only at h
  split at h
  all_goals exact skipWhitespace_head h

end Progress

/-- A parser that meets a character it does not take runs on. -/
theorem parseExpr_eq_none {c : Char} (hc : isContextChar c = false) (fuel : ℕ)
    {source : List Char} (hmem : c ∈ source) (context : KeyContext) :
    parseExpr fuel source context = none := by
  induction fuel generalizing source context with
  | zero => rfl
  | succ fuel ih =>
    rw [parseExpr, if_neg (by simp [List.ne_nil_of_mem hmem])]
    exact ih (mem_parseEntry context hmem hc) _

/-- A source of characters that the parser takes is parsed in as many rounds as it is long. -/
theorem parseExpr_isSome {fuel : ℕ} {source : List Char} (hfuel : source.length < fuel)
    (hchars : ∀ c ∈ source, isContextChar c = true)
    (hhead : ∀ c rest, source = c :: rest → isWhitespace c = false) (context : KeyContext) :
    (parseExpr fuel source context).isSome = true := by
  induction fuel generalizing source context with
  | zero => omega
  | succ fuel ih =>
    cases source with
    | nil => rfl
    | cons c rest =>
      have hlt : (parseEntry (c :: rest) context).1.length < (c :: rest).length :=
        length_parseEntry_lt context rfl (hhead c rest rfl) (hchars c (by simp))
      rw [parseExpr, if_neg (by simp)]
      exact ih (by omega) (fun d hd => hchars d ((parseEntry_suffix context).mem hd))
        (fun d rest' heq => parseEntry_head context heq) _

/-- The parser comes to an end exactly if the source has only white space, identifiers
and `=`. -/
theorem parseTerminates_iff (source : String) :
    ParseTerminates source ↔ ∀ c ∈ source.toList, isContextChar c = true := by
  constructor
  · rintro ⟨fuel, context, hparse⟩ c hmem
    by_contra hc
    rw [Bool.not_eq_true] at hc
    have hspace : isWhitespace c = false := by
      simp only [isContextChar, Bool.or_eq_false_iff] at hc
      exact hc.1.1
    have hmem' : c ∈ skipWhitespace source.toList := mem_dropWhile hmem hspace
    rw [parse, parseExpr_eq_none hc fuel hmem'] at hparse
    cases hparse
  · intro hchars
    have hskip : ∀ c ∈ skipWhitespace source.toList, isContextChar c = true :=
      fun c hmem => hchars c ((List.dropWhile_suffix _).mem hmem)
    have hsome := parseExpr_isSome (Nat.lt_succ_self _) hskip
      (fun c rest heq => skipWhitespace_head heq) []
    exact ⟨_, Option.isSome_iff_exists.mp hsome⟩

omit [CharTable] in
/-- A negation is no context, and the parser never finds out. -/
theorem not_parseTerminates_negation : ¬@ParseTerminates .asciiOnly "!" := by
  let table : CharTable := .asciiOnly
  rintro ⟨fuel, context, hparse⟩
  have hbang : isContextChar '!' = false := by decide
  have hnone : parseExpr fuel ['!'] [] = none := parseExpr_eq_none hbang fuel (by simp) []
  have hsource : skipWhitespace "!".toList = ['!'] := by decide
  rw [parse, hsource, hnone] at hparse
  cases hparse

end Lucie.KeyContext
