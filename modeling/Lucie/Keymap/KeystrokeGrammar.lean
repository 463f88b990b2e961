import Lucie.Keymap.ParseKeystroke

/-!
# The grammar of keystrokes

A documented source has modifiers with a `-` behind each, a key, and perhaps `->` and a `key_char`.
The key and the `key_char` may be `-` themselves. What a source is read as depends on its
components behind the modifiers at the front, and so does whether the parser follows the grammar.
-/

set_option autoImplicit false

namespace Lucie

/-- The modifier is pressed. -/
def Modifier.pressed : Modifier → Modifiers → Bool
  | control, modifiers => modifiers.control
  | alt, modifiers => modifiers.alt
  | shift, modifiers => modifiers.shift
  | platform, modifiers => modifiers.platform
  | function, modifiers => modifiers.function

/-- The key that stands for a modifier on its own. -/
def Modifier.keyName : Modifier → String
  | control => "control"
  | alt => "alt"
  | shift => "shift"
  | platform => "platform"
  | function => "function"

namespace Keystroke

/-- The text of a key or a `key_char`: a `-`, or characters without one. -/
def IsKeyText (text : List Char) : Prop := text = ['-'] ∨ text ≠ [] ∧ '-' ∉ text

/-- What a `key_char` adds behind the key. -/
def arrow : Option (List Char) → List Char
  | none => []
  | some text => '-' :: '>' :: text

/-- A way to read a source in the documented grammar. -/
structure Reading (os : TargetOs) (source : String) where
  names : List (List Char)
  key : List Char
  keyChar : Option (List Char)
  names_isSome : ∀ name ∈ names, (Modifier.named os name).isSome = true
  key_isKeyText : IsKeyText key
  keyChar_isKeyText : ∀ text ∈ keyChar, IsKeyText text
  eq_append : source.toList = eachWithDash names ++ (key ++ arrow keyChar)

/-- The modifier of this name is pressed, or it is the key. -/
def Shown (os : TargetOs) (name : List Char) (keystroke : Keystroke) : Prop :=
  ∃ modifier, Modifier.named os name = some modifier ∧
    (modifier.pressed keystroke.modifiers = true ∨ keystroke.key = modifier.keyName)

/-- Every component of a reading is in the keystroke. A key may be in lower case, with shift when
it is a single letter, or be the name of a modifier. -/
structure Represents {os : TargetOs} {source : String} (r : Reading os source)
    (keystroke : Keystroke) : Prop where
  names : ∀ name ∈ r.names, Shown os name keystroke
  key : Shown os r.key keystroke ∨ keystroke.key = String.ofList r.key ∨
    keystroke.key = String.ofList (makeAsciiLowercase r.key) ∧
      (isUppercaseLetter r.key = true → keystroke.modifiers.shift = true)
  keyChar : keystroke.keyChar = r.keyChar.map String.ofList

/-- The parser accepts a source when it can be read in the documented grammar, with nothing in it
lost, and else returns the error for it. -/
structure FollowsGrammar (os : TargetOs) (source : String) : Prop where
  accepted : Nonempty (Reading os source) → ∃ keystroke, parse os source = .ok keystroke
  represented : ∀ keystroke, parse os source = .ok keystroke →
    ∃ r : Reading os source, Represents r keystroke
  rejected : IsEmpty (Reading os source) → parse os source = .error ⟨source⟩

/-- What may be left behind a `key_char` without an error: modifiers, more keys with a `key_char`,
and then a last component, or anything behind an empty one in a source that ends with `-`. -/
inductive AcceptsRest (os : TargetOs) (ends : Prop) : List (List Char) → Prop
  | nil : AcceptsRest os ends []
  | modifier {name : List Char} {rest : List (List Char)}
    (hname : (Modifier.named os name).isSome = true) (hrest : AcceptsRest os ends rest) :
    AcceptsRest os ends (name :: rest)
  | last (component : List Char) : AcceptsRest os ends [component]
  | dash {component : List Char} {rest : List (List Char)}
    (hnamed : Modifier.named os component = none) (hends : ends) :
    AcceptsRest os ends (component :: [] :: rest)
  | keyChar {component text : List Char} {rest : List (List Char)}
    (hnamed : Modifier.named os component = none) (htext : text ≠ [])
    (hrest : AcceptsRest os ends rest) : AcceptsRest os ends (component :: ('>' :: text) :: rest)

/-- The components behind the modifiers at the front, in a source that may end with `-`, that are
read as documented. There is nothing, a key, the key `-`, or a key with a `key_char`; or else the
parser returns the error, and the source is no key with the `key_char` `-`, and not the key `-`
with a `key_char`. -/
inductive ReadAsDocumented (os : TargetOs) (ends : Prop) : List (List Char) → Prop
  | modifiers : ReadAsDocumented os ends []
  | key {key : List Char} (hkey : key ≠ []) : ReadAsDocumented os ends [key]
  | dash : ReadAsDocumented os ends [[], []]
  | keyChar {key text : List Char} (hkey : key ≠ []) (htext : text ≠ []) :
    ReadAsDocumented os ends [key, '>' :: text]
  | more {component text : List Char} {rest : List (List Char)} (htext : text ≠ [])
    (hrest : rest ≠ []) (hnot : ¬AcceptsRest os ends rest) :
    ReadAsDocumented os ends (component :: ('>' :: text) :: rest)
  | empty {component : List Char} {rest : List (List Char)} (hends : ¬ends)
    (hnot : ¬(component = [] ∧ ∃ text, text ≠ [] ∧ rest = ['>' :: text])) :
    ReadAsDocumented os ends (component :: [] :: rest)
  | arrow {component : List Char} {rest : List (List Char)}
    (hnot : ¬(component ≠ [] ∧ rest = [[]])) :
    ReadAsDocumented os ends (component :: ['>'] :: rest)
  | other {component next : List Char} {rest : List (List Char)} (hnext : next ≠ [])
    (hhead : next.head? ≠ some '>') : ReadAsDocumented os ends (component :: next :: rest)

/-- The components of a source behind the modifiers at its front. -/
def behindModifiers (os : TargetOs) (source : String) : List (List Char) :=
  (source.toList.splitOn '-').dropWhile fun component => (Modifier.named os component).isSome

variable {os : TargetOs} {source : String}

/-! ## Readings by their components -/

/-- The names of modifiers in lower case. -/
def modifierNames : List (List Char) :=
  ["ctrl".toList, "alt".toList, "shift".toList, "fn".toList, "secondary".toList, "cmd".toList,
    "super".toList, "win".toList]

theorem named_isSome_iff {name : List Char} :
    (Modifier.named os name).isSome = true ↔ makeAsciiLowercase name ∈ modifierNames := by
  constructor
  · intro h
    by_contra hnot
    have hlower : ∀ other ∈ modifierNames, makeAsciiLowercase other = other := by decide
    have hno : ∀ other ∈ modifierNames, eqIgnoreAsciiCase name other = false := by
      intro other hother
      rw [eqIgnoreAsciiCase, beq_eq_false_iff_ne, hlower other hother]
      exact fun heq => hnot (heq ▸ hother)
    have hctrl := hno "ctrl".toList (by decide)
    have halt := hno "alt".toList (by decide)
    have hshift := hno "shift".toList (by decide)
    have hfn := hno "fn".toList (by decide)
    have hsecondary := hno "secondary".toList (by decide)
    have hcmd := hno "cmd".toList (by decide)
    have hsuper := hno "super".toList (by decide)
    have hwin := hno "win".toList (by decide)
    rw [Modifier.named, hctrl, halt, hshift, hfn, hsecondary, hcmd, hsuper, hwin] at h
    cases h
  · intro hmem
    have hall : ∀ other ∈ modifierNames, (Modifier.named os other).isSome = true := by
      cases os <;> decide
    rw [← Modifier.named_makeAsciiLowercase]
    exact hall _ hmem

theorem named_eq_none_iff {name : List Char} :
    Modifier.named os name = none ↔ makeAsciiLowercase name ∉ modifierNames := by
  rw [← @named_isSome_iff os name, Option.not_isSome_iff_eq_none]

theorem named_nil (os : TargetOs) : Modifier.named os [] = none :=
  named_eq_none_iff.mpr (by decide)

/-- A component with `>` in front names no modifier. -/
theorem named_arrow (os : TargetOs) (text : List Char) :
    Modifier.named os ('>' :: text) = none := by
  refine named_eq_none_iff.mpr fun hmem => ?_
  have hhead : ∀ name ∈ modifierNames, name.head? ≠ some '>' := by decide
  exact hhead _ hmem rfl

theorem not_mem_of_named {name : List Char} (h : (Modifier.named os name).isSome = true) :
    '-' ∉ name := by
  have hdash : ∀ name ∈ modifierNames, '-' ∉ name := by decide
  exact dash_mem_makeAsciiLowercase.not.mp (hdash _ (named_isSome_iff.mp h))

theorem eq_append_iff {names : List (List Char)}
    (hnames : ∀ name ∈ names, (Modifier.named os name).isSome = true) (text : List Char) :
    source.toList = eachWithDash names ++ text ↔
      source.toList.splitOn '-' = names ++ text.splitOn '-' := by
  have hsplit := splitOn_eachWithDash (fun name hname => not_mem_of_named (hnames name hname)) text
  constructor
  · intro heq
    rw [heq, hsplit]
  · intro heq
    have hsource : ['-'].intercalate (source.toList.splitOn '-') = source.toList :=
      List.intercalate_splitOn '-'
    rw [← hsource, heq, ← hsplit, List.intercalate_splitOn]

section Split

variable {key text : List Char}

theorem splitOn_key (hkey : '-' ∉ key) : (key ++ arrow none).splitOn '-' = [key] := by
  rw [arrow, List.append_nil, List.splitOn_eq_singleton hkey]

theorem splitOn_dash : (['-'] ++ arrow none).splitOn '-' = [[], []] := by decide

theorem splitOn_keyChar (hkey : '-' ∉ key) (htext : '-' ∉ text) :
    (key ++ arrow (some text)).splitOn '-' = [key, '>' :: text] := by
  have hnot : '-' ∉ '>' :: text := by simpa using htext
  rw [arrow, List.splitOn_append_cons_self_of_not_mem hkey, List.splitOn_eq_singleton hnot]

theorem splitOn_keyDash (hkey : '-' ∉ key) :
    (key ++ arrow (some ['-'])).splitOn '-' = [key, ['>'], []] := by
  rw [arrow, List.splitOn_append_cons_self_of_not_mem hkey]
  exact congrArg (List.cons key) (by decide)

theorem splitOn_dashChar (htext : '-' ∉ text) :
    (['-'] ++ arrow (some text)).splitOn '-' = [[], [], '>' :: text] := by
  have hsplit : (([] : List Char) ++ '-' :: ([] ++ arrow (some text))).splitOn '-' =
      [] :: ([] ++ arrow (some text)).splitOn '-' :=
    List.splitOn_append_cons_self_of_not_mem List.not_mem_nil _
  exact hsplit.trans (congrArg _ (splitOn_keyChar List.not_mem_nil htext))

theorem splitOn_dashDash : (['-'] ++ arrow (some ['-'])).splitOn '-' = [[], [], ['>'], []] := by
  decide

end Split

/-- What the components behind the modifiers at the front are when a source is read with this
`key_char`. The key is among the modifiers at the front when it has the name of one. -/
inductive TailOf : Option (List Char) → List (List Char) → Prop
  | modifier : TailOf none []
  | key {key : List Char} (hkey : key ≠ []) : TailOf none [key]
  | dash : TailOf none [[], []]
  | keyChar {key text : List Char} (hkey : key ≠ []) (htext : text ≠ []) :
    TailOf (some text) [key, '>' :: text]
  | modifierChar {text : List Char} (htext : text ≠ []) : TailOf (some text) ['>' :: text]
  | keyDash {key : List Char} (hkey : key ≠ []) : TailOf (some ['-']) [key, ['>'], []]
  | modifierDash : TailOf (some ['-']) [['>'], []]
  | dashChar {text : List Char} (htext : text ≠ []) : TailOf (some text) [[], [], '>' :: text]
  | dashDash : TailOf (some ['-']) [[], [], ['>'], []]

theorem Reading.tailOf (r : Reading os source) : TailOf r.keyChar (behindModifiers os source) := by
  obtain ⟨names, key, keyChar, hnames, hkey, hchar, heq⟩ := r
  have hdrop : ∀ rest : List (List Char), (names ++ rest).dropWhile
      (fun component => (Modifier.named os component).isSome) =
        rest.dropWhile fun component => (Modifier.named os component).isSome :=
    fun rest => List.dropWhile_append_of_pos hnames
  have hfirst : ∀ (key : List Char) (rest : List (List Char)), (key :: rest).dropWhile
      (fun component => (Modifier.named os component).isSome) =
        (rest.dropWhile fun component => (Modifier.named os component).isSome) ∨
      (key :: rest).dropWhile (fun component => (Modifier.named os component).isSome) =
        key :: rest := by
    intro key rest
    rw [List.dropWhile_cons]
    split_ifs
    exacts [.inl rfl, .inr rfl]
  have hnil := named_nil os
  have harrow := named_arrow os
  change TailOf keyChar _
  rw [behindModifiers, (eq_append_iff hnames _).mp heq, hdrop]
  cases keyChar with
  | none =>
    obtain rfl | ⟨hne, hdash⟩ := hkey
    · rw [splitOn_dash]
      simpa [hnil] using TailOf.dash
    · rw [splitOn_key hdash]
      obtain htail | htail := hfirst key []
      · rw [htail]
        exact .modifier
      · rw [htail]
        exact .key hne
  | some text =>
    obtain rfl | ⟨hne, hdash⟩ := hkey
    · obtain rfl | ⟨hne', hdash'⟩ := hchar text rfl
      · rw [splitOn_dashDash]
        simpa [hnil] using TailOf.dashDash
      · rw [splitOn_dashChar hdash']
        simpa [hnil] using TailOf.dashChar hne'
    · obtain rfl | ⟨hne', hdash'⟩ := hchar text rfl
      · rw [splitOn_keyDash hdash]
        obtain htail | htail := hfirst key [['>'], []]
        · rw [htail]
          simpa [harrow] using TailOf.modifierDash
        · rw [htail]
          exact .keyDash hne
      · rw [splitOn_keyChar hdash hdash']
        obtain htail | htail := hfirst key ['>' :: text]
        · rw [htail]
          simpa [harrow] using TailOf.modifierChar hne'
        · rw [htail]
          exact .keyChar hne hne'

theorem Reading.exists_tailOf (r : Reading os source) {components : List (List Char)}
    (h : behindModifiers os source = components) : ∃ keyChar, TailOf keyChar components :=
  ⟨r.keyChar, h ▸ r.tailOf⟩

/-! ## What the parser reads -/

/-- The modifiers at the front of a source. -/
def frontModifiers (os : TargetOs) (source : String) : List (List Char) :=
  (source.toList.splitOn '-').takeWhile fun component => (Modifier.named os component).isSome

theorem splitOn_eq_append (os : TargetOs) (source : String) :
    source.toList.splitOn '-' = frontModifiers os source ++ behindModifiers os source :=
  List.takeWhile_append_dropWhile.symm

theorem frontModifiers_isSome : ∀ name ∈ frontModifiers os source,
    (Modifier.named os name).isSome = true :=
  fun name hname => @List.mem_takeWhile_imp _ _ (source.toList.splitOn '-') name hname

/-- The first component behind the modifiers names none. -/
theorem named_of_behind {component : List Char} {rest : List (List Char)}
    (h : behindModifiers os source = component :: rest) : Modifier.named os component = none := by
  have hhead := List.head?_dropWhile_not
    (fun component => (Modifier.named os component).isSome) (source.toList.splitOn '-')
  rw [← behindModifiers, h] at hhead
  simpa using hhead

theorem not_mem_of_mem_behind {component : List Char} (h : component ∈ behindModifiers os source) :
    '-' ∉ component :=
  not_mem_of_mem_splitOn ((List.dropWhile_suffix _).subset h)

theorem parse_eq (os : TargetOs) (source : String) :
    parse os source = (do
      let (modifiers, key, keyChar) ← parseComponents os source (behindModifiers os source)
        (pressAll os (frontModifiers os source) {}) none none
      finish source modifiers key keyChar) := by
  rw [parse, splitOn_eq_append os source, parseComponents_append frontModifiers_isSome]

/-- A source whose components behind the modifiers are those of a key and a `key_char` can be read
so. -/
theorem exists_reading {key : List Char} {keyChar : Option (List Char)} (hkey : IsKeyText key)
    (hchar : ∀ text ∈ keyChar, IsKeyText text)
    (h : behindModifiers os source = (key ++ arrow keyChar).splitOn '-') :
    ∃ r : Reading os source, r.names = frontModifiers os source ∧ r.key = key ∧
      r.keyChar = keyChar := by
  have hsplit := splitOn_eq_append os source
  rw [h] at hsplit
  exact ⟨⟨frontModifiers os source, key, keyChar, frontModifiers_isSome, hkey, hchar,
    (eq_append_iff frontModifiers_isSome _).mpr hsplit⟩, rfl, rfl, rfl⟩

/-- The last component is empty when the source ends with a `-`. -/
theorem getLast?_of_behind {text : List Char}
    (h : behindModifiers os source = (text ++ ['-']).splitOn '-') :
    source.toList.getLast? = some '-' := by
  have hsplit := splitOn_eq_append os source
  rw [h] at hsplit
  rw [(eq_append_iff frontModifiers_isSome _).mpr hsplit, ← List.append_assoc]
  exact List.getLast?_concat

/-! ## What is represented -/

theorem pressed_press {modifier other : Modifier} {modifiers : Modifiers} :
    modifier.pressed (other.press modifiers) = true ↔
      modifier = other ∨ modifier.pressed modifiers = true := by
  cases modifier <;> cases other <;> simp [Modifier.press, Modifier.pressed]

/-- The modifiers that are named are pressed. -/
theorem pressed_pressAll {names : List (List Char)} {modifiers : Modifiers} {modifier : Modifier} :
    modifier.pressed (pressAll os names modifiers) = true ↔
      (∃ name ∈ names, Modifier.named os name = some modifier) ∨
        modifier.pressed modifiers = true := by
  rw [pressAll]
  simp only [← List.mem_filterMap]
  induction names.filterMap (Modifier.named os) generalizing modifiers with
  | nil => simp
  | cons other rest ih =>
    rw [List.foldl_cons, ih, pressed_press, List.mem_cons]
    tauto

/-- A modifier that is taken as the key is shown by it. -/
theorem pressed_takeKey {modifiers modifiers' : Modifiers} {key : String}
    (h : modifiers.takeKey = some (modifiers', key)) (modifier : Modifier)
    (hpressed : modifier.pressed modifiers = true) :
    modifier.pressed modifiers' = true ∨ key = modifier.keyName := by
  unfold Modifiers.takeKey at h
  split_ifs at h
  all_goals
    obtain ⟨rfl, rfl⟩ := Prod.mk.inj (Option.some.inj h)
    cases modifier <;> first | exact .inl hpressed | exact .inr rfl

/-- A keystroke shows all names of modifiers when it shows those that they press. -/
theorem shown_names {keystroke : Keystroke} {names : List (List Char)}
    (hnames : ∀ name ∈ names, (Modifier.named os name).isSome = true)
    (h : ∀ modifier : Modifier, modifier.pressed (pressAll os names {}) = true →
      modifier.pressed keystroke.modifiers = true ∨ keystroke.key = modifier.keyName) :
    ∀ name ∈ names, Shown os name keystroke := by
  intro name hname
  obtain ⟨modifier, hmodifier⟩ := Option.isSome_iff_exists.mp (hnames name hname)
  exact ⟨modifier, hmodifier, h modifier (pressed_pressAll.mpr (.inl ⟨name, hname, hmodifier⟩))⟩

/-! ## The cases of the components -/

theorem followsGrammar_of_ok {keystroke : Keystroke} (hparse : parse os source = .ok keystroke) :
    FollowsGrammar os source ↔ ∃ r : Reading os source, Represents r keystroke := by
  constructor
  · intro h
    exact h.represented keystroke hparse
  · rintro ⟨r, hr⟩
    refine ⟨fun _ => ⟨keystroke, hparse⟩, ?_, fun hempty => (hempty.false r).elim⟩
    intro keystroke' hparse'
    obtain rfl := Except.ok.inj (hparse.symm.trans hparse')
    exact ⟨r, hr⟩

theorem followsGrammar_of_error (hparse : parse os source = .error ⟨source⟩) :
    FollowsGrammar os source ↔ IsEmpty (Reading os source) := by
  constructor
  · intro h
    refine ⟨fun r => ?_⟩
    obtain ⟨keystroke, hok⟩ := h.accepted ⟨r⟩
    cases hparse.symm.trans hok
  · intro hempty
    refine ⟨fun ⟨r⟩ => (hempty.false r).elim, ?_, fun _ => hparse⟩
    intro keystroke hok
    cases hparse.symm.trans hok

/-- The modifiers at the front are taken over, and there is no key so far. -/
theorem parse_of_behind {components : List (List Char)} {modifiers : Modifiers}
    {key keyChar : Option String} (h : behindModifiers os source = components)
    (hloop : parseComponents os source components
      (pressAll os (frontModifiers os source) {}) none none = .ok (modifiers, key, keyChar)) :
    parse os source = finish source modifiers key keyChar := by
  rw [parse_eq, h, hloop]
  rfl

theorem parse_of_behind_error {components : List (List Char)}
    (h : behindModifiers os source = components)
    (hloop : parseComponents os source components
      (pressAll os (frontModifiers os source) {}) none none = .error ⟨source⟩) :
    parse os source = .error ⟨source⟩ := by
  rw [parse_eq, h, hloop]
  rfl

/-- Modifiers alone: the last one is read as the key. -/
theorem followsGrammar_nil (h : behindModifiers os source = []) : FollowsGrammar os source := by
  have hsplit := splitOn_eq_append os source
  rw [h, List.append_nil] at hsplit
  rcases List.eq_nil_or_concat (frontModifiers os source) with hfront | ⟨names, last, hfront⟩
  · exact absurd (hsplit.trans hfront) (List.splitOn_ne_nil _ _)
  rw [List.concat_eq_append] at hfront
  have hnames : ∀ name ∈ frontModifiers os source, (Modifier.named os name).isSome = true :=
    frontModifiers_isSome
  have hlast : (Modifier.named os last).isSome = true := hnames last (by simp [hfront])
  have hne : last ≠ [] := by
    rintro rfl
    rw [named_nil] at hlast
    cases hlast
  obtain ⟨modifier, hmodifier⟩ := Option.isSome_iff_exists.mp hlast
  have hpressed : modifier.pressed (pressAll os (frontModifiers os source) {}) = true :=
    pressed_pressAll.mpr (.inl ⟨last, by simp [hfront], hmodifier⟩)
  obtain ⟨modifiers, key, htake⟩ : ∃ modifiers key,
      (pressAll os (frontModifiers os source) {}).takeKey = some (modifiers, key) := by
    generalize pressAll os (frontModifiers os source) {} = modifiers at hpressed
    unfold Modifiers.takeKey
    split_ifs
    all_goals first | exact ⟨_, _, rfl⟩ | (cases modifier <;> simp_all [Modifier.pressed])
  have hparse : parse os source = .ok ⟨modifiers, key, none⟩ := by
    rw [parse_of_behind h (parseComponents.eq_1 ..), finish, htake]
  have hshown : ∀ name ∈ frontModifiers os source, Shown os name ⟨modifiers, key, none⟩ :=
    shown_names hnames fun modifier hpressed => pressed_takeKey htake modifier hpressed
  have hinit : ∀ name ∈ names, name ∈ frontModifiers os source := fun name hname => by
    rw [hfront]
    exact List.mem_append_left _ hname
  have hread : source.toList.splitOn '-' = names ++ (last ++ arrow none).splitOn '-' := by
    rw [splitOn_key (not_mem_of_named hlast), hsplit, hfront]
  refine (followsGrammar_of_ok hparse).mpr ⟨⟨names, last, none,
    fun name hname => hnames name (hinit name hname), .inr ⟨hne, not_mem_of_named hlast⟩, by simp,
    (eq_append_iff (fun name hname => hnames name (hinit name hname)) _).mpr hread⟩, ?_⟩
  exact ⟨fun name hname => hshown name (hinit name hname),
    .inl (hshown last (by simp [hfront])), rfl⟩

/-- A keystroke with the modifiers at the front represents a reading with this key. -/
theorem exists_represents {key : List Char} {keyChar : Option (List Char)} {keystroke : Keystroke}
    (hkey : IsKeyText key) (hchar : ∀ text ∈ keyChar, IsKeyText text)
    (h : behindModifiers os source = (key ++ arrow keyChar).splitOn '-')
    (hmodifiers : ∀ modifier : Modifier,
      modifier.pressed (pressAll os (frontModifiers os source) {}) = true →
        modifier.pressed keystroke.modifiers = true)
    (hkey' : keystroke.key = String.ofList key ∨
      keystroke.key = String.ofList (makeAsciiLowercase key) ∧
        (isUppercaseLetter key = true → keystroke.modifiers.shift = true))
    (hchar' : keystroke.keyChar = keyChar.map String.ofList) :
    ∃ r : Reading os source, Represents r keystroke := by
  obtain ⟨r, hnames, rfl, rfl⟩ := exists_reading hkey hchar h
  refine ⟨r, ?_, .inr hkey', hchar'⟩
  rw [hnames]
  exact shown_names frontModifiers_isSome fun modifier hpressed =>
    .inl (hmodifiers modifier hpressed)

section Cases

variable {component text : List Char} {rest : List (List Char)}

/-- One component: it has to be a key that is not empty. -/
theorem followsGrammar_single (h : behindModifiers os source = [component]) :
    FollowsGrammar os source ↔ component ≠ [] := by
  rw [followsGrammar_of_ok (parse_of_behind h (parseComponents_last (named_of_behind h)))]
  constructor
  · rintro ⟨r, hr⟩ rfl
    obtain ⟨keyChar, htail⟩ := r.exists_tailOf h
    cases htail with
    | key hkey => exact hkey rfl
  · intro hne
    have hdash : '-' ∉ component := by
      refine @not_mem_of_mem_behind os source component ?_
      rw [h]
      exact List.mem_singleton_self _
    refine exists_represents (.inr ⟨hne, hdash⟩) (by simp) (h.trans (splitOn_key hdash).symm) ?_
      (.inr ⟨rfl, ?_⟩) rfl
    · intro modifier hpressed
      cases modifier <;> simp_all [Modifier.pressed]
    · intro hupper
      simp [hupper]

/-- The last `-` is the key: there has to be one more in front of it, and no more than that. -/
theorem followsGrammar_ends (hend : source.toList.getLast? = some '-')
    (h : behindModifiers os source = component :: [] :: rest) :
    FollowsGrammar os source ↔ component = [] ∧ rest = [] := by
  rw [followsGrammar_of_ok (parse_of_behind h (parseComponents_dash (named_of_behind h) hend))]
  constructor
  · rintro ⟨r, hr⟩
    have htail := r.tailOf
    have hnone : r.keyChar = none := by simpa using hr.keyChar.symm
    rw [h, hnone] at htail
    cases htail with
    | dash => exact ⟨rfl, rfl⟩
  · rintro ⟨rfl, rfl⟩
    exact exists_represents (.inl rfl) (by simp) (h.trans splitOn_dash.symm) (fun _ => id)
      (.inl rfl) rfl

/-- A key and a `key_char`. -/
theorem followsGrammar_keyChar (htext : text ≠ [])
    (h : behindModifiers os source = [component, '>' :: text]) :
    FollowsGrammar os source ↔ component ≠ [] := by
  rw [followsGrammar_of_ok (parse_of_behind h ((parseComponents_keyChar (named_of_behind h)
    htext).trans (parseComponents.eq_1 ..)))]
  constructor
  · rintro ⟨r, hr⟩ rfl
    obtain ⟨keyChar, htail⟩ := r.exists_tailOf h
    cases htail with
    | keyChar hkey => exact hkey rfl
  · intro hne
    have hdash : ∀ c ∈ [component, '>' :: text], '-' ∉ c := fun c hc =>
      not_mem_of_mem_behind (h ▸ hc)
    obtain ⟨hkey, harrow, -⟩ : '-' ∉ component ∧ '-' ∉ '>' :: text ∧ _ := by
      simpa only [List.forall_mem_cons] using hdash
    have hchar : '-' ∉ text := fun hmem => harrow (List.mem_cons_of_mem _ hmem)
    refine exists_represents (.inr ⟨hne, hkey⟩) ?_ (h.trans (splitOn_keyChar hkey hchar).symm)
      (fun _ => id) (.inl rfl) rfl
    rintro text' ⟨⟩
    exact .inr ⟨htext, hchar⟩

/-- The loop accepts what it is said to accept, and its error is the one for the source. -/
theorem parseComponents_cases (os : TargetOs) (source : String) (components : List (List Char))
    (modifiers : Modifiers) (key keyChar : Option String) :
    (∃ result, parseComponents os source components modifiers key keyChar = .ok result) ∧
        AcceptsRest os (source.toList.getLast? = some '-') components ∨
      parseComponents os source components modifiers key keyChar = .error ⟨source⟩ ∧
        ¬AcceptsRest os (source.toList.getLast? = some '-') components := by
  fun_induction parseComponents os source components modifiers key keyChar with
  | case1 => exact .inl ⟨⟨_, rfl⟩, .nil⟩
  | case2 component rest _ _ _ _ hnamed ih =>
    refine ih.imp (And.imp_right (.modifier (by rw [hnamed]; rfl))) (And.imp_right ?_)
    intro hnot haccepts
    cases haccepts with
    | modifier _ hrest => exact hnot hrest
    | last => exact hnot .nil
    | dash hnone => cases hnamed.symm.trans hnone
    | keyChar hnone => cases hnamed.symm.trans hnone
  | case3 component _ _ _ hnamed next rest hend =>
    obtain ⟨hempty, hend⟩ := hend
    obtain rfl := List.isEmpty_iff.mp hempty
    exact .inl ⟨⟨_, rfl⟩, .dash hnamed hend⟩
  | case4 component _ _ _ hnamed next rest _ hnext ih =>
    obtain ⟨hlength, hhead⟩ := hnext
    obtain ⟨text, rfl⟩ := List.head?_eq_some_iff.mp hhead
    have htext : text ≠ [] := by
      rintro rfl
      exact absurd hlength (lt_irrefl 1)
    refine ih.imp (And.imp_right (.keyChar hnamed htext)) (And.imp_right ?_)
    intro hnot haccepts
    cases haccepts with
    | modifier hname =>
      rw [hnamed] at hname
      cases hname
    | keyChar _ _ hrest => exact hnot hrest
  | case5 component _ _ _ hnamed next rest hend hnext =>
    refine .inr ⟨rfl, fun haccepts => ?_⟩
    cases haccepts with
    | modifier hname =>
      rw [hnamed] at hname
      cases hname
    | dash _ hends => exact hend ⟨rfl, hends⟩
    | keyChar _ htext =>
      exact hnext ⟨Nat.succ_lt_succ (List.length_pos_iff.mpr htext), rfl⟩
  | case6 => exact .inl ⟨⟨_, rfl⟩, .last _⟩
  | case7 => exact .inl ⟨⟨_, rfl⟩, .last _⟩

/-- Something behind a `key_char`: it has to be what the parser rejects. -/
theorem followsGrammar_more (htext : text ≠ []) (hrest : rest ≠ [])
    (h : behindModifiers os source = component :: ('>' :: text) :: rest) :
    FollowsGrammar os source ↔ ¬AcceptsRest os (source.toList.getLast? = some '-') rest := by
  have hnone : IsEmpty (Reading os source) := by
    refine ⟨fun r => ?_⟩
    obtain ⟨keyChar, htail⟩ := r.exists_tailOf h
    cases htail with
    | keyChar => exact hrest rfl
    | keyDash => exact htext rfl
  obtain ⟨⟨⟨modifiers, key, keyChar⟩, hok⟩, haccepts⟩ | ⟨herror, hnot⟩ :=
    parseComponents_cases os source rest (pressAll os (frontModifiers os source) {})
      (some (String.ofList component)) (some (String.ofList text))
  · obtain ⟨key, rfl⟩ := Option.isSome_iff_exists.mp ((isSome_of_parseComponents hok).1 rfl)
    rw [followsGrammar_of_ok (parse_of_behind h
      ((parseComponents_keyChar (named_of_behind h) htext).trans hok))]
    exact ⟨fun ⟨r, _⟩ => (hnone.false r).elim, fun hnot => absurd haccepts hnot⟩
  · rw [followsGrammar_of_error (parse_of_behind_error h
      ((parseComponents_keyChar (named_of_behind h) htext).trans herror))]
    exact ⟨fun _ => hnot, fun _ => hnone⟩

/-- An empty component, and no `-` at the end: the source is rejected, so it may not be the key `-`
with a `key_char`. -/
theorem followsGrammar_empty (hend : source.toList.getLast? ≠ some '-')
    (h : behindModifiers os source = component :: [] :: rest) :
    FollowsGrammar os source ↔
      ¬(component = [] ∧ ∃ text, text ≠ [] ∧ rest = ['>' :: text]) := by
  have herror := parse_of_behind_error h
    (parseComponents_error (named_of_behind h) (fun hand => hend hand.2) nofun)
  rw [followsGrammar_of_error herror]
  constructor
  · rintro hempty ⟨rfl, text, htext, rfl⟩
    have hdash : '-' ∉ '>' :: text := not_mem_of_mem_behind (by rw [h]; simp)
    have hchar : '-' ∉ text := fun hmem => hdash (List.mem_cons_of_mem _ hmem)
    obtain ⟨r, -⟩ := exists_reading (.inl rfl) (by simpa using .inr ⟨htext, hchar⟩)
      (h.trans (splitOn_dashChar hchar).symm)
    exact hempty.false r
  · refine fun hnot => ⟨fun r => ?_⟩
    obtain ⟨keyChar, htail⟩ := r.exists_tailOf h
    have hno : ∀ text : List Char, component :: [] :: rest ≠ (text ++ ['-']).splitOn '-' :=
      fun text heq => hend (getLast?_of_behind (h.trans heq))
    cases htail with
    | dash => exact hno [] (by decide)
    | modifierDash => exact hno ['>'] (by decide)
    | dashChar htext => exact hnot ⟨rfl, _, htext, rfl⟩
    | dashDash => exact hno ['-', '-', '>'] (by decide)

/-- A `>` alone behind a component: the source is rejected, so `-` may not be the `key_char`. -/
theorem followsGrammar_arrow (h : behindModifiers os source = component :: ['>'] :: rest) :
    FollowsGrammar os source ↔ ¬(component ≠ [] ∧ rest = [[]]) := by
  have hnext : ∀ text, ['>'] = '>' :: text → text = [] := fun text heq => (List.cons.inj heq).2.symm
  have herror := parse_of_behind_error h
    (parseComponents_error (named_of_behind h) (by simp) hnext)
  rw [followsGrammar_of_error herror]
  constructor
  · rintro hempty ⟨hne, rfl⟩
    have hdash : '-' ∉ component := not_mem_of_mem_behind (by rw [h]; exact List.mem_cons_self)
    obtain ⟨r, -⟩ := exists_reading (.inr ⟨hne, hdash⟩) (by simpa using .inl rfl)
      (h.trans (splitOn_keyDash hdash).symm)
    exact hempty.false r
  · refine fun hnot => ⟨fun r => ?_⟩
    obtain ⟨keyChar, htail⟩ := r.exists_tailOf h
    cases htail with
    | keyChar _ htext => exact htext rfl
    | keyDash hkey => exact hnot ⟨hkey, rfl⟩

/-- Any other component behind one that is no modifier is an error, and not in the grammar. -/
theorem followsGrammar_other {next : List Char} (hnext : next ≠ [])
    (hhead : next.head? ≠ some '>') (h : behindModifiers os source = component :: next :: rest) :
    FollowsGrammar os source := by
  have hno : ∀ text, next = '>' :: text → text = [] := by
    rintro text rfl
    exact absurd rfl hhead
  have herror := parse_of_behind_error h
    (parseComponents_error (named_of_behind h) (fun hand => hnext hand.1) hno)
  refine (followsGrammar_of_error herror).mpr ⟨fun r => ?_⟩
  obtain ⟨keyChar, htail⟩ := r.exists_tailOf h
  cases htail with
  | dash => exact hnext rfl
  | keyChar => exact hhead rfl
  | keyDash => exact hhead rfl
  | modifierDash => exact hnext rfl
  | dashChar => exact hnext rfl
  | dashDash => exact hnext rfl

end Cases

/-- For every source, the parser accepts exactly the documented grammar and represents every
component if and only if the components behind the modifiers are read as documented. -/
theorem followsGrammar_iff (os : TargetOs) (source : String) :
    FollowsGrammar os source ↔
      ReadAsDocumented os (source.toList.getLast? = some '-') (behindModifiers os source) := by
  match h : behindModifiers os source with
  | [] => exact ⟨fun _ => .modifiers, fun _ => followsGrammar_nil h⟩
  | [component] =>
    rw [followsGrammar_single h]
    refine ⟨.key, fun hread => ?_⟩
    cases hread with
    | key hkey => exact hkey
  | component :: [] :: rest =>
    by_cases hend : source.toList.getLast? = some '-'
    · rw [followsGrammar_ends hend h]
      constructor
      · rintro ⟨rfl, rfl⟩
        exact .dash
      · intro hread
        cases hread with
        | dash => exact ⟨rfl, rfl⟩
        | empty hends => exact absurd hend hends
        | other hnext => exact absurd rfl hnext
    · rw [followsGrammar_empty hend h]
      refine ⟨.empty hend, fun hread => ?_⟩
      cases hread with
      | dash => simp
      | empty _ hnot => exact hnot
      | other hnext => exact absurd rfl hnext
  | component :: (c :: text) :: rest =>
    by_cases hc : c = '>'
    · subst hc
      by_cases htext : text = []
      · subst htext
        rw [followsGrammar_arrow h]
        refine ⟨.arrow, fun hread => ?_⟩
        cases hread with
        | keyChar _ htext => exact absurd rfl htext
        | more htext => exact absurd rfl htext
        | arrow hnot => exact hnot
        | other _ hhead => exact absurd rfl hhead
      · by_cases hrest : rest = []
        · subst hrest
          rw [followsGrammar_keyChar htext h]
          refine ⟨fun hne => .keyChar hne htext, fun hread => ?_⟩
          cases hread with
          | keyChar hkey => exact hkey
          | more _ hrest => exact absurd rfl hrest
          | arrow => exact absurd rfl htext
          | other _ hhead => exact absurd rfl hhead
        · rw [followsGrammar_more htext hrest h]
          refine ⟨.more htext hrest, fun hread => ?_⟩
          cases hread with
          | keyChar => exact absurd rfl hrest
          | more _ _ hnot => exact hnot
          | arrow => exact absurd rfl htext
          | other _ hhead => exact absurd rfl hhead
    · have hhead : (c :: text).head? ≠ some '>' := fun heq => hc (Option.some.inj heq)
      have hnext : c :: text ≠ [] := List.cons_ne_nil c text
      exact ⟨fun _ => .other hnext hhead, fun _ => followsGrammar_other hnext hhead h⟩

/-- The key that is dropped in front of the key `-`: the source has components, but it is no
modifiers and a key. -/
theorem not_followsGrammar_dropped : ¬FollowsGrammar .linux "a-" := by
  have hbehind : behindModifiers .linux "a-" = [['a'], []] := by decide
  rw [followsGrammar_ends (by decide) hbehind]
  decide

end Keystroke

end Lucie
