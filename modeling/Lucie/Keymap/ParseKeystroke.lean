import Mathlib
import Lucie.Keymap.Keystroke

/-!
# Parsing and printing keystrokes

A keystroke is written as its modifiers and its key, with a `-` behind every modifier. The parser
splits the source at each `-` and looks one component ahead, since the same character can be the
key, and the first half of the `->` before a `key_char`.
-/

set_option autoImplicit false

namespace Lucie

/-- The `target_os` of a build. -/
inductive TargetOs
  | macos
  | linux
  | freebsd
  | windows
  deriving DecidableEq

/-- `InvalidKeystrokeError`. -/
structure InvalidKeystrokeError where
  keystroke : String
  deriving DecidableEq

/-- One of the `Modifiers`. -/
inductive Modifier
  | control
  | alt
  | shift
  | platform
  | function
  deriving DecidableEq

/-- `make_ascii_lowercase`. -/
def makeAsciiLowercase (text : List Char) : List Char := text.map Char.toLower

/-- `eq_ignore_ascii_case`. -/
def eqIgnoreAsciiCase (text other : List Char) : Bool :=
  makeAsciiLowercase text == makeAsciiLowercase other

/-- A single byte that is an upper case letter. -/
def isUppercaseLetter : List Char → Bool
  | [c] => c.isUpper
  | _ => false

namespace Modifier

/-- Set a modifier. -/
def press : Modifier → Modifiers → Modifiers
  | control, modifiers => { modifiers with control := true }
  | alt, modifiers => { modifiers with alt := true }
  | shift, modifiers => { modifiers with shift := true }
  | platform, modifiers => { modifiers with platform := true }
  | function, modifiers => { modifiers with function := true }

/-- The modifier that a component of a source names. -/
def named (os : TargetOs) (component : List Char) : Option Modifier :=
  if eqIgnoreAsciiCase component "ctrl".toList then some control
  else if eqIgnoreAsciiCase component "alt".toList then some alt
  else if eqIgnoreAsciiCase component "shift".toList then some shift
  else if eqIgnoreAsciiCase component "fn".toList then some function
  else if eqIgnoreAsciiCase component "secondary".toList then
    if os = .macos then some platform else some control
  else if eqIgnoreAsciiCase component "cmd".toList ||
      eqIgnoreAsciiCase component "super".toList ||
      eqIgnoreAsciiCase component "win".toList then
    some platform
  else none

end Modifier

/-- The modifier that is the key when there is no other key, and the modifiers without it. -/
def Modifiers.takeKey (modifiers : Modifiers) : Option (Modifiers × String) :=
  if modifiers.shift then some ({ modifiers with shift := false }, "shift")
  else if modifiers.control then some ({ modifiers with control := false }, "control")
  else if modifiers.alt then some ({ modifiers with alt := false }, "alt")
  else if modifiers.platform then some ({ modifiers with platform := false }, "platform")
  else if modifiers.function then some ({ modifiers with function := false }, "function")
  else none

/-- `unparse`. -/
def Modifiers.unparse (os : TargetOs) (modifiers : Modifiers) (key : String) : String :=
  (if modifiers.function then "fn-" else "") ++
  (if modifiers.control then "ctrl-" else "") ++
  (if modifiers.alt then "alt-" else "") ++
  (if modifiers.platform then
    match os with
    | .macos => "cmd-"
    | .linux | .freebsd => "super-"
    | .windows => "win-"
  else "") ++
  (if modifiers.shift then "shift-" else "") ++
  key

namespace Keystroke

/-- The loop of `Keystroke::parse` over the components that are left, with the modifiers, the key
and the `key_char` so far. As `>` is a single byte, the length of a component that starts with it
is above one for its bytes when it is for its characters. -/
def parseComponents (os : TargetOs) (source : String) :
    List (List Char) → Modifiers → Option String → Option String →
      Except InvalidKeystrokeError (Modifiers × Option String × Option String)
  | [], modifiers, key, keyChar => .ok (modifiers, key, keyChar)
  | component :: rest, modifiers, key, keyChar =>
    match Modifier.named os component with
    | some modifier => parseComponents os source rest (modifier.press modifiers) key keyChar
    | none =>
      match rest with
      | next :: rest =>
        if next.isEmpty ∧ source.toList.getLast? = some '-' then
          .ok (modifiers, some "-", keyChar)
        else if 1 < next.length ∧ next.head? = some '>' then
          parseComponents os source rest modifiers (some (String.ofList component))
            (some (String.ofList next.tail))
        else .error ⟨source⟩
      | [] =>
        let key := some (String.ofList (makeAsciiLowercase component))
        if isUppercaseLetter component then .ok ({ modifiers with shift := true }, key, keyChar)
        else .ok (modifiers, key, keyChar)

/-- The end of `Keystroke::parse`, behind its loop. -/
def finish (source : String) (modifiers : Modifiers) (key keyChar : Option String) :
    Except InvalidKeystrokeError Keystroke :=
  match key with
  | some key => .ok ⟨modifiers, key, keyChar⟩
  | none =>
    match modifiers.takeKey with
    | some (modifiers, key) => .ok ⟨modifiers, key, keyChar⟩
    | none => .error ⟨source⟩

/-- `Keystroke::parse`. -/
def parse (os : TargetOs) (source : String) : Except InvalidKeystrokeError Keystroke := do
  let (modifiers, key, keyChar) ←
    parseComponents os source (source.toList.splitOn '-') {} none none
  finish source modifiers key keyChar

/-- `Keystroke::unparse`. -/
def unparse (os : TargetOs) (keystroke : Keystroke) : String :=
  keystroke.modifiers.unparse os keystroke.key

end Keystroke

/-! ## Letter case -/

@[simp] theorem makeAsciiLowercase_idem (text : List Char) :
    makeAsciiLowercase (makeAsciiLowercase text) = makeAsciiLowercase text := by
  rw [makeAsciiLowercase, makeAsciiLowercase, List.map_map]
  exact List.map_congr_left fun c _ => Char.toLower_toLower_eq_toLower c

theorem isUppercaseLetter_makeAsciiLowercase (text : List Char) :
    isUppercaseLetter (makeAsciiLowercase text) = false := by
  match text with
  | [] => rfl
  | [c] => exact Char.isUpper_toLower_eq_false c
  | _ :: _ :: _ => rfl

theorem toLower_eq_dash {c : Char} : c.toLower = '-' ↔ c = '-' := by
  by_cases hupper : c.isUpper = true
  · have hlower : c.toLower.isLower = true := by
      rw [Char.isLower_toLower_eq_isAlpha, Char.isAlpha, hupper, Bool.true_or]
    constructor
    · intro heq
      rw [heq] at hlower
      cases hlower
    · rintro rfl
      cases hupper
  · rw [Char.toLower_eq_of_not_isUpper hupper]

theorem dash_mem_makeAsciiLowercase {text : List Char} :
    '-' ∈ makeAsciiLowercase text ↔ '-' ∈ text := by
  rw [makeAsciiLowercase, List.mem_map]
  simp only [toLower_eq_dash, exists_eq_right]

/-- A name is told from its lowercase letters. -/
theorem Modifier.named_makeAsciiLowercase (os : TargetOs) (component : List Char) :
    named os (makeAsciiLowercase component) = named os component := by
  unfold named eqIgnoreAsciiCase
  rw [makeAsciiLowercase_idem]

/-! ## The components of a source -/

theorem not_mem_of_mem_splitOn {source component : List Char}
    (h : component ∈ source.splitOn '-') : '-' ∉ component := by
  induction source generalizing component with
  | nil =>
    obtain rfl : component = [] := by simpa using h
    exact List.not_mem_nil
  | cons c source ih =>
    rw [List.splitOn_cons_eq_if_modifyHead] at h
    split_ifs at h with hc
    · obtain rfl | h := List.mem_cons.mp h
      · exact List.not_mem_nil
      · exact ih h
    · obtain ⟨first, rest, hsplit⟩ := List.exists_cons_of_ne_nil (List.splitOn_ne_nil '-' source)
      rw [hsplit, List.modifyHead_cons] at h
      rw [hsplit] at ih
      obtain rfl | h := List.mem_cons.mp h
      · rw [List.mem_cons, not_or]
        exact ⟨fun heq => hc (beq_iff_eq.mpr heq.symm), ih List.mem_cons_self⟩
      · exact ih (List.mem_cons_of_mem _ h)

/-- A `-` behind every name. -/
def eachWithDash (names : List (List Char)) : List Char := names.flatMap (· ++ ['-'])

/-- Names with a `-` behind each are split into the names. -/
theorem splitOn_eachWithDash {names : List (List Char)} (hnames : ∀ name ∈ names, '-' ∉ name)
    (text : List Char) :
    (eachWithDash names ++ text).splitOn '-' = names ++ text.splitOn '-' := by
  induction names with
  | nil => rfl
  | cons name names ih =>
    obtain ⟨hname, hrest⟩ := List.forall_mem_cons.mp hnames
    have hcons : eachWithDash (name :: names) ++ text =
        name ++ '-' :: (eachWithDash names ++ text) := by simp [eachWithDash]
    rw [hcons, List.splitOn_append_cons_self_of_not_mem hname, ih hrest, List.cons_append]

namespace Keystroke

variable {os : TargetOs} {source : String} {component next : List Char}
  {rest : List (List Char)} {modifiers : Modifiers} {key keyChar : Option String}

/-! ## The rounds of the loop -/

section Rounds

attribute [local simp] parseComponents

theorem parseComponents_modifier {modifier : Modifier}
    (h : Modifier.named os component = some modifier) :
    parseComponents os source (component :: rest) modifiers key keyChar =
      parseComponents os source rest (modifier.press modifiers) key keyChar := by
  rw [parseComponents.eq_def]
  simp only [h]

theorem parseComponents_last (h : Modifier.named os component = none) :
    parseComponents os source [component] modifiers key keyChar =
      .ok ({ modifiers with shift := modifiers.shift || isUppercaseLetter component },
        some (String.ofList (makeAsciiLowercase component)), keyChar) := by
  cases hupper : isUppercaseLetter component <;> simp [h, hupper]

/-- The last `-` is the key. -/
theorem parseComponents_dash (h : Modifier.named os component = none)
    (hend : source.toList.getLast? = some '-') :
    parseComponents os source (component :: [] :: rest) modifiers key keyChar =
      .ok (modifiers, some "-", keyChar) := by
  simp [h, hend]

theorem parseComponents_keyChar (h : Modifier.named os component = none) {text : List Char}
    (htext : text ≠ []) :
    parseComponents os source (component :: ('>' :: text) :: rest) modifiers key keyChar =
      parseComponents os source rest modifiers (some (String.ofList component))
        (some (String.ofList text)) := by
  simp [h, List.length_pos_iff.mpr htext]

/-- Another component behind one that is no modifier is an error. -/
theorem parseComponents_error (h : Modifier.named os component = none)
    (hend : ¬(next = [] ∧ source.toList.getLast? = some '-'))
    (hnext : ∀ text, next = '>' :: text → text = []) :
    parseComponents os source (component :: next :: rest) modifiers key keyChar =
      .error ⟨source⟩ := by
  have hno : ¬(1 < next.length ∧ next.head? = some '>') := by
    rintro ⟨hlength, hhead⟩
    cases next with
    | nil => cases hhead
    | cons c text =>
      obtain rfl := Option.some.inj hhead
      rw [hnext text rfl] at hlength
      exact absurd hlength (lt_irrefl 1)
  rw [parseComponents.eq_def]
  simp only [h, List.isEmpty_iff]
  rw [if_neg hend, if_neg hno]

end Rounds

/-- The modifiers that some components name. -/
def pressAll (os : TargetOs) (names : List (List Char)) (modifiers : Modifiers) : Modifiers :=
  (names.filterMap (Modifier.named os)).foldl (fun modifiers m => m.press modifiers) modifiers

/-- The loop takes over the modifiers at the front. -/
theorem parseComponents_append {names : List (List Char)}
    (hnames : ∀ name ∈ names, (Modifier.named os name).isSome = true)
    (components : List (List Char)) (modifiers : Modifiers) (key keyChar : Option String) :
    parseComponents os source (names ++ components) modifiers key keyChar =
      parseComponents os source components (pressAll os names modifiers) key keyChar := by
  induction names generalizing modifiers with
  | nil => rfl
  | cons name names ih =>
    obtain ⟨hname, hrest⟩ := List.forall_mem_cons.mp hnames
    obtain ⟨modifier, hmodifier⟩ := Option.isSome_iff_exists.mp hname
    rw [List.cons_append, parseComponents_modifier hmodifier, ih hrest]
    simp only [pressAll, List.filterMap_cons, hmodifier, List.foldl_cons]

/-! ## Printing and parsing again -/

/-- A key and a `key_char` are only ever replaced by others. -/
theorem isSome_of_parseComponents {components : List (List Char)} {modifiers' : Modifiers}
    {key' keyChar' : Option String}
    (h : parseComponents os source components modifiers key keyChar =
      .ok (modifiers', key', keyChar')) :
    (key.isSome = true → key'.isSome = true) ∧
      (keyChar.isSome = true → keyChar'.isSome = true) := by
  fun_induction parseComponents os source components modifiers key keyChar with
  | case1 modifiers key keyChar =>
    obtain ⟨-, rfl, rfl⟩ : _ ∧ key = key' ∧ keyChar = keyChar' := by simpa using h
    exact ⟨id, id⟩
  | case2 _ _ _ _ _ _ _ ih => exact ih h
  | case3 =>
    obtain ⟨-, rfl, rfl⟩ : _ ∧ some "-" = key' ∧ _ = keyChar' := by simpa using h
    exact ⟨fun _ => rfl, id⟩
  | case4 _ _ _ _ _ _ _ _ _ ih => exact ⟨fun _ => (ih h).1 rfl, fun _ => (ih h).2 rfl⟩
  | case5 => cases h
  | case6 =>
    obtain ⟨-, rfl, rfl⟩ : _ ∧ _ = key' ∧ _ = keyChar' := by simpa using h
    exact ⟨fun _ => rfl, id⟩
  | case7 =>
    obtain ⟨-, rfl, rfl⟩ : _ ∧ _ = key' ∧ _ = keyChar' := by simpa using h
    exact ⟨fun _ => rfl, id⟩

/-- Without a `key_char`, the key is none so far, the last `-`, or the last component in lower
case. -/
theorem key_of_parseComponents {components : List (List Char)} {modifiers' : Modifiers}
    {key' : Option String} (h : parseComponents os source components modifiers none none =
      .ok (modifiers', key', none)) :
    key' = none ∨ key' = some "-" ∨ ∃ component ∈ components, Modifier.named os component = none ∧
      key' = some (String.ofList (makeAsciiLowercase component)) := by
  induction components generalizing modifiers with
  | nil =>
    obtain ⟨-, rfl⟩ : _ ∧ none = key' := by simpa [parseComponents] using h
    exact .inl rfl
  | cons component rest ih =>
    cases hnamed : Modifier.named os component with
    | some modifier =>
      rw [parseComponents_modifier hnamed] at h
      refine (ih h).imp_right (Or.imp_right ?_)
      rintro ⟨last, hlast, hkey⟩
      exact ⟨last, List.mem_cons_of_mem _ hlast, hkey⟩
    | none =>
      cases rest with
      | nil =>
        rw [parseComponents_last hnamed] at h
        obtain ⟨-, rfl⟩ : _ ∧ _ = key' := by simpa using h
        exact .inr (.inr ⟨component, List.mem_cons_self, hnamed, rfl⟩)
      | cons next rest =>
        by_cases hend : next = [] ∧ source.toList.getLast? = some '-'
        · obtain ⟨rfl, hend⟩ := hend
          rw [parseComponents_dash hnamed hend] at h
          obtain ⟨-, rfl⟩ : _ ∧ some "-" = key' := by simpa using h
          exact .inr (.inl rfl)
        · by_cases hnext : ∀ text, next = '>' :: text → text = []
          · rw [parseComponents_error hnamed hend hnext] at h
            cases h
          · push Not at hnext
            obtain ⟨text, rfl, htext⟩ := hnext
            rw [parseComponents_keyChar hnamed htext] at h
            cases (isSome_of_parseComponents h).2 rfl

/-- The names that `unparse` puts before the key. -/
def unparseNames (os : TargetOs) (modifiers : Modifiers) : List (List Char) :=
  (if modifiers.function then ["fn".toList] else []) ++
  (if modifiers.control then ["ctrl".toList] else []) ++
  (if modifiers.alt then ["alt".toList] else []) ++
  (if modifiers.platform then
    match os with
    | .macos => ["cmd".toList]
    | .linux | .freebsd => ["super".toList]
    | .windows => ["win".toList]
  else []) ++
  (if modifiers.shift then ["shift".toList] else [])

/-- The parser reads the names as the modifiers. -/
theorem pressAll_unparseNames (os : TargetOs) (modifiers : Modifiers) :
    (∀ name ∈ unparseNames os modifiers, (Modifier.named os name).isSome = true) ∧
      pressAll os (unparseNames os modifiers) {} = modifiers := by
  obtain ⟨control, alt, shift, platform, function⟩ := modifiers
  revert control alt shift platform function
  cases os <;> decide +kernel

theorem toList_unparse (os : TargetOs) (modifiers : Modifiers) (key : String) :
    (modifiers.unparse os key).toList =
      eachWithDash (unparseNames os modifiers) ++ key.toList := by
  have hname : ∀ (pressed : Bool) (name : List Char),
      (if pressed then String.ofList (name ++ ['-']) else "").toList =
        eachWithDash (if pressed then [name] else []) := by
    intro pressed name
    cases pressed <;> simp [eachWithDash]
  obtain ⟨control, alt, shift, platform, function⟩ := modifiers
  cases os
  all_goals
    simp only [eachWithDash] at hname
    simp only [Modifiers.unparse, unparseNames, String.toList_append, eachWithDash,
      List.flatMap_append, ← hname]
    rfl

theorem splitOn_unparse (os : TargetOs) (modifiers : Modifiers) (key : String) :
    (modifiers.unparse os key).toList.splitOn '-' =
      unparseNames os modifiers ++ key.toList.splitOn '-' := by
  have hdash : ∀ name ∈ unparseNames os modifiers, '-' ∉ name := by
    obtain ⟨control, alt, shift, platform, function⟩ := modifiers
    cases os <;> cases control <;> cases alt <;> cases shift <;> cases platform <;>
      cases function <;> decide
  rw [toList_unparse, splitOn_eachWithDash hdash]

/-- The parser reads the modifiers of a printed keystroke and goes on with its key. -/
theorem parse_unparse_eq (os : TargetOs) (modifiers : Modifiers) (key : String) :
    parse os (modifiers.unparse os key) = (do
      let (modifiers', key', keyChar) ← parseComponents os (modifiers.unparse os key)
        (key.toList.splitOn '-') modifiers none none
      finish (modifiers.unparse os key) modifiers' key' keyChar) := by
  obtain ⟨hnames, hpress⟩ := pressAll_unparseNames os modifiers
  rw [parse, splitOn_unparse, parseComponents_append hnames, hpress]

/-- A key that is a lowercase component is read as it is. -/
theorem parse_unparse_component (os : TargetOs) (modifiers : Modifiers)
    (hdash : '-' ∉ component) (hnamed : Modifier.named os component = none)
    (hlower : makeAsciiLowercase component = component) :
    parse os (modifiers.unparse os (String.ofList component)) =
      .ok ⟨modifiers, String.ofList component, none⟩ := by
  have hupper : isUppercaseLetter component = false :=
    hlower ▸ isUppercaseLetter_makeAsciiLowercase component
  rw [parse_unparse_eq, String.toList_ofList, List.splitOn_eq_singleton hdash,
    parseComponents_last hnamed, hlower, hupper, Bool.or_false]
  rfl

/-- The key `-` is read as it is. -/
theorem parse_unparse_dash (os : TargetOs) (modifiers : Modifiers) :
    parse os (modifiers.unparse os "-") = .ok ⟨modifiers, "-", none⟩ := by
  have hend : (modifiers.unparse os "-").toList.getLast? = some '-' := by
    rw [toList_unparse]
    exact List.getLast?_concat
  have hsplit : "-".toList.splitOn '-' = [[], []] := by decide
  have hnamed : Modifier.named os [] = none := by cases os <;> decide
  rw [parse_unparse_eq, hsplit, parseComponents_dash hnamed hend]
  rfl

/-- A modifier that was taken as the key is taken again. -/
theorem parse_unparse_takeKey (os : TargetOs) {modifiers modifiers' : Modifiers} {key : String}
    (h : modifiers.takeKey = some (modifiers', key)) :
    parse os (modifiers'.unparse os key) = .ok ⟨modifiers', key, none⟩ := by
  have hother : ∀ name : String, '-' ∉ name.toList → Modifier.named os name.toList = none →
      makeAsciiLowercase name.toList = name.toList →
      parse os (modifiers'.unparse os name) = .ok ⟨modifiers', name, none⟩ := by
    intro name hdash hnamed hlower
    have hparse := parse_unparse_component os modifiers' hdash hnamed hlower
    rwa [String.ofList_toList] at hparse
  -- the names of two modifiers are their keys, so they are pressed again and taken again
  have hsame : ∀ (name : String) (modifier : Modifier), '-' ∉ name.toList →
      Modifier.named os name.toList = some modifier →
      (modifier.press modifiers').takeKey = some (modifiers', name) →
      parse os (modifiers'.unparse os name) = .ok ⟨modifiers', name, none⟩ := by
    intro name modifier hdash hnamed htake
    rw [parse_unparse_eq, List.splitOn_eq_singleton hdash, parseComponents_modifier hnamed,
      parseComponents]
    change finish _ (modifier.press modifiers') none none = _
    rw [finish, htake]
  unfold Modifiers.takeKey at h
  split_ifs at h with hshift hcontrol halt hplatform hfunction
  all_goals obtain ⟨rfl, rfl⟩ := Prod.mk.inj (Option.some.inj h)
  · exact hsame "shift" .shift (by decide) (by cases os <;> decide) rfl
  · exact hother "control" (by decide) (by cases os <;> decide) (by decide)
  · refine hsame "alt" .alt (by decide) (by cases os <;> decide) ?_
    simp [Modifier.press, Modifiers.takeKey, hshift, hcontrol]
  · exact hother "platform" (by decide) (by cases os <;> decide) (by decide)
  · exact hother "function" (by decide) (by cases os <;> decide) (by decide)

/-- What the loop leaves when a source is accepted. -/
theorem exists_of_parse {keystroke : Keystroke} (h : parse os source = .ok keystroke) :
    ∃ modifiers key, parseComponents os source (source.toList.splitOn '-') {} none none =
        .ok (modifiers, key, keystroke.keyChar) ∧
      finish source modifiers key keystroke.keyChar = .ok keystroke := by
  unfold parse at h
  cases hloop : parseComponents os source (source.toList.splitOn '-') {} none none with
  | error e =>
    rw [hloop] at h
    cases h
  | ok result =>
    obtain ⟨modifiers, key, keyChar⟩ := result
    rw [hloop] at h
    have hfinish : finish source modifiers key keyChar = .ok keystroke := h
    obtain rfl : keyChar = keystroke.keyChar := by
      cases key with
      | some key => exact (congrArg Keystroke.keyChar (Except.ok.inj hfinish))
      | none =>
        rw [finish] at hfinish
        split at hfinish
        · exact congrArg Keystroke.keyChar (Except.ok.inj hfinish)
        · cases hfinish
    exact ⟨modifiers, key, rfl, hfinish⟩

/-- What was parsed without a `key_char` is printed so that it is parsed to the same keystroke. -/
theorem parse_unparse {keystroke : Keystroke} (h : parse os source = .ok keystroke)
    (hchar : keystroke.keyChar = none) : parse os (keystroke.unparse os) = .ok keystroke := by
  obtain ⟨modifiers, key, hloop, hfinish⟩ := exists_of_parse h
  obtain ⟨modifiers', name, keyChar⟩ := keystroke
  obtain rfl : keyChar = none := hchar
  rcases key_of_parseComponents hloop with rfl | rfl | ⟨component, hmem, hnamed, rfl⟩
  · rw [finish] at hfinish
    split at hfinish
    next htake =>
      obtain ⟨rfl, rfl⟩ : _ = modifiers' ∧ _ = name := by simpa using hfinish
      exact parse_unparse_takeKey os htake
    next => cases hfinish
  · obtain ⟨rfl, rfl⟩ : modifiers = modifiers' ∧ "-" = name := by simpa [finish] using hfinish
    exact parse_unparse_dash os modifiers
  · obtain ⟨rfl, rfl⟩ : modifiers = modifiers' ∧ String.ofList (makeAsciiLowercase component) =
        name := by simpa [finish] using hfinish
    have hdash : '-' ∉ makeAsciiLowercase component :=
      dash_mem_makeAsciiLowercase.not.mpr (not_mem_of_mem_splitOn hmem)
    exact parse_unparse_component os modifiers hdash
      ((Modifier.named_makeAsciiLowercase os component).trans hnamed) (makeAsciiLowercase_idem _)

/-- The key `-` with a modifier that is named after the build. -/
theorem parse_unparse_secondary :
    parse .macos "Secondary-shift--" = .ok ⟨⟨false, false, true, true, false⟩, "-", none⟩ ∧
      parse .macos (unparse .macos ⟨⟨false, false, true, true, false⟩, "-", none⟩) =
        .ok ⟨⟨false, false, true, true, false⟩, "-", none⟩ := by
  have hparse : parse .macos "Secondary-shift--" =
      .ok ⟨⟨false, false, true, true, false⟩, "-", none⟩ := by decide
  exact ⟨hparse, parse_unparse hparse rfl⟩

end Keystroke

end Lucie
