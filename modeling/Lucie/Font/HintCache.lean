import Mathlib.Data.List.Basic
import Mathlib.Data.Nat.Cast.WithTop
import Lucie.Font.FontCache

/-!
# The cache of hinting instances

There is one cache for the instances of each of two kinds of outlines. A full cache reconfigures
the instance that it looked up least recently. When this fails the entry stays, marked as just used
and under the key that was asked for, so it is found the next time although its instance is not
configured.
-/

set_option autoImplicit false

namespace Lucie

open Foundation

variable {Size Coord Instance : Type} [DecidableEq Size] [DecidableEq Coord]

/-- `OutlineGlyphFormat`. -/
inductive OutlineGlyphFormat
  | glyf
  | cff
  | cff2
  deriving DecidableEq

/-- `HintKey`. -/
structure HintKey (Size Coord : Type) where
  font : FontHandle
  size : Size
  coords : List Coord
  deriving DecidableEq

/-- Hinting instances for the outlines of fonts. An instance reports the size and the coordinates
that were last asked for, also when it could not be configured for them. -/
structure HintingEngine (Size Coord Instance : Type) where
  format : FontHandle → Option OutlineGlyphFormat
  size : Instance → Size
  coords : Instance → List Coord
  /-- What the instance was last configured for, unless that failed. -/
  configured : Instance → Option (HintKey Size Coord)
  new : HintKey Size Coord → Option Instance
  /-- Whether the instance could be configured, and the instance. -/
  reconfigure : Instance → HintKey Size Coord → Bool × Instance
  size_new : ∀ {key inst}, new key = some inst → size inst = key.size
  coords_new : ∀ {key inst}, new key = some inst → coords inst = key.coords
  configured_new : ∀ {key inst}, new key = some inst → configured inst = some key
  size_reconfigure : ∀ inst key, size (reconfigure inst key).2 = key.size
  coords_reconfigure : ∀ inst key, coords (reconfigure inst key).2 = key.coords
  configured_reconfigure : ∀ inst key, configured (reconfigure inst key).2 =
    if (reconfigure inst key).1 then some key else none

/-- `HintEntry`, with the `font_id` and the `font_index` as a handle. -/
structure HintEntry (Instance : Type) where
  font : FontHandle
  inst : Instance
  serial : ℕ

/-- `MAX_CACHED_HINT_INSTANCES`. -/
def maxCachedHintInstances : ℕ := 16

/-- The two caches. -/
inductive HintCacheKind
  | glyf
  | cff
  deriving DecidableEq

/-- The cache for a format. -/
def OutlineGlyphFormat.kind : OutlineGlyphFormat → HintCacheKind
  | .glyf => .glyf
  | _ => .cff

/-- `HintCache`. The serial numbers stay below the greatest one. -/
structure HintCache (Instance : Type) where
  glyfEntries : List (HintEntry Instance)
  cffEntries : List (HintEntry Instance)
  serial : ℕ

namespace HintEntry

/-- The key that an entry is found under. -/
def key (engine : HintingEngine Size Coord Instance) (entry : HintEntry Instance) :
    HintKey Size Coord :=
  ⟨entry.font, engine.size entry.inst, engine.coords entry.inst⟩

end HintEntry

namespace HintCache

variable (engine : HintingEngine Size Coord Instance)

/-- `HintCache::new`. -/
def new : HintCache Instance := ⟨[], [], 0⟩

/-- The entries for a kind of outlines. -/
def entries (cache : HintCache Instance) : HintCacheKind → List (HintEntry Instance)
  | .glyf => cache.glyfEntries
  | .cff => cache.cffEntries

/-- The cache with other entries for a kind of outlines. -/
def setEntries (cache : HintCache Instance) (kind : HintCacheKind)
    (entries : List (HintEntry Instance)) : HintCache Instance :=
  match kind with
  | .glyf => { cache with glyfEntries := entries }
  | .cff => { cache with cffEntries := entries }

/-- The loop of `find` from an index on: either the index of the entry for the key, or that of an
entry with the least serial number. -/
def findLoop (key : HintKey Size Coord) :
    List (HintEntry Instance) → ℕ → WithTop ℕ → ℕ → ℕ ⊕ ℕ
  | [], _, _, foundIndex => .inr foundIndex
  | entry :: entries, ix, foundSerial, foundIndex =>
    if entry.font = key.font ∧ engine.size entry.inst = key.size ∧
        engine.coords entry.inst = key.coords then .inl ix
    else if entry.serial < foundSerial then findLoop key entries (ix + 1) entry.serial ix
    else findLoop key entries (ix + 1) foundSerial foundIndex

/-- `HintCache::find`, with the entries after it. -/
def find (entries : List (HintEntry Instance)) (key : HintKey Size Coord) :
    Option (ℕ × Bool × List (HintEntry Instance)) :=
  match findLoop engine key entries 0 ⊤ 0 with
  | .inl ix => some (ix, true, entries)
  | .inr foundIndex =>
    if entries.length < maxCachedHintInstances then
      (engine.new key).map fun inst =>
        (entries.length, true, entries ++ [⟨key.font, inst, 0⟩])
    else some (foundIndex, false, entries)

/-- `HintCache::get`, which returns a reference to the instance of an entry. -/
def get (cache : HintCache Instance) (key : HintKey Size Coord) :
    Option (HintCacheKind × ℕ) × HintCache Instance :=
  match engine.format key.font with
  | none => (none, cache)
  | some format =>
    match find engine (cache.entries format.kind) key with
    | none => (none, cache)
    | some (entryIx, isCurrent, entries) =>
      match entries[entryIx]? with
      | none => (none, cache.setEntries format.kind entries)
      | some entry =>
        let serial := cache.serial + 1
        if isCurrent then
          (some (format.kind, entryIx), { cache with serial }.setEntries format.kind
            (entries.set entryIx { entry with serial }))
        else
          let (succeeds, inst) := engine.reconfigure entry.inst key
          (if succeeds then some (format.kind, entryIx) else none,
            { cache with serial }.setEntries format.kind
              (entries.set entryIx ⟨key.font, inst, serial⟩))

end HintCache

/-- A cache of instances, with the last time that the instance at an index was returned. The time
is the serial number. -/
structure HintCacheRun (Instance : Type) where
  cache : HintCache Instance
  returned : HintCacheKind → ℕ → ℕ

namespace HintCacheRun

variable (engine : HintingEngine Size Coord Instance)

/-- A new cache. -/
def new : HintCacheRun Instance := ⟨.new, fun _ _ => 0⟩

/-- One call of `get`. -/
def step (s : HintCacheRun Instance) (key : HintKey Size Coord) :
    Option (HintCacheRun Instance) :=
  match s.cache.get engine key with
  | (none, cache) => some { s with cache }
  | (some (kind, ix), cache) =>
    some ⟨cache, Function.update s.returned kind
      (Function.update (s.returned kind) ix cache.serial)⟩

/-- What a call should do: an instance that is returned is configured for the key, the caches have
at most sixteen entries, and one that is replaced is the one returned least recently. -/
structure Right (s : HintCacheRun Instance) (key : HintKey Size Coord) : Prop where
  configured : ∀ kind ix, (s.cache.get engine key).1 = some (kind, ix) →
    ∃ entry, ((s.cache.get engine key).2.entries kind)[ix]? = some entry ∧
      engine.configured entry.inst = some key
  length : ∀ kind, ((s.cache.get engine key).2.entries kind).length ≤ 16
  replaced : ∀ kind ix before after, (s.cache.entries kind)[ix]? = some before →
    ((s.cache.get engine key).2.entries kind)[ix]? = some after →
    after.key engine ≠ before.key engine →
    ∀ other < (s.cache.entries kind).length, s.returned kind ix ≤ s.returned kind other

/-- The entry that the cache has for a key. -/
def entryFor (s : HintCacheRun Instance) (kind : HintCacheKind) (key : HintKey Size Coord) :
    Option (HintEntry Instance) :=
  (s.cache.entries kind).find? fun entry => entry.key engine = key

/-- The entry for the key was configured, and when an entry has to make place, one that could not be
configured was looked up before all others. -/
def SkipsFailed (s : HintCacheRun Instance) (key : HintKey Size Coord) : Prop :=
  ∀ format, engine.format key.font = some format →
    (∀ entry, s.entryFor engine format.kind key = some entry →
      engine.configured entry.inst ≠ none) ∧
    (s.entryFor engine format.kind key = none → 16 ≤ (s.cache.entries format.kind).length →
      ∀ failed ∈ s.cache.entries format.kind, engine.configured failed.inst = none →
        ∀ other ∈ s.cache.entries format.kind, failed.serial ≤ other.serial)

end HintCacheRun

/-! ## The loop -/

namespace HintCache

variable {engine : HintingEngine Size Coord Instance} {key : HintKey Size Coord}

omit [DecidableEq Size] [DecidableEq Coord] in
theorem key_eq_iff (entry : HintEntry Instance) : entry.key engine = key ↔
    entry.font = key.font ∧ engine.size entry.inst = key.size ∧
      engine.coords entry.inst = key.coords := by
  obtain ⟨font, size, coords⟩ := key
  simp [HintEntry.key]

/-- The loop ends early at the first entry for the key. -/
theorem findLoop_hit {entries : List (HintEntry Instance)} {ix foundIndex i : ℕ}
    {foundSerial : WithTop ℕ}
    (h : findLoop engine key entries ix foundSerial foundIndex = .inl i) :
    ∃ j entry, i = ix + j ∧ entries[j]? = some entry ∧ entry.key engine = key ∧
      entries.find? (fun entry => entry.key engine = key) = some entry := by
  induction entries generalizing ix foundSerial foundIndex with
  | nil => cases h
  | cons entry entries ih =>
    rw [findLoop] at h
    split_ifs at h with hkey hserial
    all_goals rw [← key_eq_iff] at hkey
    · obtain rfl := Sum.inl.inj h
      exact ⟨0, entry, rfl, rfl, hkey, List.find?_cons_of_pos (decide_eq_true hkey)⟩
    all_goals
      obtain ⟨j, found, rfl, hget, hfound, hfind⟩ := ih h
      refine ⟨j + 1, found, by omega, hget, hfound, ?_⟩
      rw [List.find?_cons_of_neg (by simpa using hkey)]
      exact hfind

/-- Otherwise it ends with the first of the entries with the least serial number. -/
theorem findLoop_miss {entries : List (HintEntry Instance)} {ix foundIndex i : ℕ}
    {foundSerial : WithTop ℕ}
    (h : findLoop engine key entries ix foundSerial foundIndex = .inr i) :
    (∀ entry ∈ entries, entry.key engine ≠ key) ∧
      ((i = foundIndex ∧ ∀ entry ∈ entries, foundSerial ≤ entry.serial) ∨
        ∃ j entry, i = ix + j ∧ entries[j]? = some entry ∧ entry.serial < foundSerial ∧
          ∀ other ∈ entries, entry.serial ≤ other.serial) := by
  induction entries generalizing ix foundSerial foundIndex with
  | nil =>
    obtain rfl := Sum.inr.inj h
    exact ⟨nofun, .inl ⟨rfl, nofun⟩⟩
  | cons entry entries ih =>
    rw [findLoop] at h
    split_ifs at h with hkey hserial
    all_goals rw [← key_eq_iff] at hkey
    · -- the entry has the least number so far
      obtain ⟨hnone, hleast⟩ := ih h
      refine ⟨List.forall_mem_cons.mpr ⟨hkey, hnone⟩, .inr ?_⟩
      obtain ⟨rfl, hleast⟩ | ⟨j, found, rfl, hget, hless, hleast⟩ := hleast
      · refine ⟨0, entry, rfl, rfl, hserial, List.forall_mem_cons.mpr ⟨le_rfl, ?_⟩⟩
        intro other hother
        exact WithTop.coe_le_coe.mp (hleast other hother)
      · have hless : found.serial < entry.serial := WithTop.coe_lt_coe.mp hless
        refine ⟨j + 1, found, by omega, hget, (WithTop.coe_lt_coe.mpr hless).trans hserial, ?_⟩
        exact List.forall_mem_cons.mpr ⟨hless.le, hleast⟩
    · obtain ⟨hnone, hleast⟩ := ih h
      refine ⟨List.forall_mem_cons.mpr ⟨hkey, hnone⟩, ?_⟩
      rw [not_lt] at hserial
      obtain ⟨rfl, hleast⟩ | ⟨j, found, rfl, hget, hless, hleast⟩ := hleast
      · exact .inl ⟨rfl, List.forall_mem_cons.mpr ⟨hserial, hleast⟩⟩
      · refine .inr ⟨j + 1, found, by omega, hget, hless, List.forall_mem_cons.mpr ⟨?_, hleast⟩⟩
        exact WithTop.coe_le_coe.mp (hless.le.trans hserial)

@[simp] theorem entries_setEntries_self (cache : HintCache Instance) (kind : HintCacheKind)
    (entries : List (HintEntry Instance)) :
    (cache.setEntries kind entries).entries kind = entries := by
  cases kind <;> rfl

@[simp] theorem entries_setEntries_of_ne (cache : HintCache Instance) {kind other : HintCacheKind}
    (h : other ≠ kind) (entries : List (HintEntry Instance)) :
    (cache.setEntries kind entries).entries other = cache.entries other := by
  cases kind <;> cases other <;> first
    | rfl
    | exact absurd rfl h

@[simp] theorem serial_setEntries (cache : HintCache Instance) (kind : HintCacheKind)
    (entries : List (HintEntry Instance)) :
    (cache.setEntries kind entries).serial = cache.serial := by
  cases kind <;> rfl

/-- What `get` does with the entries of a format. -/
inductive Got (engine : HintingEngine Size Coord Instance) (cache : HintCache Instance)
    (key : HintKey Size Coord) (kind : HintCacheKind) :
    Option (HintCacheKind × ℕ) × HintCache Instance → Prop
  | hit (ix : ℕ) (entry : HintEntry Instance) (hget : (cache.entries kind)[ix]? = some entry)
      (hkey : entry.key engine = key)
      (hfind : (cache.entries kind).find? (fun entry => entry.key engine = key) = some entry) :
      Got engine cache key kind (some (kind, ix),
        { cache with serial := cache.serial + 1 }.setEntries kind
          ((cache.entries kind).set ix { entry with serial := cache.serial + 1 }))
  | added (inst : Instance) (hnone : ∀ entry ∈ cache.entries kind, entry.key engine ≠ key)
      (hlength : (cache.entries kind).length < 16) (hnew : engine.new key = some inst) :
      Got engine cache key kind (some (kind, (cache.entries kind).length),
        { cache with serial := cache.serial + 1 }.setEntries kind
          (cache.entries kind ++ [HintEntry.mk key.font inst (cache.serial + 1)]))
  | notAdded (hnone : ∀ entry ∈ cache.entries kind, entry.key engine ≠ key)
      (hlength : (cache.entries kind).length < 16) (hnew : engine.new key = none) :
      Got engine cache key kind (none, cache)
  | replaced (ix : ℕ) (entry : HintEntry Instance)
      (hnone : ∀ entry ∈ cache.entries kind, entry.key engine ≠ key)
      (hlength : 16 ≤ (cache.entries kind).length)
      (hget : (cache.entries kind)[ix]? = some entry)
      (hleast : ∀ other ∈ cache.entries kind, entry.serial ≤ other.serial) :
      Got engine cache key kind
        (if (engine.reconfigure entry.inst key).1 then some (kind, ix) else none,
          { cache with serial := cache.serial + 1 }.setEntries kind
            ((cache.entries kind).set ix
              ⟨key.font, (engine.reconfigure entry.inst key).2, cache.serial + 1⟩))

/-- `get` does one of these. -/
theorem got_get {cache : HintCache Instance} {format : OutlineGlyphFormat}
    (hformat : engine.format key.font = some format) :
    Got engine cache key format.kind (cache.get engine key) := by
  rw [get, hformat]
  dsimp only
  unfold find
  cases hloop : findLoop engine key (cache.entries format.kind) 0 ⊤ 0 with
  | inl ix =>
    obtain ⟨j, entry, rfl, hget, hkey, hfind⟩ := findLoop_hit hloop
    rw [Nat.zero_add]
    simp only [hget]
    exact .hit j entry hget hkey hfind
  | inr foundIndex =>
    obtain ⟨hnone, hleast⟩ := findLoop_miss hloop
    dsimp only
    split_ifs with hlength
    · cases hnew : engine.new key with
      | none => exact .notAdded hnone hlength hnew
      | some inst =>
        simpa using Got.added inst hnone hlength hnew
    · have hlength : 16 ≤ (cache.entries format.kind).length := not_lt.mp hlength
      obtain ⟨-, hempty⟩ | ⟨j, entry, rfl, hget, -, hleast⟩ := hleast
      · -- an entry that is not found would have the greatest serial number
        have hpos : 0 < (cache.entries format.kind).length := by omega
        have htop := hempty _ (List.getElem_mem hpos)
        exact absurd (top_le_iff.mp htop) (WithTop.natCast_ne_top _)
      · rw [Nat.zero_add]
        simp only [hget]
        exact .replaced j entry hnone hlength hget hleast

end HintCache

/-! ## Entries that were returned -/

/-- The entries of one cache with the times at which they were returned. An instance that is
configured was returned when it was looked up last, and one that is not is the one that was returned
least recently. -/
structure Returned (engine : HintingEngine Size Coord Instance)
    (entries : List (HintEntry Instance)) (returned : ℕ → ℕ) (serial : ℕ) : Prop where
  bound : ∀ {i : ℕ} {a : HintEntry Instance}, entries[i]? = some a →
    a.serial ≤ serial ∧ returned i ≤ serial
  serials : ∀ {i j : ℕ} {a b : HintEntry Instance}, entries[i]? = some a → entries[j]? = some b →
    a.serial = b.serial → i = j
  times : ∀ {i j : ℕ} {a b : HintEntry Instance}, entries[i]? = some a → entries[j]? = some b →
    returned i = returned j → i = j
  configured : ∀ {i : ℕ} {a : HintEntry Instance} {key : HintKey Size Coord},
    entries[i]? = some a → engine.configured a.inst = some key →
    a.key engine = key ∧ returned i = a.serial
  failed : ∀ {i j : ℕ} {a b : HintEntry Instance}, entries[i]? = some a →
    engine.configured a.inst = none → entries[j]? = some b → returned i ≤ returned j

namespace Returned

variable {engine : HintingEngine Size Coord Instance} {entries entries' : List (HintEntry Instance)}
variable {returned : ℕ → ℕ} {serial : ℕ}

omit [DecidableEq Size] [DecidableEq Coord] in
/-- An instance that did not fail is configured for the key that its entry is found under. -/
theorem configured_for (h : Returned engine entries returned serial) {ix : ℕ}
    {entry : HintEntry Instance} (hget : entries[ix]? = some entry)
    (hworks : engine.configured entry.inst ≠ none) :
    engine.configured entry.inst = some (entry.key engine) := by
  obtain ⟨key, hkey⟩ := Option.ne_none_iff_exists'.mp hworks
  rw [hkey, (h.configured hget hkey).1]

omit [DecidableEq Size] [DecidableEq Coord] in
/-- The entry with the least serial number is the one that was returned least recently, if an entry
that is not configured has the least number. -/
theorem least_returned (h : Returned engine entries returned serial) {ix : ℕ}
    {entry : HintEntry Instance} (hget : entries[ix]? = some entry)
    (hleast : ∀ other ∈ entries, entry.serial ≤ other.serial)
    (hfailed : ∀ failed ∈ entries, engine.configured failed.inst = none →
      ∀ other ∈ entries, failed.serial ≤ other.serial) {j : ℕ} {other : HintEntry Instance}
    (hother : entries[j]? = some other) : returned ix ≤ returned j := by
  have hmem := List.mem_of_getElem? hother
  cases hentry : engine.configured entry.inst with
  | none => exact h.failed hget hentry hother
  | some key =>
    cases hconfigured : engine.configured other.inst with
    | none =>
      -- both have the least number
      have hserial := hfailed other hmem hconfigured entry (List.mem_of_getElem? hget)
      have hsame := h.serials hget hother (le_antisymm (hleast other hmem) hserial)
      rw [hsame]
    | some key' =>
      rw [(h.configured hget hentry).2, (h.configured hother hconfigured).2]
      exact hleast other hmem

omit [DecidableEq Size] [DecidableEq Coord] in
/-- Only such an entry has the least number, if the entry with the least number was returned least
recently. -/
theorem failed_least (h : Returned engine entries returned serial) {ix : ℕ}
    {entry : HintEntry Instance} (hget : entries[ix]? = some entry)
    (hleast : ∀ other ∈ entries, entry.serial ≤ other.serial)
    (hreturned : ∀ other < entries.length, returned ix ≤ returned other)
    {failed : HintEntry Instance} (hmem : failed ∈ entries)
    (hfailed : engine.configured failed.inst = none) {other : HintEntry Instance}
    (hother : other ∈ entries) : failed.serial ≤ other.serial := by
  obtain ⟨j, hj⟩ := List.mem_iff_getElem?.mp hmem
  have hle := hreturned j (List.getElem?_eq_some_iff.mp hj).1
  obtain rfl := h.times hj hget (le_antisymm (h.failed hj hfailed hget) hle)
  obtain rfl := Option.some.inj (hj.symm.trans hget)
  exact hleast other hother

omit [DecidableEq Size] [DecidableEq Coord] in
/-- The other cache was not looked at. -/
theorem mono (h : Returned engine entries returned serial) :
    Returned engine entries returned (serial + 1) where
  bound hget := ⟨(h.bound hget).1.trans (Nat.le_succ _), (h.bound hget).2.trans (Nat.le_succ _)⟩
  serials := h.serials
  times := h.times
  configured := h.configured
  failed := h.failed

omit [DecidableEq Size] [DecidableEq Coord] in
/-- A new serial number is at one index only. -/
theorem serials_of_fresh (h : Returned engine entries returned serial) {ix : ℕ}
    {entry : HintEntry Instance}
    (hentries : ∀ j, entries'[j]? = if j = ix then some entry else entries[j]?)
    (hserial : entry.serial = serial + 1) {i j : ℕ} {a b : HintEntry Instance}
    (hi : entries'[i]? = some a) (hj : entries'[j]? = some b) (heq : a.serial = b.serial) :
    i = j := by
  rw [hentries] at hi hj
  split_ifs at hi hj with hix hjx hjx
  · rw [hix, hjx]
  · obtain rfl := Option.some.inj hi
    have := h.bound hj
    omega
  · obtain rfl := Option.some.inj hj
    have := h.bound hi
    omega
  · exact h.serials hi hj heq

omit [DecidableEq Size] [DecidableEq Coord] in
/-- An entry is returned that was configured for its key. -/
theorem returns (h : Returned engine entries returned serial) {ix : ℕ} {entry : HintEntry Instance}
    (hentries : ∀ j, entries'[j]? = if j = ix then some entry else entries[j]?)
    (hserial : entry.serial = serial + 1)
    (hconfigured : engine.configured entry.inst = some (entry.key engine)) :
    Returned engine entries' (Function.update returned ix (serial + 1)) (serial + 1) := by
  constructor
  · intro i a hi
    rw [hentries] at hi
    split_ifs at hi with hix
    · obtain rfl := Option.some.inj hi
      rw [hix, Function.update_self]
      omega
    · rw [Function.update_of_ne hix]
      have := h.bound hi
      omega
  · exact fun hi hj heq => h.serials_of_fresh hentries hserial hi hj heq
  · intro i j a b hi hj heq
    rw [hentries] at hi hj
    split_ifs at hi hj with hix hjx hjx
    · rw [hix, hjx]
    · rw [hix, Function.update_self, Function.update_of_ne hjx] at heq
      have := h.bound hj
      omega
    · rw [hjx, Function.update_self, Function.update_of_ne hix] at heq
      have := h.bound hi
      omega
    · rw [Function.update_of_ne hix, Function.update_of_ne hjx] at heq
      exact h.times hi hj heq
  · intro i a key hi hkey
    rw [hentries] at hi
    split_ifs at hi with hix
    · obtain rfl := Option.some.inj hi
      rw [hix, Function.update_self]
      exact ⟨Option.some.inj (hconfigured.symm.trans hkey), hserial.symm⟩
    · rw [Function.update_of_ne hix]
      exact h.configured hi hkey
  · intro i j a b hi hfailed hj
    rw [hentries] at hi hj
    split_ifs at hi with hix
    · obtain rfl := Option.some.inj hi
      cases hfailed.symm.trans hconfigured
    · rw [Function.update_of_ne hix]
      split_ifs at hj with hjx
      · -- what is returned now is returned after it
        rw [hjx, Function.update_self]
        exact (h.bound hi).2.trans (Nat.le_succ _)
      · rw [Function.update_of_ne hjx]
        exact h.failed hi hfailed hj

omit [DecidableEq Size] [DecidableEq Coord] in
/-- The entry that was returned least recently could not be configured. -/
theorem fails (h : Returned engine entries returned serial) {ix : ℕ}
    {old entry : HintEntry Instance} (hold : entries[ix]? = some old)
    (hentries : ∀ j, entries'[j]? = if j = ix then some entry else entries[j]?)
    (hserial : entry.serial = serial + 1) (hfailed : engine.configured entry.inst = none)
    (hleast : ∀ {j : ℕ} {b : HintEntry Instance}, entries[j]? = some b →
      returned ix ≤ returned j) :
    Returned engine entries' returned (serial + 1) := by
  have hthere {j : ℕ} {b : HintEntry Instance} (hj : entries'[j]? = some b) :
      ∃ b, entries[j]? = some b := by
    rw [hentries] at hj
    split_ifs at hj with hjx
    · exact ⟨old, hjx ▸ hold⟩
    · exact ⟨b, hj⟩
  constructor
  · intro i a hi
    obtain ⟨b, hb⟩ := hthere hi
    have hbound := h.bound hb
    rw [hentries] at hi
    split_ifs at hi with hix
    · obtain rfl := Option.some.inj hi
      omega
    · have := h.bound hi
      omega
  · exact fun hi hj heq => h.serials_of_fresh hentries hserial hi hj heq
  · intro i j a b hi hj heq
    obtain ⟨a, ha⟩ := hthere hi
    obtain ⟨b, hb⟩ := hthere hj
    exact h.times ha hb heq
  · intro i a key hi hkey
    rw [hentries] at hi
    split_ifs at hi with hix
    · obtain rfl := Option.some.inj hi
      cases hfailed.symm.trans hkey
    · exact h.configured hi hkey
  · intro i j a b hi hnone hj
    obtain ⟨b, hb⟩ := hthere hj
    rw [hentries] at hi
    split_ifs at hi with hix
    · rw [hix]
      exact hleast hb
    · exact h.failed hi hnone hb

end Returned

/-! ## Runs -/

theorem getElem?_set_of_getElem? {α : Type} {items : List α} {ix : ℕ} {item : α}
    (h : items[ix]? = some item) (item' : α) (j : ℕ) :
    (items.set ix item')[j]? = if j = ix then some item' else items[j]? := by
  have hlt := (List.getElem?_eq_some_iff.mp h).1
  rw [List.getElem?_set, if_pos hlt]
  split_ifs <;> first
    | rfl
    | omega

theorem getElem?_concat_eq {α : Type} (items : List α) (item : α) (j : ℕ) :
    (items ++ [item])[j]? = if j = items.length then some item else items[j]? := by
  split_ifs with hj
  · rw [hj, List.getElem?_concat_length]
  · rw [List.getElem?_append]
    split_ifs with hlt
    · rfl
    · rw [List.getElem?_eq_none (by simp; omega), List.getElem?_eq_none (by omega)]

namespace HintCacheRun

variable {engine : HintingEngine Size Coord Instance} {s s' : HintCacheRun Instance}
variable {key : HintKey Size Coord}

/-- Both caches are small enough, and keep track of what was returned. -/
structure Tracked (engine : HintingEngine Size Coord Instance) (s : HintCacheRun Instance) :
    Prop where
  length : ∀ kind, (s.cache.entries kind).length ≤ 16
  returned : ∀ kind, Returned engine (s.cache.entries kind) (s.returned kind) s.cache.serial

omit [DecidableEq Size] [DecidableEq Coord] in
theorem tracked_new : (new : HintCacheRun Instance).Tracked engine := by
  constructor
  · intro kind
    cases kind <;> exact Nat.zero_le _
  · intro kind
    have hempty : (new : HintCacheRun Instance).cache.entries kind = [] := by cases kind <;> rfl
    rw [hempty]
    constructor <;> intros <;> simp_all

omit [DecidableEq Size] [DecidableEq Coord] in
/-- The entries of one cache change. -/
theorem Tracked.setEntries (h : s.Tracked engine) {kind : HintCacheKind}
    {entries : List (HintEntry Instance)} {returned : ℕ → ℕ} (hlength : entries.length ≤ 16)
    (hreturned : Returned engine entries returned (s.cache.serial + 1)) :
    Tracked engine ⟨{ s.cache with serial := s.cache.serial + 1 }.setEntries kind entries,
      Function.update s.returned kind returned⟩ := by
  constructor
  · intro other
    obtain rfl | hne := eq_or_ne other kind
    · simpa using hlength
    · rw [HintCache.entries_setEntries_of_ne _ hne]
      exact h.length other
  · intro other
    dsimp only
    rw [HintCache.serial_setEntries]
    obtain rfl | hne := eq_or_ne other kind
    · rw [HintCache.entries_setEntries_self, Function.update_self]
      exact hreturned
    · rw [HintCache.entries_setEntries_of_ne _ hne, Function.update_of_ne hne]
      exact (h.returned other).mono

/-- A key for whose font there are no outlines changes nothing. -/
theorem get_of_format_eq_none (hformat : engine.format key.font = none) :
    s.cache.get engine key = (none, s.cache) := by
  rw [HintCache.get, hformat]

/-- No entry is for the key. -/
theorem entryFor_eq_none {kind : HintCacheKind}
    (hnone : ∀ entry ∈ s.cache.entries kind, entry.key engine ≠ key) :
    s.entryFor engine kind key = none :=
  List.find?_eq_none.mpr fun entry hentry => by simpa using hnone entry hentry

omit [DecidableEq Size] [DecidableEq Coord] in
/-- A new instance is found under the key it was made for, and so is one that was reconfigured,
whether this failed or not. -/
theorem key_of_new {inst : Instance} (hnew : engine.new key = some inst) (serial : ℕ) :
    (HintEntry.mk key.font inst serial).key engine = key := by
  rw [HintEntry.key, engine.size_new hnew, engine.coords_new hnew]

omit [DecidableEq Size] [DecidableEq Coord] in
theorem key_of_reconfigure (inst : Instance) (serial : ℕ) :
    (HintEntry.mk key.font (engine.reconfigure inst key).2 serial).key engine = key := by
  rw [HintEntry.key, engine.size_reconfigure, engine.coords_reconfigure]

/-- The step after a call that returned an instance. -/
theorem step_of_get_eq_some {kind : HintCacheKind} {ix : ℕ} {cache : HintCache Instance}
    (hget : s.cache.get engine key = (some (kind, ix), cache)) :
    s.step engine key = some ⟨cache, Function.update s.returned kind
      (Function.update (s.returned kind) ix cache.serial)⟩ := by
  rw [step, hget]

theorem step_of_get_eq_none {cache : HintCache Instance}
    (hget : s.cache.get engine key = (none, cache)) :
    s.step engine key = some ⟨cache, s.returned⟩ := by
  rw [step, hget]

/-- A call that skips what could not be configured keeps track of what it returns. -/
theorem Tracked.step (h : s.Tracked engine) (hskips : s.SkipsFailed engine key)
    (hstep : s.step engine key = some s') : s'.Tracked engine := by
  cases hformat : engine.format key.font with
  | none =>
    rw [step_of_get_eq_none (get_of_format_eq_none hformat)] at hstep
    cases hstep
    exact h
  | some format =>
    obtain ⟨hhit, hplace⟩ := hskips format hformat
    have hreturned := h.returned format.kind
    have hgot : HintCache.Got engine s.cache key format.kind (s.cache.get engine key) :=
      HintCache.got_get hformat
    generalize hget : s.cache.get engine key = result at hgot
    cases hgot with
    | hit ix entry hentry hkey hfind =>
      rw [step_of_get_eq_some hget, HintCache.serial_setEntries] at hstep
      cases hstep
      have hset := getElem?_set_of_getElem? hentry { entry with serial := s.cache.serial + 1 }
      have hconfigured := hreturned.configured_for hentry (hhit entry hfind)
      refine h.setEntries ?_ (hreturned.returns hset rfl hconfigured)
      rw [List.length_set]
      exact h.length _
    | added inst hnone hlength hnew =>
      rw [step_of_get_eq_some hget, HintCache.serial_setEntries] at hstep
      cases hstep
      refine h.setEntries ?_ (hreturned.returns (getElem?_concat_eq _ _) rfl ?_)
      · rw [List.length_append, List.length_singleton]
        exact hlength
      · rw [engine.configured_new hnew, key_of_new hnew]
    | notAdded hnone hlength hnew =>
      rw [step_of_get_eq_none hget] at hstep
      cases hstep
      exact h
    | replaced ix entry hnone hlength hentry hleast =>
      have hset := getElem?_set_of_getElem? hentry
        ⟨key.font, (engine.reconfigure entry.inst key).2, s.cache.serial + 1⟩
      have hlengths : ((s.cache.entries format.kind).set ix
          ⟨key.font, (engine.reconfigure entry.inst key).2, s.cache.serial + 1⟩).length ≤ 16 := by
        rw [List.length_set]
        exact h.length _
      have hconfigured := engine.configured_reconfigure entry.inst key
      cases hsucceeds : (engine.reconfigure entry.inst key).1 with
      | true =>
        rw [hsucceeds] at hget hconfigured
        rw [step_of_get_eq_some hget, HintCache.serial_setEntries] at hstep
        cases hstep
        refine h.setEntries hlengths (hreturned.returns hset rfl ?_)
        rw [hconfigured, key_of_reconfigure]
        rfl
      | false =>
        rw [hsucceeds] at hget hconfigured
        rw [step_of_get_eq_none hget, ← Function.update_eq_self format.kind s.returned] at hstep
        cases hstep
        refine h.setEntries hlengths (hreturned.fails hentry hset rfl hconfigured fun hj => ?_)
        exact hreturned.least_returned hentry hleast (hplace (entryFor_eq_none hnone) hlength) hj

/-- What has to be shown of a call that changes the entries of one cache. -/
theorem Tracked.right (h : s.Tracked engine) {kind : HintCacheKind}
    {entries : List (HintEntry Instance)} {result : Option (HintCacheKind × ℕ)}
    (hget : s.cache.get engine key =
      (result, { s.cache with serial := s.cache.serial + 1 }.setEntries kind entries))
    (hconfigured : ∀ other ix, result = some (other, ix) → other = kind ∧
      ∃ entry, entries[ix]? = some entry ∧ engine.configured entry.inst = some key)
    (hlength : entries.length ≤ 16)
    (hreplaced : ∀ ix before after, (s.cache.entries kind)[ix]? = some before →
      entries[ix]? = some after → after.key engine ≠ before.key engine →
      ∀ other < (s.cache.entries kind).length, s.returned kind ix ≤ s.returned kind other) :
    s.Right engine key := by
  constructor
  · intro other ix hresult
    rw [hget] at hresult ⊢
    obtain ⟨rfl, hentry⟩ := hconfigured other ix hresult
    rwa [HintCache.entries_setEntries_self]
  · intro other
    rw [hget]
    obtain rfl | hne := eq_or_ne other kind
    · rwa [HintCache.entries_setEntries_self]
    · rw [HintCache.entries_setEntries_of_ne _ hne]
      exact h.length other
  · intro other ix before after hbefore hafter hkeys
    rw [hget] at hafter
    obtain rfl | hne := eq_or_ne other kind
    · rw [HintCache.entries_setEntries_self] at hafter
      exact hreplaced ix before after hbefore hafter hkeys
    · rw [HintCache.entries_setEntries_of_ne _ hne] at hafter
      obtain rfl := Option.some.inj (hbefore.symm.trans hafter)
      exact absurd rfl hkeys

/-- A call that changes nothing is right. -/
theorem Tracked.right_of_get_eq_none (h : s.Tracked engine)
    (hget : s.cache.get engine key = (none, s.cache)) : s.Right engine key := by
  constructor
  · intro other ix hresult
    rw [hget] at hresult
    cases hresult
  · intro other
    rw [hget]
    exact h.length other
  · intro other ix before after hbefore hafter hkeys
    rw [hget] at hafter
    obtain rfl := Option.some.inj (hbefore.symm.trans hafter)
    exact absurd rfl hkeys

/-- A call that skips what could not be configured is right. -/
theorem Tracked.right_of_skipsFailed (h : s.Tracked engine) (hskips : s.SkipsFailed engine key) :
    s.Right engine key := by
  cases hformat : engine.format key.font with
  | none => exact h.right_of_get_eq_none (get_of_format_eq_none hformat)
  | some format =>
    obtain ⟨hhit, hplace⟩ := hskips format hformat
    have hreturned := h.returned format.kind
    have hgot : HintCache.Got engine s.cache key format.kind (s.cache.get engine key) :=
      HintCache.got_get hformat
    generalize hget : s.cache.get engine key = result at hgot
    cases hgot with
    | hit ix entry hentry hkey hfind =>
      have hset := getElem?_set_of_getElem? hentry { entry with serial := s.cache.serial + 1 }
      refine h.right hget ?_ ?_ ?_
      · intro other i hresult
        obtain ⟨rfl, rfl⟩ := Prod.mk.inj (Option.some.inj hresult)
        have hconfigured := hreturned.configured_for hentry (hhit entry hfind)
        exact ⟨rfl, _, (hset ix).trans (if_pos rfl), hkey ▸ hconfigured⟩
      · rw [List.length_set]
        exact h.length _
      · intro i before after hbefore hafter hkeys
        rw [hset] at hafter
        split_ifs at hafter with hi
        · obtain rfl := Option.some.inj hafter
          obtain rfl := Option.some.inj ((hi ▸ hbefore).symm.trans hentry)
          exact absurd rfl hkeys
        · obtain rfl := Option.some.inj (hbefore.symm.trans hafter)
          exact absurd rfl hkeys
    | added inst hnone hlength hnew =>
      refine h.right hget ?_ ?_ ?_
      · intro other i hresult
        obtain ⟨rfl, rfl⟩ := Prod.mk.inj (Option.some.inj hresult)
        exact ⟨rfl, _, List.getElem?_concat_length, engine.configured_new hnew⟩
      · rw [List.length_append, List.length_singleton]
        exact hlength
      · intro i before after hbefore hafter hkeys
        rw [List.getElem?_append_left (List.getElem?_eq_some_iff.mp hbefore).1] at hafter
        obtain rfl := Option.some.inj (hbefore.symm.trans hafter)
        exact absurd rfl hkeys
    | notAdded hnone hlength hnew => exact h.right_of_get_eq_none hget
    | replaced ix entry hnone hlength hentry hleast =>
      have hset := getElem?_set_of_getElem? hentry
        ⟨key.font, (engine.reconfigure entry.inst key).2, s.cache.serial + 1⟩
      refine h.right hget ?_ ?_ ?_
      · intro other i hresult
        split_ifs at hresult with hsucceeds
        obtain ⟨rfl, rfl⟩ := Prod.mk.inj (Option.some.inj hresult)
        refine ⟨rfl, _, (hset ix).trans (if_pos rfl), ?_⟩
        rw [engine.configured_reconfigure, if_pos hsucceeds]
      · rw [List.length_set]
        exact h.length _
      · intro i before after hbefore hafter hkeys other hother
        rw [hset] at hafter
        split_ifs at hafter with hi
        · rw [hi]
          exact hreturned.least_returned hentry hleast
            (hplace (entryFor_eq_none hnone) hlength) (List.getElem?_eq_getElem hother)
        · obtain rfl := Option.some.inj (hbefore.symm.trans hafter)
          exact absurd rfl hkeys

/-- A call that is right skips what could not be configured. -/
theorem Tracked.skipsFailed_of_right (h : s.Tracked engine) (hright : s.Right engine key) :
    s.SkipsFailed engine key := by
  intro format hformat
  have hreturned := h.returned format.kind
  have hgot : HintCache.Got engine s.cache key format.kind (s.cache.get engine key) :=
    HintCache.got_get hformat
  obtain ⟨hconfigured, -, hreplaced⟩ := hright
  generalize s.cache.get engine key = result at hgot hconfigured hreplaced
  cases hgot with
  | hit ix entry hentry hkey hfind =>
    have hset := getElem?_set_of_getElem? hentry { entry with serial := s.cache.serial + 1 }
    refine ⟨fun found hfound => ?_, fun hnone => ?_⟩
    · obtain rfl := Option.some.inj (hfound.symm.trans hfind)
      obtain ⟨_, hget, hkey⟩ := hconfigured _ _ rfl
      rw [HintCache.entries_setEntries_self, hset, if_pos rfl] at hget
      obtain rfl := Option.some.inj hget
      rw [hkey]
      exact Option.some_ne_none key
    · cases hnone.symm.trans hfind
  | added inst hnone hlength hnew =>
    refine ⟨fun found hfound => ?_, fun _ hfull => absurd hlength (not_lt.mpr hfull)⟩
    cases (entryFor_eq_none hnone).symm.trans hfound
  | notAdded hnone hlength hnew =>
    refine ⟨fun found hfound => ?_, fun _ hfull => absurd hlength (not_lt.mpr hfull)⟩
    cases (entryFor_eq_none hnone).symm.trans hfound
  | replaced ix entry hnone hlength hentry hleast =>
    refine ⟨fun found hfound => ?_, fun _ _ failed hmem hfailed other hother => ?_⟩
    · cases (entryFor_eq_none hnone).symm.trans hfound
    · have hset := getElem?_set_of_getElem? hentry
        ⟨key.font, (engine.reconfigure entry.inst key).2, s.cache.serial + 1⟩
      refine hreturned.failed_least hentry hleast ?_ hmem hfailed hother
      refine hreplaced format.kind ix entry
        ⟨key.font, (engine.reconfigure entry.inst key).2, s.cache.serial + 1⟩ hentry ?_ ?_
      · rw [HintCache.entries_setEntries_self, hset, if_pos rfl]
      · rw [key_of_reconfigure]
        exact (hnone entry (List.mem_of_getElem? hentry)).symm

/-- All calls are right exactly if they skip what could not be configured. -/
theorem right_iff_skipsFailed (engine : HintingEngine Size Coord Instance)
    (keys : List (HintKey Size Coord)) :
    AllSteps (step engine) (Right engine) new keys ↔
      AllSteps (step engine) (SkipsFailed engine) new keys :=
  allSteps_iff_allSteps (Tracked engine) (fun _ _ _ h hskips hstep => h.step hskips hstep)
    (fun _ _ h => ⟨h.skipsFailed_of_right, h.right_of_skipsFailed⟩) tracked_new keys

/-- The outlines of all fonts can be hinted but for those of the seventeenth. An instance is the
size and the coordinates that it reports, and what it is configured for. -/
def seventeenthFails : HintingEngine ℕ ℕ (ℕ × List ℕ × Option (HintKey ℕ ℕ)) where
  format _ := some .glyf
  size := Prod.fst
  coords inst := inst.2.1
  configured inst := inst.2.2
  new key := if key.font.id = 16 then none else some (key.size, key.coords, some key)
  reconfigure _ key :=
    (key.font.id ≠ 16, key.size, key.coords, if key.font.id = 16 then none else some key)
  size_new {key inst} h := by grind
  coords_new {key inst} h := by grind
  configured_new {key inst} h := by grind
  size_reconfigure _ _ := rfl
  coords_reconfigure _ _ := rfl
  configured_reconfigure _ key := by grind

/-- The key of a font. -/
def fontKey (id : ℕ) : HintKey ℕ ℕ := ⟨⟨id, 0⟩, 12, []⟩

/-- The instance that could not be configured is returned the second time. -/
theorem not_right_seventeenFonts : ¬∀ keys : List (HintKey ℕ ℕ),
    AllSteps (step seventeenthFails) (Right seventeenthFails) new keys := by
  intro h
  have hget : ((execute (step seventeenthFails) (fun _ _ => True) new
      ((List.range 17).map fontKey)).map fun s => (s.cache.get seventeenthFails (fontKey 16)).1) =
        some (some (.glyf, 0)) := by decide +kernel
  have hinst : ((execute (step seventeenthFails) (fun _ _ => True) new
      ((List.range 17).map fontKey)).map fun s =>
        ((s.cache.get seventeenthFails (fontKey 16)).2.entries .glyf)[0]?.map fun entry =>
          seventeenthFails.configured entry.inst) = some (some none) := by decide +kernel
  obtain ⟨s, hexecute, hget⟩ := Option.map_eq_some_iff.mp hget
  rw [hexecute] at hinst
  have hright := (h ((List.range 17).map fontKey ++ [fontKey 16])).of_execute hexecute (by
    unfold step
    split <;> rfl)
  obtain ⟨entry, hentry, hconfigured⟩ := hright.configured .glyf 0 hget
  rw [Option.map_some, hentry, Option.map_some, hconfigured] at hinst
  cases hinst

end HintCacheRun

end Lucie
