import Mathlib.Logic.Function.Basic
import Lucie.Foundation.Exact

/-!
# The cache of loaded fonts

Each font that is requested is marked as used. What is meant to drop the fonts that were not used
since the last time keeps those instead, and as all fonts in the cache were requested, it empties
the cache.
-/

set_option autoImplicit false

namespace Lucie

open Foundation

/-- `FontHandle`, with the identifier of its data and its index in a collection. -/
structure FontHandle where
  id : ℕ
  index : ℕ
  deriving DecidableEq

variable {F : Type}

/-- `LoadedFont`, with what was read from the data of the font. -/
structure LoadedFont (F : Type) where
  used : Bool
  contents : F
  handle : FontHandle

/-- `LoadedFont::new`, where the font may not be readable. -/
def LoadedFont.new (read : FontHandle → Option F) (handle : FontHandle) : Option (LoadedFont F) :=
  (read handle).map fun contents => ⟨false, contents, handle⟩

/-- `FontCache`. -/
structure FontCache (F : Type) where
  fonts : FontHandle → Option (LoadedFont F)

namespace FontCache

/-- `FontCache::new`. -/
def new : FontCache F := ⟨fun _ => none⟩

/-- The font is marked, and it is what the cache has for its handle. -/
def mark (cache : FontCache F) (font : FontHandle) (entry : LoadedFont F) :
    LoadedFont F × FontCache F :=
  ({ entry with used := true },
    ⟨Function.update cache.fonts font (some { entry with used := true })⟩)

/-- `FontCache::get` with the lock for reading. -/
def lookUp (cache : FontCache F) (font : FontHandle) : Option (LoadedFont F × FontCache F) :=
  (cache.fonts font).map (cache.mark font)

/-- `FontCache::get` with the lock for writing, unless the unwrap panics. -/
def insert (read : FontHandle → Option F) (cache : FontCache F) (font : FontHandle) :
    Option (LoadedFont F × FontCache F) :=
  (LoadedFont.new read font).map (cache.mark font)

/-- `FontCache::retain`. -/
def retain (cache : FontCache F) : FontCache F where
  fonts font := (cache.fonts font).bind fun entry =>
    if !entry.used then some { entry with used := false } else none

end FontCache

/-- A font cache, with the gets that did not find their font and do not have the lock for writing
yet, and the fonts that gets returned since the last call of `retain`. -/
structure FontCacheRun (F : Type) where
  cache : FontCache F
  loading : List FontHandle
  requested : List FontHandle

/-- A step of some thread. -/
inductive FontCacheAction
  | lookUp (font : FontHandle)
  | insert (get : ℕ)
  | retain

namespace FontCacheRun

variable (read : FontHandle → Option F)

/-- A new cache. -/
def new : FontCacheRun F := ⟨.new, [], []⟩

/-- The font that a get was called for, with what it returns. -/
def returned (s : FontCacheRun F) :
    FontCacheAction → Option (FontHandle × LoadedFont F × FontCache F)
  | .lookUp font => (s.cache.lookUp font).map fun result => (font, result)
  | .insert get =>
    s.loading[get]?.bind fun font => (s.cache.insert read font).map fun result => (font, result)
  | .retain => none

/-- One step. -/
def step (s : FontCacheRun F) (a : FontCacheAction) : Option (FontCacheRun F) :=
  match a, s.returned read a with
  | .lookUp _, some (font, _, cache) =>
    some { s with cache, requested := s.requested ++ [font] }
  | .lookUp font, none => some { s with loading := s.loading ++ [font] }
  | .insert get, some (font, _, cache) =>
    some ⟨cache, s.loading.eraseIdx get, s.requested ++ [font]⟩
  | .insert get, none =>
    if get < s.loading.length then some { s with loading := s.loading.eraseIdx get } else none
  | .retain, _ => some { s with cache := s.cache.retain, requested := [] }

/-- A get returns the entry of its font, and `retain` keeps what was requested. -/
structure Right (s : FontCacheRun F) (a : FontCacheAction) : Prop where
  entry : ∀ font entry cache, s.returned read a = some (font, entry, cache) → entry.handle = font
  kept : a = .retain → ∀ font, (s.cache.retain.fonts font).isSome ↔ font ∈ s.requested

/-- No font was requested when `retain` is called. -/
def Unused (s : FontCacheRun F) (a : FontCacheAction) : Prop := a = .retain → s.requested = []

/-! ## Fonts in the cache -/

/-- The fonts in the cache are those requested, and all of them are marked. -/
structure Marked (s : FontCacheRun F) : Prop where
  entry : ∀ {font : FontHandle} {entry : LoadedFont F}, s.cache.fonts font = some entry →
    entry.handle = font ∧ entry.used = true
  requested : ∀ font, (s.cache.fonts font).isSome ↔ font ∈ s.requested

variable {read}
variable {s s' : FontCacheRun F}

theorem marked_new : (new : FontCacheRun F).Marked :=
  ⟨nofun, fun font => by simp [new, FontCache.new]⟩

/-- What a get returns is marked and has the handle of its font. -/
theorem Marked.returned (h : s.Marked) {a : FontCacheAction} {font : FontHandle}
    {entry : LoadedFont F} {cache : FontCache F}
    (hreturned : s.returned read a = some (font, entry, cache)) :
    entry.handle = font ∧ entry.used = true ∧
      cache = ⟨Function.update s.cache.fonts font (some entry)⟩ := by
  cases a with
  | lookUp other =>
    obtain ⟨⟨_, _⟩, hlookUp, heq⟩ := Option.map_eq_some_iff.mp hreturned
    cases heq
    obtain ⟨found, hfound, heq⟩ := Option.map_eq_some_iff.mp hlookUp
    cases heq
    exact ⟨(h.entry hfound).1, rfl, rfl⟩
  | insert get =>
    obtain ⟨other, -, hinsert⟩ := Option.bind_eq_some_iff.mp hreturned
    obtain ⟨⟨_, _⟩, hinsert, heq⟩ := Option.map_eq_some_iff.mp hinsert
    cases heq
    obtain ⟨loaded, hloaded, heq⟩ := Option.map_eq_some_iff.mp hinsert
    cases heq
    obtain ⟨contents, -, heq⟩ := Option.map_eq_some_iff.mp hloaded
    cases heq
    exact ⟨rfl, rfl, rfl⟩
  | retain => cases hreturned

/-- A font that a get returned is in the cache. -/
theorem Marked.update (h : s.Marked) {font : FontHandle} {entry : LoadedFont F}
    (hhandle : entry.handle = font) (hused : entry.used = true) (loading : List FontHandle) :
    (⟨⟨Function.update s.cache.fonts font (some entry)⟩, loading, s.requested ++ [font]⟩ :
      FontCacheRun F).Marked := by
  constructor
  · intro other found hfound
    dsimp only at hfound
    obtain rfl | hne := eq_or_ne other font
    · rw [Function.update_self] at hfound
      obtain rfl := Option.some.inj hfound
      exact ⟨hhandle, hused⟩
    · rw [Function.update_of_ne hne] at hfound
      exact h.entry hfound
  · intro other
    dsimp only
    rw [List.mem_append, List.mem_singleton]
    obtain rfl | hne := eq_or_ne other font
    · simp
    · simp only [Function.update_of_ne hne, h.requested other, hne, or_false]

/-- All fonts in the cache are dropped. -/
theorem Marked.retain (h : s.Marked) (font : FontHandle) : s.cache.retain.fonts font = none := by
  simp only [FontCache.retain]
  cases hfont : s.cache.fonts font with
  | none => rfl
  | some entry => simp [(h.entry hfont).2]

theorem Marked.step (h : s.Marked) {a : FontCacheAction} (hstep : s.step read a = some s') :
    s'.Marked := by
  unfold FontCacheRun.step at hstep
  cases hreturned : s.returned read a with
  | some result =>
    obtain ⟨font, entry, cache⟩ := result
    obtain ⟨hhandle, hused, rfl⟩ := h.returned hreturned
    cases a with
    | lookUp other | insert get =>
      rw [hreturned] at hstep
      cases hstep
      exact h.update hhandle hused _
    | retain => cases hreturned
  | none =>
    rw [hreturned] at hstep
    cases a with
    | lookUp font =>
      cases hstep
      exact ⟨h.entry, h.requested⟩
    | insert get =>
      dsimp only at hstep
      split_ifs at hstep
      cases hstep
      exact ⟨h.entry, h.requested⟩
    | retain =>
      cases hstep
      refine ⟨fun hfont => ?_, fun font => ?_⟩
      · cases (h.retain _).symm.trans hfont
      · simp [h.retain font]

theorem Marked.right_iff (h : s.Marked) (a : FontCacheAction) :
    s.Right read a ↔ s.Unused a := by
  constructor
  · rintro ⟨-, hkept⟩ ha
    refine List.eq_nil_iff_forall_not_mem.mpr fun font hrequested => ?_
    have hfont := (hkept ha font).mpr hrequested
    rw [h.retain font] at hfont
    cases hfont
  · intro hunused
    refine ⟨fun font entry cache hreturned => (h.returned hreturned).1, fun ha font => ?_⟩
    rw [h.retain font, hunused ha]
    simp

/-- What is returned is always right, and what is kept is right exactly if nothing was requested. -/
theorem keepsRequested_iff (read : FontHandle → Option F) (actions : List FontCacheAction) :
    AllSteps (step read) (Right read) new actions ↔ AllSteps (step read) Unused new actions :=
  allSteps_iff_allSteps Marked (fun _ _ _ h _ hstep => h.step hstep)
    (fun _ a h => h.right_iff a) marked_new actions

/-- A font that was requested is dropped. -/
theorem not_keepsRequested_oneFont : ¬∀ (read : FontHandle → Option Unit)
    (actions : List FontCacheAction), AllSteps (step read) (Right read) new actions := by
  intro h
  have hsteps := h (fun _ => some ()) [.lookUp ⟨1, 0⟩, .insert 0, .retain]
  have hretain := ((hsteps _ rfl).2 _ rfl).2 _ rfl
  have hkept := (hretain.1.kept rfl ⟨1, 0⟩).mpr (List.mem_singleton.mpr rfl)
  cases hkept

end FontCacheRun

end Lucie
