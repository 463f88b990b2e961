import Lucie.Subscription.SubscriberSet

/-!
# Cancelled subscriptions

Dropping a `Subscription` cancels it. The set loses a cancellation when the dropped
subscriber is in the hands of a running `retain` that cannot be told, because the hole
was filled or removed in the meantime or because a nested `retain` swallows the record,
and `retain` still calls what it has not reached. In runs without such steps a
cancellation is final.
-/

set_option autoImplicit false

namespace Lucie

variable {K C : Type}

namespace Subscribers

theorem mem_ids_insert (id : ℕ) (c : C) (m : Subscribers C) (k : ℕ) :
    k ∈ (m.insert id c).ids ↔ k = id ∨ k ∈ m.ids := by
  induction m with
  | nil => simp [insert, ids]
  | cons p m ih =>
    obtain ⟨j, d⟩ := p
    simp only [insert]
    split_ifs with hlt heq
    · simp [ids]
    · simp [ids, heq]
    · simp only [ids, List.map_cons, List.mem_cons] at ih ⊢
      rw [ih]
      tauto

theorem mem_ids_remove (id : ℕ) (m : Subscribers C) (k : ℕ) :
    k ∈ (m.remove id).ids ↔ k ∈ m.ids ∧ k ≠ id := by
  simp only [ids, remove, List.mem_map, List.mem_filter, decide_eq_true_eq]
  constructor
  · rintro ⟨p, ⟨hp, hne⟩, rfl⟩
    exact ⟨⟨p, hp, rfl⟩, hne⟩
  · rintro ⟨⟨p, hp, rfl⟩, hne⟩
    exact ⟨p, ⟨hp, hne⟩, rfl⟩

theorem mem_ids_extend (m other : Subscribers C) (k : ℕ) :
    k ∈ (m.extend other).ids ↔ k ∈ m.ids ∨ k ∈ other.ids := by
  induction other generalizing m with
  | nil => simp [extend, ids]
  | cons p other ih =>
    rw [extend, ih, mem_ids_insert]
    simp only [ids, List.map_cons, List.mem_cons]
    tauto

theorem mem_ids_foldl_remove (dropped : List (K × ℕ)) (m : Subscribers C) (k : ℕ) :
    k ∈ (dropped.foldl (fun m d => m.remove d.2) m).ids ↔
      k ∈ m.ids ∧ k ∉ dropped.map Prod.snd := by
  induction dropped generalizing m with
  | nil => simp
  | cons d dropped ih =>
    rw [List.foldl_cons, ih, mem_ids_remove, List.map_cons, List.mem_cons, not_or, and_assoc]

end Subscribers

/-- The ids in the hands of a running `retain`. -/
def RetainFrame.Holds (frame : RetainFrame K C) (id : ℕ) : Prop :=
  id ∈ frame.kept.ids ∨ id ∈ frame.running.map Prod.fst ∨ id ∈ frame.rest.ids

namespace SubscriberSetState

/-- An id is in the live map of an emitter. -/
def Live (s : SubscriberSetState K C) (emitter : K) (id : ℕ) : Prop :=
  ∃ m, s.subscribers emitter = some (some m) ∧ id ∈ m.ids

end SubscriberSetState

namespace Subscriptions

/-- What the drop of a `Subscription` promises: its callback is not about to be
invoked, and once no `retain` is running its subscriber is in no live map. -/
structure Cancelled (s : Subscriptions K C) (id : ℕ) : Prop where
  silent : s.invokes ≠ some id
  absent : s.frames = [] → ∀ emitter, ¬ s.set.Live emitter id

/-- The ids whose `Subscription` was dropped in a run. -/
def dropped (actions : List (SubscriptionAction K C)) : List ℕ :=
  actions.filterMap fun
    | .drop id => some id
    | _ => none

/-- The `retain` calls around one that is about to finish. -/
def aroundFinishing (s : Subscriptions K C) : List (RetainFrame K C) :=
  match s.frames with
  | ⟨_, _, none, []⟩ :: outer => outer
  | _ => []

/-- The steps that do not lose a cancellation. A subscriber in the hands of a running
`retain` is dropped only while the hole is still there, and after it was called unless
it is inactive; an inactive subscriber is not activated after it was dropped, while a
`retain` has yet to reach it; and a nested `retain` does not finish while a subscriber
of an outer one waits to be removed. -/
def Orderly (s : Subscriptions K C) : SubscriptionAction K C → Prop
  | .drop id => ∀ frame ∈ s.frames, frame.Holds id →
      s.set.subscribers frame.emitter = some none ∧ (id ∈ frame.rest.ids → s.active id = false)
  | .activate id => ∀ frame ∈ s.frames, id ∈ frame.rest.ids →
      id ∉ s.set.droppedSubscribers.map Prod.snd
  | .advance => ∀ frame ∈ s.aroundFinishing, ∀ id ∈ s.set.droppedSubscribers.map Prod.snd,
      ¬ frame.Holds id
  | _ => True

/-- A `Subscription` value, a live map or a running `retain` has a subscriber. -/
def Owned (s : Subscriptions K C) (emitter : K) (id : ℕ) : Prop :=
  (id, emitter) ∈ s.handles ∨ s.set.Live emitter id ∨
    ∃ frame ∈ s.frames, frame.emitter = emitter ∧ frame.Holds id

/-- The invariant of orderly runs. -/
structure CancelInv (dropped : List ℕ) (s : Subscriptions K C) : Prop where
  fresh : ∀ id ∈ dropped, id < s.set.nextSubscriberId
  bound : ∀ emitter id, s.Owned emitter id → id < s.set.nextSubscriberId
  owner : ∀ emitter emitter' id, s.Owned emitter id → s.Owned emitter' id → emitter = emitter'
  gone : ∀ id ∈ dropped, ∀ emitter, ¬ s.set.Live emitter id
  marked : ∀ id ∈ dropped, ∀ frame ∈ s.frames, frame.Holds id →
    id ∈ s.set.droppedSubscribers.map Prod.snd ∧ (id ∈ frame.rest.ids → s.active id = false)

/-- The invariant gives what a drop promises. -/
theorem CancelInv.cancelled {ids : List ℕ} {s : Subscriptions K C} (hinv : CancelInv ids s)
    {id : ℕ} (hid : id ∈ ids) : s.Cancelled id := by
  refine ⟨fun hinvokes => ?_, fun _ emitter => hinv.gone id hid emitter⟩
  unfold invokes at hinvokes
  split at hinvokes
  · rename_i emitter kept id' callback rest frames hframes
    split_ifs at hinvokes with hactive
    obtain rfl := Option.some.inj hinvokes
    have hrest : id' ∈ Subscribers.ids ((id', callback) :: rest) := by simp [Subscribers.ids]
    have hinactive := (hinv.marked id' hid _ (hframes ▸ List.mem_cons_self)
      (.inr (.inr hrest))).2 hrest
    rw [hactive] at hinactive
    exact Bool.noConfusion hinactive
  · exact nomatch hinvokes

section Live

variable [DecidableEq K]

/-- The live maps after one entry is replaced. -/
theorem live_setEntry (s : SubscriberSetState K C) (emitter : K)
    (entry : Option (Option (Subscribers C))) (e : K) (id : ℕ) :
    (s.setEntry emitter entry).Live e id ↔
      if e = emitter then ∃ m, entry = some (some m) ∧ id ∈ m.ids else s.Live e id := by
  unfold SubscriberSetState.Live SubscriberSetState.setEntry
  by_cases h : e = emitter
  · subst h
    simp
  · simp [h]

/-- Taking a map away brings nothing in. -/
theorem live_of_setEntry {s : SubscriberSetState K C} {emitter : K}
    {entry : Option (Option (Subscribers C))} (hentry : ∀ m, entry ≠ some (some m)) {e : K} {id : ℕ}
    (h : (s.setEntry emitter entry).Live e id) : s.Live e id := by
  rw [live_setEntry] at h
  split_ifs at h
  · obtain ⟨m, hm, -⟩ := h
    exact absurd hm (hentry m)
  · exact h

/-- The live maps after a drop. -/
theorem live_unsubscribe {s : SubscriberSetState K C} {emitter : K} {id : ℕ} {e : K} {id' : ℕ}
    (h : (s.unsubscribe emitter id).Live e id') :
    s.Live e id' ∧ ¬ (e = emitter ∧ id' = id) := by
  unfold SubscriberSetState.unsubscribe at h
  split at h
  · rename_i hentry
    refine ⟨h, ?_⟩
    rintro ⟨rfl, -⟩
    obtain ⟨m, hm, -⟩ := h
    exact nomatch hentry.symm.trans hm
  · rename_i subscribers hentry
    have hkept : (s.setEntry emitter (some (some (subscribers.remove id)))).Live e id' := by
      dsimp only at h
      split_ifs at h
      · rw [live_setEntry] at h ⊢
        split_ifs at h ⊢
        · exact nomatch h
        · exact h
      · exact h
    rw [live_setEntry] at hkept
    split_ifs at hkept with he
    · subst he
      obtain ⟨m, hm, hid⟩ := hkept
      obtain rfl : subscribers.remove id = m := by simpa using hm
      obtain ⟨hid, hne⟩ := (Subscribers.mem_ids_remove ..).mp hid
      exact ⟨⟨subscribers, hentry, hid⟩, fun hboth => hne hboth.2⟩
    · exact ⟨hkept, fun hboth => he hboth.1⟩
  · rename_i hentry
    refine ⟨h, ?_⟩
    rintro ⟨rfl, -⟩
    obtain ⟨m, hm, -⟩ := h
    exact nomatch hentry.symm.trans hm

/-- The live maps after `retain` finishes. -/
theorem live_finishRetain {s : SubscriberSetState K C} {emitter : K} {kept : Subscribers C}
    {e : K} {id : ℕ} (h : (s.finishRetain emitter kept).Live e id) :
    s.Live e id ∨ (e = emitter ∧ id ∈ kept.ids ∧ id ∉ s.droppedSubscribers.map Prod.snd) := by
  unfold SubscriberSetState.finishRetain at h
  change (s.setEntry emitter _).Live e id at h
  rw [live_setEntry] at h
  split_ifs at h with he hempty
  · exact nomatch h
  · subst he
    obtain ⟨m, hm, hid⟩ := h
    obtain rfl := Option.some.inj (Option.some.inj hm)
    obtain ⟨hid, hdropped⟩ := (Subscribers.mem_ids_foldl_remove ..).mp hid
    split at hid
    · rename_i new hentry
      rcases (Subscribers.mem_ids_extend ..).mp hid with hid | hid
      exacts [.inr ⟨rfl, hid, hdropped⟩, .inl ⟨new, hentry, hid⟩]
    · exact .inr ⟨rfl, hid, hdropped⟩
  · exact .inl h

/-- The live maps after an insertion. -/
theorem live_insert {s : SubscriberSetState K C} {emitter : K} {callback : C} {e : K} {id : ℕ}
    (h : (s.insert emitter callback).Live e id) :
    s.Live e id ∨ (e = emitter ∧ id = s.nextSubscriberId) := by
  change (s.setEntry emitter _).Live e id at h
  rw [live_setEntry] at h
  split_ifs at h with he
  · subst he
    obtain ⟨m, hm, hid⟩ := h
    obtain rfl := Option.some.inj (Option.some.inj hm)
    rcases (Subscribers.mem_ids_insert ..).mp hid with rfl | hid
    · exact .inr ⟨rfl, rfl⟩
    · rcases hentry : s.subscribers e with _ | _ | subscribers
      · simp [hentry, Subscribers.ids] at hid
      · simp [hentry, Subscribers.ids] at hid
      · exact .inl ⟨subscribers, hentry, by simpa [hentry] using hid⟩
  · exact .inl h

end Live

section Mono

variable {ids : List ℕ} {s s' : Subscriptions K C}

/-- A step that hands subscribers around but brings none in keeps the invariant, if it
keeps the cancellations that are on record. -/
theorem CancelInv.mono (hinv : CancelInv ids s)
    (hnext : s'.set.nextSubscriberId = s.set.nextSubscriberId)
    (howned : ∀ emitter id, s'.Owned emitter id → s.Owned emitter id)
    (hgone : ∀ id ∈ ids, ∀ emitter, ¬ s'.set.Live emitter id)
    (hmarked : ∀ id ∈ ids, ∀ frame ∈ s'.frames, frame.Holds id →
      id ∈ s'.set.droppedSubscribers.map Prod.snd ∧ (id ∈ frame.rest.ids → s'.active id = false)) :
    CancelInv ids s' where
  fresh id hid := hnext ▸ hinv.fresh id hid
  bound emitter id h := hnext ▸ hinv.bound emitter id (howned emitter id h)
  owner emitter emitter' id h h' :=
    hinv.owner emitter emitter' id (howned emitter id h) (howned emitter' id h')
  gone := hgone
  marked := hmarked

/-- Owning is inherited from handles, live maps and frames. -/
theorem owned_mono (hhandles : ∀ handle ∈ s'.handles, handle ∈ s.handles)
    (hlive : ∀ emitter id, s'.set.Live emitter id → s.Owned emitter id)
    (hframes : ∀ frame ∈ s'.frames, ∀ id, frame.Holds id → s.Owned frame.emitter id)
    (emitter : K) (id : ℕ) (h : s'.Owned emitter id) : s.Owned emitter id := by
  rcases h with h | h | ⟨frame, hframe, rfl, hholds⟩
  exacts [.inl (hhandles _ h), hlive emitter id h, hframes frame hframe id hholds]

end Mono

section Steps

variable [DecidableEq K] {ids : List ℕ} {s s' : Subscriptions K C}

theorem CancelInv.insert (hinv : CancelInv ids s) (emitter : K) (callback : C) :
    CancelInv ids { s with
      set := s.set.insert emitter callback
      active := Function.update s.active s.set.nextSubscriberId false
      handles := (s.set.nextSubscriberId, emitter) :: s.handles } := by
  have howned : ∀ e id, Owned { s with
      set := s.set.insert emitter callback
      active := Function.update s.active s.set.nextSubscriberId false
      handles := (s.set.nextSubscriberId, emitter) :: s.handles } e id →
      s.Owned e id ∨ (e = emitter ∧ id = s.set.nextSubscriberId) := by
    rintro e id (h | h | h)
    · rcases List.mem_cons.mp h with h | h
      · obtain ⟨rfl, rfl⟩ := Prod.mk.inj h
        exact .inr ⟨rfl, rfl⟩
      · exact .inl (.inl h)
    · rcases live_insert h with h | h
      exacts [.inl (.inr (.inl h)), .inr h]
    · exact .inl (.inr (.inr h))
  have hlt : ∀ {e id}, s.Owned e id → id ≠ s.set.nextSubscriberId :=
    fun h => Nat.ne_of_lt (hinv.bound _ _ h)
  refine ⟨fun id hid => Nat.lt_succ_of_lt (hinv.fresh id hid), fun e id h => ?_,
    fun e e' id h h' => ?_, fun id hid e h => ?_, fun id hid frame hframe hholds => ?_⟩
  · rcases howned e id h with h | ⟨-, rfl⟩
    exacts [Nat.lt_succ_of_lt (hinv.bound e id h), Nat.lt_succ_self _]
  · rcases howned e id h with hold | ⟨rfl, rfl⟩ <;> rcases howned e' _ h' with hold' | ⟨rfl, hid⟩
    exacts [hinv.owner e e' id hold hold', absurd hid (hlt hold), absurd rfl (hlt hold'), rfl]
  · rcases live_insert h with h | ⟨-, rfl⟩
    exacts [hinv.gone id hid e h, Nat.lt_irrefl _ (hinv.fresh _ hid)]
  · obtain ⟨hrecord, hinactive⟩ := hinv.marked id hid frame hframe hholds
    refine ⟨hrecord, fun hrest => ?_⟩
    have hne := Nat.ne_of_lt (hinv.fresh id hid)
    simpa only [Function.update_of_ne hne] using hinactive hrest

omit [DecidableEq K] in
theorem CancelInv.activate (hinv : CancelInv ids s) {id : ℕ} (horderly : s.Orderly (.activate id)) :
    CancelInv ids { s with active := Function.update s.active id true } := by
  refine hinv.mono rfl (owned_mono (fun _ h => h) (fun _ _ h => .inr (.inl h))
    fun frame hframe id h => .inr (.inr ⟨frame, hframe, rfl, h⟩)) hinv.gone
    fun id' hid frame hframe hholds => ?_
  obtain ⟨hrecord, hinactive⟩ := hinv.marked id' hid frame hframe hholds
  refine ⟨hrecord, fun hrest => ?_⟩
  have hne : id' ≠ id := by
    rintro rfl
    exact horderly frame hframe hrest hrecord
  simpa only [Function.update_of_ne hne] using hinactive hrest

/-- A drop only adds to the records. -/
theorem mem_dropped_unsubscribe {emitter : K} {id id' : ℕ}
    (h : id' ∈ s.set.droppedSubscribers.map Prod.snd) :
    id' ∈ (s.set.unsubscribe emitter id).droppedSubscribers.map Prod.snd := by
  unfold SubscriberSetState.unsubscribe
  split
  · exact h
  · dsimp only
    split_ifs <;> exact h
  · exact List.mem_cons_of_mem _ h

theorem CancelInv.drop (hinv : CancelInv ids s) {id : ℕ} {emitter : K}
    (hhandle : (id, emitter) ∈ s.handles) (horderly : s.Orderly (.drop id)) :
    CancelInv (id :: ids) { s with
      set := s.set.unsubscribe emitter id
      handles := s.handles.filter fun handle => handle.1 ≠ id } := by
  have hnext : (s.set.unsubscribe emitter id).nextSubscriberId = s.set.nextSubscriberId := by
    unfold SubscriberSetState.unsubscribe
    split
    · rfl
    · dsimp only
      split_ifs <;> rfl
    · rfl
  have howned : ∀ e id', Subscriptions.Owned { s with
      set := s.set.unsubscribe emitter id
      handles := s.handles.filter fun handle => handle.1 ≠ id } e id' → s.Owned e id' :=
    owned_mono (fun _ h => List.mem_of_mem_filter h)
      (fun _ _ h => .inr (.inl (live_unsubscribe h).1))
      fun frame hframe id h => .inr (.inr ⟨frame, hframe, rfl, h⟩)
  refine ⟨fun id' hid => ?_, fun e id' h => ?_, fun e e' id' h h' => ?_, fun id' hid e h => ?_,
    fun id' hid frame hframe hholds => ?_⟩
  · dsimp only
    rw [hnext]
    rcases List.mem_cons.mp hid with rfl | hid
    exacts [hinv.bound emitter id' (.inl hhandle), hinv.fresh id' hid]
  · dsimp only
    rw [hnext]
    exact hinv.bound e id' (howned e id' h)
  · exact hinv.owner e e' id' (howned e id' h) (howned e' id' h')
  · obtain ⟨hlive, hne⟩ := live_unsubscribe h
    rcases List.mem_cons.mp hid with rfl | hid
    · exact hne ⟨hinv.owner e emitter id' (.inr (.inl hlive)) (.inl hhandle), rfl⟩
    · exact hinv.gone id' hid e hlive
  · rcases List.mem_cons.mp hid with rfl | hid
    · -- the hole is still there, so the drop is recorded
      obtain ⟨hhole, hinactive⟩ := horderly frame hframe hholds
      obtain rfl := hinv.owner frame.emitter emitter id' (.inr (.inr ⟨frame, hframe, rfl, hholds⟩))
        (.inl hhandle)
      refine ⟨?_, hinactive⟩
      simp [SubscriberSetState.unsubscribe, hhole]
    · obtain ⟨hrecord, hinactive⟩ := hinv.marked id' hid frame hframe hholds
      exact ⟨mem_dropped_unsubscribe hrecord, hinactive⟩

omit [DecidableEq K] in
theorem CancelInv.detach (hinv : CancelInv ids s) (target : ℕ) :
    CancelInv ids { s with handles := s.handles.filter fun handle => handle.1 ≠ target } :=
  hinv.mono rfl (owned_mono (fun _ h => List.mem_of_mem_filter h) (fun _ _ h => .inr (.inl h))
    fun frame hframe _ h => .inr (.inr ⟨frame, hframe, rfl, h⟩)) hinv.gone hinv.marked

theorem CancelInv.remove (hinv : CancelInv ids s) (emitter : K) :
    CancelInv ids { s with set := (s.set.remove emitter).1 } := by
  have hlive : ∀ e id, (s.set.setEntry emitter none).Live e id → s.set.Live e id :=
    fun e id h => live_of_setEntry (by simp) h
  exact hinv.mono rfl (owned_mono (fun _ h => h) (fun e id h => .inr (.inl (hlive e id h)))
    fun frame hframe id h => .inr (.inr ⟨frame, hframe, rfl, h⟩))
    (fun id hid e h => hinv.gone id hid e (hlive e id h)) hinv.marked

theorem CancelInv.startRetain (hinv : CancelInv ids s) (emitter : K) :
    CancelInv ids (s.startRetain emitter) := by
  unfold Subscriptions.startRetain
  split
  · rename_i subscribers hentry
    have hlive : ∀ e id, (s.set.setEntry emitter (some none)).Live e id → s.set.Live e id :=
      fun e id h => live_of_setEntry (by simp) h
    have hframe : ∀ id, RetainFrame.Holds ⟨emitter, [], none, subscribers⟩ id →
        s.set.Live emitter id := by
      rintro id (h | h | h)
      · simp [Subscribers.ids] at h
      · simp at h
      · exact ⟨subscribers, hentry, h⟩
    refine hinv.mono rfl (owned_mono (fun _ h => h) (fun e id h => .inr (.inl (hlive e id h)))
      fun frame hmem id h => ?_) (fun id hid e h => hinv.gone id hid e (hlive e id h))
      fun id hid frame hmem hholds => ?_
    · rcases List.mem_cons.mp hmem with rfl | hmem
      exacts [.inr (.inl (hframe id h)), .inr (.inr ⟨frame, hmem, rfl, h⟩)]
    · rcases List.mem_cons.mp hmem with rfl | hmem
      exacts [absurd (hframe id hholds) (hinv.gone id hid emitter),
        hinv.marked id hid frame hmem hholds]
  · exact hinv

omit [DecidableEq K] in
/-- A step that changes the innermost frame only. -/
theorem CancelInv.setFrame (hinv : CancelInv ids s) {frame frame' : RetainFrame K C}
    {frames : List (RetainFrame K C)} (hframes : s.frames = frame :: frames)
    (hemitter : frame'.emitter = frame.emitter) (hholds : ∀ id, frame'.Holds id → frame.Holds id)
    (hrest : ∀ id ∈ frame'.rest.ids, id ∈ frame.rest.ids) :
    CancelInv ids { s with frames := frame' :: frames } := by
  have hmem : frame ∈ s.frames := hframes ▸ List.mem_cons_self
  have hsub : ∀ other ∈ frames, other ∈ s.frames := fun other h =>
    hframes ▸ List.mem_cons_of_mem _ h
  refine hinv.mono rfl (owned_mono (fun _ h => h) (fun _ _ h => .inr (.inl h))
    fun other hother id h => ?_) hinv.gone fun id hid other hother h => ?_
  · rcases List.mem_cons.mp hother with rfl | hother
    exacts [.inr (.inr ⟨frame, hmem, hemitter.symm, hholds id h⟩),
      .inr (.inr ⟨other, hsub other hother, rfl, h⟩)]
  · rcases List.mem_cons.mp hother with rfl | hother
    · obtain ⟨hrecord, hinactive⟩ := hinv.marked id hid frame hmem (hholds id h)
      exact ⟨hrecord, fun h => hinactive (hrest id h)⟩
    · exact hinv.marked id hid other (hsub other hother) h

theorem CancelInv.finish (hinv : CancelInv ids s) {emitter : K} {kept : Subscribers C}
    {frames : List (RetainFrame K C)} (hframes : s.frames = ⟨emitter, kept, none, []⟩ :: frames)
    (horderly : s.Orderly .advance) :
    CancelInv ids { s with set := s.set.finishRetain emitter kept, frames } := by
  have hmem : ⟨emitter, kept, none, []⟩ ∈ s.frames := hframes ▸ List.mem_cons_self
  have hsub : ∀ other ∈ frames, other ∈ s.frames := fun other h =>
    hframes ▸ List.mem_cons_of_mem _ h
  simp only [Orderly, aroundFinishing, hframes] at horderly
  refine hinv.mono rfl (owned_mono (fun _ h => h) (fun e id h => ?_)
    fun other hother id h => .inr (.inr ⟨other, hsub other hother, rfl, h⟩))
    (fun id hid e h => ?_) fun id hid other hother h => ?_
  · rcases live_finishRetain h with h | ⟨rfl, h, -⟩
    exacts [.inr (.inl h), .inr (.inr ⟨_, hmem, rfl, .inl h⟩)]
  · rcases live_finishRetain h with h | ⟨rfl, h, hrecord⟩
    exacts [hinv.gone id hid e h, hrecord (hinv.marked id hid _ hmem (.inl h)).1]
  · exact absurd h (horderly other hother id (hinv.marked id hid other (hsub other hother) h).1)

theorem CancelInv.advance (hinv : CancelInv ids s) (horderly : s.Orderly .advance)
    (h : s.advance = some s') : CancelInv ids s' := by
  unfold Subscriptions.advance at h
  split at h
  · rename_i emitter kept id callback rest frames hframes
    split_ifs at h
    all_goals
      obtain rfl := Option.some.inj h
      refine hinv.setFrame hframes rfl (fun id' hholds => ?_) fun id' hid => by
        simp_all [Subscribers.ids]
      simp only [RetainFrame.Holds, Subscribers.ids] at hholds ⊢
      simp at hholds ⊢
      tauto
  · rename_i emitter kept frames hframes
    obtain rfl := Option.some.inj h
    exact hinv.finish hframes horderly
  · exact nomatch h

omit [DecidableEq K] in
theorem CancelInv.ret (hinv : CancelInv ids s) {keep : Bool} {callback : C}
    (h : s.ret keep callback = some s') : CancelInv ids s' := by
  unfold Subscriptions.ret at h
  split at h
  · rename_i emitter kept id _ rest frames hframes
    obtain rfl := Option.some.inj h
    refine hinv.setFrame hframes rfl (fun id' hholds => ?_) fun _ h => h
    simp only [RetainFrame.Holds, Subscribers.ids] at hholds ⊢
    cases keep <;> simp at hholds ⊢ <;> tauto
  · exact nomatch h

/-- Every orderly step keeps the invariant. -/
theorem CancelInv.step (hinv : CancelInv ids s) {a : SubscriptionAction K C}
    (horderly : s.Orderly a) (h : s.step a = some s') : CancelInv (dropped [a] ++ ids) s' := by
  cases a with
  | insert emitter callback =>
    simp only [Subscriptions.step] at h
    split_ifs at h
    exact Option.some.inj h ▸ hinv.insert emitter callback
  | activate id =>
    simp only [Subscriptions.step] at h
    split_ifs at h
    exact Option.some.inj h ▸ hinv.activate horderly
  | drop id =>
    simp only [Subscriptions.step] at h
    split at h
    · rename_i id' emitter _ hfind
      obtain rfl : id' = id := by simpa using List.find?_some hfind
      exact Option.some.inj h ▸ hinv.drop (List.mem_of_find?_eq_some hfind) horderly
    · exact nomatch h
  | detach id =>
    simp only [Subscriptions.step] at h
    split_ifs at h
    exact Option.some.inj h ▸ hinv.detach id
  | remove emitter =>
    simp only [Subscriptions.step] at h
    split_ifs at h
    exact Option.some.inj h ▸ hinv.remove emitter
  | retain emitter =>
    simp only [Subscriptions.step] at h
    split_ifs at h
    exact Option.some.inj h ▸ hinv.startRetain emitter
  | advance => exact hinv.advance horderly h
  | ret keep callback => exact hinv.ret h

end Steps

/-- Nothing is owned or dropped at the start. -/
theorem cancelInv_new [DecidableEq K] : CancelInv [] (new : Subscriptions K C) where
  fresh _ h := nomatch h
  bound _ _ h := by simp [Owned, new, SubscriberSetState.new, SubscriberSetState.Live] at h
  owner _ _ _ h := by simp [Owned, new, SubscriberSetState.new, SubscriberSetState.Live] at h
  gone _ h := nomatch h
  marked _ h := nomatch h

variable [DecidableEq K]

/-- In a run of orderly steps a dropped `Subscription` is cancelled for good. -/
theorem cancelled_of_run {actions : List (SubscriptionAction K C)} {s : Subscriptions K C}
    (run : Foundation.Run step Orderly new actions s) {id : ℕ} (hid : id ∈ dropped actions) :
    s.Cancelled id := by
  have hinv : CancelInv (dropped actions).reverse s := by
    refine run.invariant (fun actions s => CancelInv (dropped actions).reverse s) cancelInv_new
      fun actions s a s' hinv horderly hstep => ?_
    have hsnoc : (dropped (actions ++ [a])).reverse = dropped [a] ++ (dropped actions).reverse := by
      rw [dropped, List.filterMap_append, List.reverse_append]
      congr 1
      cases a <;> rfl
    rw [hsnoc]
    exact hinv.step horderly hstep
  exact hinv.cancelled (List.mem_reverse.mpr hid)

instance (frame : RetainFrame K C) (id : ℕ) : Decidable (frame.Holds id) :=
  inferInstanceAs (Decidable (_ ∨ _ ∨ _))

instance [DecidableEq C] (s : Subscriptions K C) : (a : SubscriptionAction K C) →
    Decidable (s.Orderly a)
  | .drop id => inferInstanceAs (Decidable (∀ frame ∈ s.frames, frame.Holds id →
      s.set.subscribers frame.emitter = some none ∧ (id ∈ frame.rest.ids → s.active id = false)))
  | .activate id => inferInstanceAs (Decidable (∀ frame ∈ s.frames, id ∈ frame.rest.ids →
      id ∉ s.set.droppedSubscribers.map Prod.snd))
  | .advance => inferInstanceAs (Decidable (∀ frame ∈ s.aroundFinishing,
      ∀ id ∈ s.set.droppedSubscribers.map Prod.snd, ¬ frame.Holds id))
  | .insert _ _ | .detach _ | .remove _ | .retain _ | .ret _ _ => .isTrue trivial

/-- A callback drops its own subscription while its emitter is retained. -/
def dropOwn : List (SubscriptionAction Unit Unit) :=
  [.insert () (), .activate 0, .retain (), .advance, .drop 0, .ret true (), .advance]

theorem cancelled_of_run_dropOwn :
    ∃ s, Foundation.execute step Orderly new dropOwn = some s ∧ s.Cancelled 0 := by
  have run : Foundation.Run step Orderly new dropOwn _ := .of_execute rfl
  exact ⟨_, rfl, cancelled_of_run run (by decide)⟩

/-- As `dropOwn`, but the callback inserts a subscriber for its emitter before it drops
its own subscription. -/
def refill : List (SubscriptionAction Unit Unit) :=
  [.insert () (), .activate 0, .retain (), .advance, .insert () (), .drop 0, .ret true (), .advance]

/-- The drop is lost: the subscriber is in the set after `retain`, and called again. -/
theorem not_cancelled_refill : 0 ∈ dropped refill ∧
    (∃ s, Foundation.Run step (fun _ _ => True) new refill s ∧ s.frames = [] ∧ s.set.Live () 0) ∧
    ∃ s, Foundation.Run step (fun _ _ => True) new (refill ++ [.retain ()]) s ∧
      s.invokes = some 0 :=
  ⟨by decide, ⟨_, .of_execute rfl, rfl, _, rfl, by decide⟩, _, .of_execute rfl, rfl⟩

/-- A subscriber that `retain` has not reached is called after its drop. -/
example : (Foundation.execute step (fun _ _ => True) (new : Subscriptions Unit Unit)
    [.insert () (), .activate 0, .insert () (), .activate 1, .retain (), .advance, .drop 1,
      .ret true ()]).bind invokes = some 1 := rfl

/-- A nested `retain` of another emitter swallows the drop. -/
example : (Foundation.execute step (fun _ _ => True) (new : Subscriptions Bool Unit)
    [.insert false (), .activate 0, .insert true (), .retain false, .advance, .drop 0,
      .retain true, .advance, .advance, .ret true (), .advance]).map (·.set.subscribers false) =
    some (some (some [(0, ())])) := rfl

end Subscriptions

end Lucie
