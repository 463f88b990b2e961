import Lucie.Foundation.Exact
import Lucie.Subscription.Tidy

/-!
# A call of `retain`

One `retain` call whose callbacks insert, activate and drop subscribers. It merges the
subscribers that it kept with those that were inserted, and takes away what is on record as
dropped. A drop is on record only as long as the hole is there, so the first insertion for the
emitter ends it: a subscriber that `retain` has kept and that is dropped afterwards stays.
-/

set_option autoImplicit false

namespace Lucie

open Foundation Subscribers

variable {K C : Type} [DecidableEq K]

namespace Subscriptions

omit [DecidableEq K]

/-- The subscriber that `retain` reaches next. -/
def reaches (s : Subscriptions K C) : Option ℕ :=
  match s.frames with
  | ⟨_, _, none, (id, _) :: _⟩ :: _ => some id
  | _ => none

/-- The subscriber whose callback is running. -/
def running (s : Subscriptions K C) : Option ℕ :=
  match s.frames with
  | ⟨_, _, some (id, _), _⟩ :: _ => some id
  | _ => none

end Subscriptions

/-- A call of `retain`, with what has happened since it started. -/
structure RetainRun (K C : Type) where
  subscriptions : Subscriptions K C
  emitter : K
  /-- The subscribers that the call has reached, and whether they were active then. -/
  reached : List (ℕ × Bool)
  /-- The subscribers that the call has invoked. -/
  called : List ℕ
  /-- The subscribers whose callbacks have returned, and what they returned. -/
  returned : List (ℕ × Bool)
  inserted : List (K × ℕ × C)
  /-- The subscribers whose `Subscription` was dropped. -/
  dropped : List ℕ

namespace RetainRun

/-- The call starts. -/
def start (before : Subscriptions K C) (emitter : K) : RetainRun K C :=
  ⟨before.startRetain emitter, emitter, [], [], [], [], []⟩

omit [DecidableEq K] in
/-- Write down what is about to happen. -/
def note (s : RetainRun K C) : SubscriptionAction K C → RetainRun K C
  | .insert emitter callback => { s with
      inserted := s.inserted ++ [(emitter, s.subscriptions.set.nextSubscriberId, callback)] }
  | .drop id => { s with dropped := s.dropped ++ [id] }
  | .advance => { s with
      reached := s.reached ++
        (s.subscriptions.reaches.map fun id => (id, s.subscriptions.active id)).toList
      called := s.called ++ s.subscriptions.invokes.toList }
  | .ret keep _ => { s with
      returned := s.returned ++ (s.subscriptions.running.map fun id => (id, keep)).toList }
  | .activate _ | .detach _ | .remove _ | .retain _ => s

/-- One step. -/
def step (s : RetainRun K C) (a : SubscriptionAction K C) : Option (RetainRun K C) :=
  (s.subscriptions.step a).map fun subscriptions => { s.note a with subscriptions }

/-- The subscribers that were inserted for an emitter. -/
def insertedAt (s : RetainRun K C) (emitter : K) : Subscribers C :=
  (s.inserted.filter fun p => p.1 = emitter).map Prod.snd

/-- The subscribers whose callbacks returned false. -/
def refused (s : RetainRun K C) : List ℕ := (s.returned.filter fun p => !p.2).map Prod.fst

/-- A subscriber of the emitter whose callback has returned, or one that was inserted during the
call. -/
def Droppable (s : RetainRun K C) (emitter : K) (id : ℕ) : Prop :=
  emitter = s.emitter ∧ id ∈ s.returned.map Prod.fst ∨ id ∈ (s.insertedAt emitter).ids

/-- What may happen while the call runs. There is no nested `retain`, and a callback drops the
`Subscription` of a subscriber that has returned or was inserted. -/
def Allowed (s : RetainRun K C) (a : SubscriptionAction K C) : Prop :=
  s.subscriptions.frames ≠ [] ∧
    match a with
    | .drop id => ∃ handle ∈ s.subscriptions.handles, handle.1 = id ∧ s.Droppable handle.2 id
    | .detach _ | .remove _ | .retain _ => False
    | .insert _ _ | .activate _ | .advance | .ret _ _ => True

/-- What a call does that has returned. -/
structure Result (before : Subscriptions K C) (s : RetainRun K C) : Prop where
  /-- The call has reached the subscribers that were there when it started, by their ids. -/
  order : s.reached.map Prod.fst = (before.set.mapAt s.emitter).ids
  increasing : (before.set.mapAt s.emitter).ids.Pairwise (· < ·)
  /-- It invoked those that were active when it reached them, and none that was inserted. -/
  called : s.called = (s.reached.filter Prod.snd).map Prod.fst
  fresh : ∀ p ∈ s.inserted, p.2.1 ∉ s.called
  subscribers : (s.subscriptions.set.mapAt s.emitter).ids =
    ((before.set.mapAt s.emitter).ids.filter (· ∉ s.refused) ++
      (s.insertedAt s.emitter).ids).filter (· ∉ s.dropped)
  others : ∀ emitter ≠ s.emitter,
    s.subscriptions.set.mapAt emitter = before.set.mapAt emitter ++
      (s.insertedAt emitter).filter fun p => p.1 ∉ s.dropped

/-- A subscriber that the call keeps is dropped before the first insertion for the emitter. -/
def Early (s : RetainRun K C) : SubscriptionAction K C → Prop
  | .drop id => (id, true) ∈ s.returned → s.insertedAt s.emitter = []
  | .insert _ _ | .activate _ | .detach _ | .remove _ | .retain _ | .advance | .ret _ _ => True

/-- The invariant of a call that is running. -/
structure Inv (before : Subscriptions K C) (s : RetainRun K C) (frame : RetainFrame K C) :
    Prop where
  tidy : s.subscriptions.Tidy
  emitter : frame.emitter = s.emitter
  next : before.set.nextSubscriberId ≤ s.subscriptions.set.nextSubscriberId
  order : s.reached.map Prod.fst ++ frame.rest.ids = (before.set.mapAt s.emitter).ids
  called : s.called = (s.reached.filter Prod.snd).map Prod.fst
  kept : frame.kept.ids ++ ids frame.running.toList =
    (s.reached.map Prod.fst).filter (· ∉ s.refused)
  returned : ∀ p ∈ s.returned, p.1 ∈ s.reached.map Prod.fst ∧ p.1 ∉ ids frame.running.toList ∧
    (p.2 = true → p.1 ∈ frame.kept.ids)
  inserted : Below s.subscriptions.set.nextSubscriberId (s.inserted.map fun p => p.2.1)
  fresh : ∀ p ∈ s.inserted, before.set.nextSubscriberId ≤ p.2.1
  entry : s.subscriptions.set.mapAt s.emitter =
    (s.insertedAt s.emitter).filter fun p => p.1 ∉ s.dropped
  hole : s.subscriptions.set.Hole s.emitter ↔ s.insertedAt s.emitter = []
  recorded : ∀ p ∈ s.subscriptions.set.droppedSubscribers,
    p.2 ∈ s.dropped ∧ p.2 < before.set.nextSubscriberId
  dropped : ∀ id ∈ s.dropped, id ∉ s.subscriptions.handles.map Prod.fst ∧
    id < s.subscriptions.set.nextSubscriberId ∧
    (id ∈ s.returned.map Prod.fst ∨ before.set.nextSubscriberId ≤ id)
  others : ∀ emitter ≠ s.emitter,
    s.subscriptions.set.mapAt emitter = before.set.mapAt emitter ++
      (s.insertedAt emitter).filter fun p => p.1 ∉ s.dropped

/-- All drops of subscribers that the call has kept are on record. -/
def Recorded (s : RetainRun K C) (frame : RetainFrame K C) : Prop :=
  ∀ id ∈ s.dropped, id ∈ frame.kept.ids →
    id ∈ s.subscriptions.set.droppedSubscribers.map Prod.snd

variable {before : Subscriptions K C} {s s' : RetainRun K C} {frame : RetainFrame K C}

theorem insertedAt_snoc (s : RetainRun K C) (subscriptions : Subscriptions K C) (emitter : K)
    (p : ℕ × C) (e : K) :
    insertedAt { s with subscriptions, inserted := s.inserted ++ [(emitter, p)] } e =
      if e = emitter then s.insertedAt e ++ [p] else s.insertedAt e := by
  rw [insertedAt, List.filter_append, List.map_append]
  split_ifs with he
  · simp [he, insertedAt]
  · simp [Ne.symm he, insertedAt]

/-- Inserted ids are new. -/
theorem Inv.mem_insertedAt (hinv : s.Inv before frame) {e : K} {id : ℕ}
    (h : id ∈ (s.insertedAt e).ids) :
    before.set.nextSubscriberId ≤ id ∧ id < s.subscriptions.set.nextSubscriberId := by
  simp only [insertedAt, Subscribers.ids, List.map_map, List.mem_map] at h
  obtain ⟨p, hp, rfl⟩ := h
  have hmem := List.mem_of_mem_filter hp
  exact ⟨hinv.fresh p hmem, hinv.inserted.2 _ (List.mem_map_of_mem hmem)⟩

/-- The live map of an emitter grows by what is inserted. -/
theorem Inv.mapAt_insert (hinv : s.Inv before frame) (emitter : K) (callback : C) :
    (s.subscriptions.set.mapAt emitter).insert s.subscriptions.set.nextSubscriberId callback =
      s.subscriptions.set.mapAt emitter ++
        [(s.subscriptions.set.nextSubscriberId, callback)].filter fun p => p.1 ∉ s.dropped := by
  have hnew : s.subscriptions.set.nextSubscriberId ∉ s.dropped := fun h =>
    Nat.lt_irrefl _ (hinv.dropped _ h).2.1
  rw [insert_of_lt (hinv.tidy.live emitter).2, List.filter_singleton]
  simp [hnew]

theorem Inv.insert (hinv : s.Inv before frame) (emitter : K) (callback : C) (active : ℕ → Bool) :
    Inv before { s with
      subscriptions := { s.subscriptions with
        set := s.subscriptions.set.insert emitter callback
        active
        handles := (s.subscriptions.set.nextSubscriberId, emitter) :: s.subscriptions.handles }
      inserted :=
        s.inserted ++ [(emitter, s.subscriptions.set.nextSubscriberId, callback)] } frame := by
  refine ⟨hinv.tidy.insert emitter callback active, hinv.emitter, Nat.le_succ_of_le hinv.next,
    hinv.order, hinv.called, hinv.kept, hinv.returned, ?_, fun p hp => ?_, ?_, ?_, hinv.recorded,
    fun id hid => ?_, fun e he => ?_⟩
  · have hinserted := hinv.inserted.snoc
    rwa [← List.map_singleton (f := fun p : K × ℕ × C => p.2.1)
      (a := (emitter, s.subscriptions.set.nextSubscriberId, callback)), ← List.map_append]
      at hinserted
  · rcases List.mem_append.mp hp with hp | hp
    · exact hinv.fresh p hp
    · rw [List.mem_singleton.mp hp]
      exact hinv.next
  · refine (SubscriberSetState.mapAt_insert ..).trans ?_
    rw [insertedAt_snoc]
    split_ifs with he
    · obtain rfl : s.emitter = emitter := he
      rw [hinv.mapAt_insert, List.filter_append]
      exact congrArg (· ++ _) hinv.entry
    · exact hinv.entry
  · refine (SubscriberSetState.hole_insert ..).trans ?_
    rw [insertedAt_snoc]
    split_ifs with he
    · exact iff_of_false (fun h => h.1 he) (List.append_ne_nil_of_right_ne_nil _ (by simp))
    · exact (and_iff_right he).trans hinv.hole
  · obtain ⟨hhandles, hnext, hold⟩ := hinv.dropped id hid
    refine ⟨fun hmem => ?_, Nat.lt_succ_of_lt hnext, hold⟩
    rcases List.mem_cons.mp hmem with rfl | hmem
    exacts [Nat.lt_irrefl _ hnext, hhandles hmem]
  · refine (SubscriberSetState.mapAt_insert ..).trans ?_
    rw [insertedAt_snoc]
    split_ifs with heq
    · subst heq
      rw [hinv.mapAt_insert, List.filter_append, ← List.append_assoc]
      exact congrArg (· ++ _) (hinv.others e he)
    · exact hinv.others e he

/-- The subscribers that the call has reached were there when it started. -/
theorem Inv.reached_lt (hinv : s.Inv before frame) (hbefore : before.Tidy) {id : ℕ}
    (hid : id ∈ s.returned.map Prod.fst) : id < before.set.nextSubscriberId := by
  obtain ⟨p, hp, rfl⟩ := List.mem_map.mp hid
  refine (hbefore.live s.emitter).2 _ ?_
  rw [← hinv.order]
  exact List.mem_append_left _ (hinv.returned p hp).1

/-- A subscriber is inserted for one emitter. -/
theorem Inv.insertedAt_unique (hinv : s.Inv before frame) {e e' : K} {id : ℕ}
    (h : id ∈ (s.insertedAt e).ids) (h' : id ∈ (s.insertedAt e').ids) : e = e' := by
  simp only [insertedAt, Subscribers.ids, List.map_map, List.mem_map, List.mem_filter,
    decide_eq_true_eq] at h h'
  obtain ⟨p, ⟨hp, rfl⟩, rfl⟩ := h
  obtain ⟨p', ⟨hp', rfl⟩, hid⟩ := h'
  rw [List.inj_on_of_nodup_map hinv.inserted.nodup hp' hp hid]

/-- What was dropped is not in the hands of the call any more, or it is kept. -/
theorem Inv.not_mem_rest (hinv : s.Inv before frame) (hbefore : before.Tidy) {id : ℕ}
    (hid : id ∈ s.dropped) : id ∉ frame.rest.ids ∧ id ∉ ids frame.running.toList := by
  have hbelow := hbefore.live s.emitter
  rw [← hinv.order] at hbelow
  rcases (hinv.dropped id hid).2.2 with hreturned | hnew
  · obtain ⟨p, hp, rfl⟩ := List.mem_map.mp hreturned
    obtain ⟨hreached, hrunning, -⟩ := hinv.returned p hp
    refine ⟨fun hrest => ?_, hrunning⟩
    exact (List.nodup_append.mp hbelow.nodup).2.2 _ hreached _ hrest rfl
  · have hfresh : id ∉ s.reached.map Prod.fst ++ frame.rest.ids := fun h =>
      absurd (hbelow.2 id h) (Nat.not_lt_of_le hnew)
    rw [List.mem_append, not_or] at hfresh
    refine ⟨hfresh.2, fun hrunning => hfresh.1 ?_⟩
    have hkept := List.mem_append_right frame.kept.ids hrunning
    rw [hinv.kept] at hkept
    exact List.mem_of_mem_filter hkept

/-- Only the emitter has a hole. -/
theorem Inv.emitter_of_hole (hinv : s.Inv before frame) (hframes : s.subscriptions.frames = [frame])
    {e : K} (h : s.subscriptions.set.Hole e) : e = s.emitter := by
  obtain ⟨other, hother, he⟩ := hinv.tidy.hole e h
  rw [hframes, List.mem_singleton] at hother
  rw [← he, hother, hinv.emitter]

/-- A drop takes a subscriber out of those that were inserted for its own emitter only. -/
theorem Inv.filter_insertedAt (hinv : s.Inv before frame) (hbefore : before.Tidy) {id : ℕ}
    {emitter : K} (hallowed : s.Droppable emitter id) (e : K) :
    ((s.insertedAt e).filter fun p => p.1 ∉ s.dropped ++ [id]) =
      if e = emitter then remove id ((s.insertedAt e).filter fun p => p.1 ∉ s.dropped)
      else (s.insertedAt e).filter fun p => p.1 ∉ s.dropped := by
  rw [filter_not_mem_snoc Prod.fst]
  split_ifs with he
  · rfl
  · have helse : id ∉ (s.insertedAt e).ids := by
      intro hmem
      rcases hallowed with ⟨-, hreturned⟩ | hinserted
      · have := hinv.reached_lt hbefore hreturned
        have := (hinv.mem_insertedAt hmem).1
        omega
      · exact he (hinv.insertedAt_unique hmem hinserted)
    exact remove_of_not_mem fun h => helse (mem_ids_of_filter h)

theorem Inv.drop (hinv : s.Inv before frame) (hbefore : before.Tidy)
    (hframes : s.subscriptions.frames = [frame]) {id : ℕ} {emitter : K}
    (hhandle : (id, emitter) ∈ s.subscriptions.handles)
    (hallowed : s.Droppable emitter id) :
    Inv before { s with
      subscriptions := { s.subscriptions with
        set := s.subscriptions.set.unsubscribe emitter id
        handles := s.subscriptions.handles.filter fun handle => handle.1 ≠ id }
      dropped := s.dropped ++ [id] } frame := by
  have hnext := s.subscriptions.set.nextSubscriberId_unsubscribe emitter id
  have hfilter := hinv.filter_insertedAt hbefore hallowed
  have hentry : (s.subscriptions.set.unsubscribe emitter id).mapAt s.emitter =
      (s.insertedAt s.emitter).filter fun p => p.1 ∉ s.dropped ++ [id] := by
    rw [SubscriberSetState.mapAt_unsubscribe, hfilter, hinv.entry]
    split_ifs with he
    · rw [← he, hinv.entry]
    · rfl
  have hothers : ∀ e ≠ s.emitter, (s.subscriptions.set.unsubscribe emitter id).mapAt e =
      before.set.mapAt e ++ (s.insertedAt e).filter fun p => p.1 ∉ s.dropped ++ [id] := by
    intro e he
    rw [SubscriberSetState.mapAt_unsubscribe, hfilter, hinv.others e he]
    split_ifs with heq
    · subst heq
      have hinserted := hallowed.resolve_left fun h => he h.1
      have hold : id ∉ (before.set.mapAt e).ids := fun h =>
        absurd ((hbefore.live e).2 id h) (Nat.not_lt_of_le (hinv.mem_insertedAt hinserted).1)
      rw [hinv.others e he, remove_append, remove_of_not_mem hold]
    · rfl
  refine ⟨(hinv.tidy.unsubscribe emitter id).detach id, hinv.emitter,
    Nat.le_trans hinv.next (Nat.le_of_eq hnext.symm), hinv.order, hinv.called, hinv.kept,
    hinv.returned, ?_, hinv.fresh, hentry, (SubscriberSetState.hole_unsubscribe ..).trans hinv.hole,
    fun p hp => ?_, fun id' hid => ?_, hothers⟩
  · dsimp only
    rw [hnext]
    exact hinv.inserted
  · have hold : p ∈ s.subscriptions.set.droppedSubscribers →
        p.2 ∈ s.dropped ++ [id] ∧ p.2 < before.set.nextSubscriberId := fun hp =>
      ⟨List.mem_append_left _ (hinv.recorded p hp).1, (hinv.recorded p hp).2⟩
    dsimp only at hp
    rcases s.subscriptions.set.droppedSubscribers_unsubscribe emitter id with
      ⟨hhole, hrecord⟩ | ⟨-, hsame⟩
    · rw [hrecord] at hp
      rcases List.mem_cons.mp hp with rfl | hp
      · -- the hole is the one of the emitter, for which nothing was inserted
        obtain rfl := hinv.emitter_of_hole hframes hhole
        refine ⟨List.mem_append_right _ List.mem_cons_self, ?_⟩
        rcases hallowed with ⟨-, hreturned⟩ | hinserted
        · exact hinv.reached_lt hbefore hreturned
        · simp [hinv.hole.mp hhole, Subscribers.ids] at hinserted
      · exact hold hp
    · rw [hsame] at hp
      exact hold hp
  · dsimp only
    rw [hnext]
    rcases List.mem_append.mp hid with hid | hid
    · obtain ⟨hhandles, hrest⟩ := hinv.dropped id' hid
      exact ⟨fun h => hhandles ((List.filter_sublist.map _).subset h), hrest⟩
    · obtain rfl := List.mem_singleton.mp hid
      refine ⟨fun h => ?_, ?_, ?_⟩
      · simp at h
      · exact (List.pairwise_cons.mp hinv.tidy.handles).1 _ (List.mem_map_of_mem hhandle)
      · exact hallowed.imp And.right fun h => (hinv.mem_insertedAt h).1

theorem Inv.activate (hinv : s.Inv before frame) (active : ℕ → Bool) :
    Inv before { s with subscriptions := { s.subscriptions with active } } frame where
  __ := hinv
  tidy := hinv.tidy.activate active

/-- The call goes on to a subscriber that is there, and invokes it or keeps it as it is. -/
theorem Inv.reach {emitter : K} {kept kept' : Subscribers C} {id : ℕ} {callback : C}
    {running' : Option (ℕ × C)} {rest : Subscribers C}
    (hinv : s.Inv before ⟨emitter, kept, none, (id, callback) :: rest⟩) (hbefore : before.Tidy)
    (htidy : Subscriptions.Tidy { s.subscriptions with
      frames := [⟨emitter, kept', running', rest⟩] })
    (hids : kept'.ids ++ ids running'.toList = kept.ids ++ [id])
    (hkept : kept.ids ⊆ kept'.ids) (hrunning : ids running'.toList ⊆ [id]) (active : Bool) :
    Inv before { s with
      subscriptions := { s.subscriptions with frames := [⟨emitter, kept', running', rest⟩] }
      reached := s.reached ++ [(id, active)]
      called := s.called ++ if active then [id] else [] } ⟨emitter, kept', running', rest⟩ := by
  have horder : s.reached.map Prod.fst ++ id :: rest.ids = (before.set.mapAt s.emitter).ids :=
    hinv.order
  have hnew : id ∉ s.reached.map Prod.fst := by
    have hnodup := (hbefore.live s.emitter).nodup
    rw [← horder] at hnodup
    exact fun h => (List.nodup_append.mp hnodup).2.2 id h id List.mem_cons_self rfl
  have hrefused : id ∉ s.refused := by
    intro h
    obtain ⟨p, hp, rfl⟩ := List.mem_map.mp h
    exact hnew (hinv.returned p (List.mem_of_mem_filter hp)).1
  refine ⟨htidy, hinv.emitter, hinv.next, ?_, ?_, ?_, fun p hp => ?_, hinv.inserted, hinv.fresh,
    hinv.entry, hinv.hole, hinv.recorded, hinv.dropped, hinv.others⟩
  · rw [List.map_append, List.append_assoc]
    exact horder
  · rw [List.filter_append, List.map_append, ← hinv.called]
    cases active <;> rfl
  · rw [List.map_append, List.filter_append, hids]
    have hkept : kept.ids ++ [] = _ := hinv.kept
    rw [List.append_nil] at hkept
    rw [hkept]
    refine congrArg _ (List.filter_eq_self.mpr fun k hk => decide_eq_true ?_).symm
    obtain rfl : k = id := List.mem_singleton.mp hk
    exact hrefused
  · obtain ⟨hreached, -, hkeep⟩ := hinv.returned p hp
    refine ⟨?_, fun h => ?_, fun h => hkept (hkeep h)⟩
    · rw [List.map_append]
      exact List.mem_append_left _ hreached
    · obtain rfl := List.mem_singleton.mp (hrunning h)
      exact hnew hreached

/-- A callback returns. -/
theorem Inv.ret {emitter : K} {kept : Subscribers C} {id : ℕ} {callback : C}
    {rest : Subscribers C} (hinv : s.Inv before ⟨emitter, kept, some (id, callback), rest⟩)
    (hbefore : before.Tidy) (keep : Bool) (callback' : C)
    (htidy : Subscriptions.Tidy { s.subscriptions with
      frames := [⟨emitter, if keep then kept ++ [(id, callback')] else kept, none, rest⟩] }) :
    Inv before { s with
      subscriptions := { s.subscriptions with
        frames := [⟨emitter, if keep then kept ++ [(id, callback')] else kept, none, rest⟩] }
      returned := s.returned ++ [(id, keep)] }
      ⟨emitter, if keep then kept ++ [(id, callback')] else kept, none, rest⟩ := by
  have hkept : kept.ids ++ [id] = (s.reached.map Prod.fst).filter (· ∉ s.refused) := hinv.kept
  have hreached : id ∈ s.reached.map Prod.fst := by
    have hmem : id ∈ kept.ids ++ [id] := List.mem_append_right _ List.mem_cons_self
    rw [hkept] at hmem
    exact List.mem_of_mem_filter hmem
  have hnew : id ∉ kept.ids := by
    have hnodup := (hbefore.live s.emitter).nodup
    rw [← hinv.order] at hnodup
    have hnodup : (kept.ids ++ [id]).Nodup :=
      hkept ▸ (List.nodup_append.mp hnodup).1.filter _
    exact fun h => (List.nodup_append.mp hnodup).2.2 id h id List.mem_cons_self rfl
  refine ⟨htidy, hinv.emitter, hinv.next, hinv.order, hinv.called, ?_, fun p hp => ?_,
    hinv.inserted, hinv.fresh, hinv.entry, hinv.hole, hinv.recorded, fun id' hid => ?_, hinv.others⟩
  · rw [refused, List.filter_append, List.map_append]
    cases keep with
    | true => simpa [Subscribers.ids, refused] using hkept
    | false =>
      have hself : kept.ids.filter (· ≠ id) = kept.ids := by
        refine List.filter_eq_self.mpr fun k hk => decide_eq_true ?_
        rintro rfl
        exact hnew hk
      change kept.ids ++ [] = (s.reached.map Prod.fst).filter (· ∉ s.refused ++ [id])
      rw [filter_not_mem_snoc fun k => k, ← hkept, List.filter_append, hself]
      simp
  · rcases List.mem_append.mp hp with hp | hp
    · obtain ⟨hmem, -, hkeep⟩ := hinv.returned p hp
      refine ⟨hmem, List.not_mem_nil, fun h => ?_⟩
      cases keep with
      | true => exact ids_append kept _ ▸ List.mem_append_left _ (hkeep h)
      | false => exact hkeep h
    · obtain rfl := List.mem_singleton.mp hp
      refine ⟨hreached, List.not_mem_nil, fun h => ?_⟩
      obtain rfl : keep = true := h
      exact ids_append kept _ ▸ List.mem_append_right _ List.mem_cons_self
  · obtain ⟨hhandles, hnext, hold⟩ := hinv.dropped id' hid
    refine ⟨hhandles, hnext, hold.imp_left fun h => ?_⟩
    rw [List.map_append]
    exact List.mem_append_left _ h

/-- Where two lists are removed from a third. -/
theorem filter_not_mem_eq_iff {some all ids : List ℕ} (hsub : some ⊆ all) :
    ids.filter (· ∉ some) = ids.filter (· ∉ all) ↔ ∀ id ∈ all, id ∈ ids → id ∈ some := by
  constructor
  · intro h id hall hids
    by_contra hsome
    have hmem : id ∈ ids.filter (· ∉ some) := List.mem_filter.mpr ⟨hids, decide_eq_true hsome⟩
    rw [h] at hmem
    exact of_decide_eq_true (List.mem_filter.mp hmem).2 hall
  · intro h
    refine List.filter_congr fun id hids => ?_
    by_cases hall : id ∈ all
    · simp [hall, h id hall hids]
    · have hsome : id ∉ some := fun h => hall (hsub h)
      simp [hall, hsome]

section Finish

variable {emitter : K} {kept : Subscribers C}

/-- A call that has reached all subscribers keeps those that were not refused. -/
theorem Inv.kept_eq (hinv : s.Inv before ⟨emitter, kept, none, []⟩) :
    s.reached.map Prod.fst = (before.set.mapAt s.emitter).ids ∧
      kept.ids = (before.set.mapAt s.emitter).ids.filter (· ∉ s.refused) := by
  have horder : s.reached.map Prod.fst = (before.set.mapAt s.emitter).ids :=
    (List.append_nil _).symm.trans hinv.order
  refine ⟨horder, ?_⟩
  rw [← horder, ← hinv.kept]
  exact (List.append_nil _).symm

/-- The subscribers that were inserted go behind those that were kept. None of them is on record,
since they were taken out of their map when they were dropped. -/
theorem Inv.ids_finishRetain (hinv : s.Inv before ⟨emitter, kept, none, []⟩)
    (hbefore : before.Tidy) :
    ((s.subscriptions.set.finishRetain s.emitter kept).mapAt s.emitter).ids =
      kept.ids.filter (· ∉ s.subscriptions.set.droppedSubscribers.map Prod.snd) ++
        (s.insertedAt s.emitter).ids.filter (· ∉ s.dropped) := by
  have hkept := hinv.kept_eq.2
  have hbelow := hbefore.live s.emitter
  have hnew : ∀ id ∈ (s.subscriptions.set.mapAt s.emitter).ids,
      before.set.nextSubscriberId ≤ id := by
    intro id hid
    rw [hinv.entry] at hid
    exact (hinv.mem_insertedAt (mem_ids_of_filter hid)).1
  have hextend : kept.extend (s.subscriptions.set.mapAt s.emitter) =
      kept ++ s.subscriptions.set.mapAt s.emitter := by
    refine extend_of_pairwise (List.pairwise_append.mpr
      ⟨hkept ▸ hbelow.1.filter _, (hinv.tidy.live s.emitter).1, fun id hid id' hid' => ?_⟩)
    rw [hkept] at hid
    exact Nat.lt_of_lt_of_le (hbelow.2 id (List.mem_of_mem_filter hid)) (hnew id' hid')
  have hlive : (s.subscriptions.set.mapAt s.emitter).ids.filter
      (· ∉ s.subscriptions.set.droppedSubscribers.map Prod.snd) =
        (s.insertedAt s.emitter).ids.filter (· ∉ s.dropped) := by
    rw [← ids_filter_not_mem s.dropped, ← hinv.entry]
    refine List.filter_eq_self.mpr fun id hid => decide_eq_true fun hrecord => ?_
    obtain ⟨p, hp, rfl⟩ := List.mem_map.mp hrecord
    exact absurd (hinv.recorded p hp).2 (Nat.not_lt_of_le (hnew _ hid))
  rw [SubscriberSetState.mapAt_finishRetain, if_pos rfl, hextend, List.filter_append,
    ids_append, ids_filter_not_mem, ids_filter_not_mem, hlive]

/-- The call has the result when it finishes with all drops on record. -/
theorem Inv.finish_iff (hinv : s.Inv before ⟨emitter, kept, none, []⟩) (hbefore : before.Tidy) :
    Result before { s with subscriptions := { s.subscriptions with
      set := s.subscriptions.set.finishRetain emitter kept
      frames := [] } } ↔ s.Recorded ⟨emitter, kept, none, []⟩ := by
  obtain rfl : emitter = s.emitter := hinv.emitter
  obtain ⟨horder, hkept⟩ := hinv.kept_eq
  have hbelow := hbefore.live s.emitter
  have hsub : s.subscriptions.set.droppedSubscribers.map Prod.snd ⊆ s.dropped := by
    intro id hid
    obtain ⟨p, hp, rfl⟩ := List.mem_map.mp hid
    exact (hinv.recorded p hp).1
  have hsubscribers : ((s.subscriptions.set.finishRetain s.emitter kept).mapAt s.emitter).ids =
      ((before.set.mapAt s.emitter).ids.filter (· ∉ s.refused) ++
        (s.insertedAt s.emitter).ids).filter (· ∉ s.dropped) ↔
      s.Recorded ⟨s.emitter, kept, none, []⟩ := by
    rw [hinv.ids_finishRetain hbefore, ← hkept, List.filter_append, List.append_left_inj,
      filter_not_mem_eq_iff hsub]
    rfl
  refine ⟨fun h => hsubscribers.mp h.subscribers, fun h => ?_⟩
  refine ⟨horder, hbelow.1, hinv.called, fun p hp hmem => ?_, hsubscribers.mpr h, fun e he => ?_⟩
  · dsimp only at hmem
    rw [hinv.called] at hmem
    have hreached := (List.filter_sublist.map Prod.fst).subset hmem
    rw [horder] at hreached
    exact absurd (hbelow.2 _ hreached) (Nat.not_lt_of_le (hinv.fresh p hp))
  · exact (SubscriberSetState.mapAt_finishRetain ..).trans ((if_neg he).trans (hinv.others e he))

end Finish

omit [DecidableEq K] in
/-- What is on record stays so when a subscriber is kept that was not dropped. -/
theorem recorded_iff_of_kept {frame' : RetainFrame K C} (hset : s'.dropped = s.dropped)
    (hrecord : s'.subscriptions.set.droppedSubscribers = s.subscriptions.set.droppedSubscribers)
    {id : ℕ} (hid : id ∉ s.dropped)
    (hkept : frame'.kept.ids = frame.kept.ids ∨ frame'.kept.ids = frame.kept.ids ++ [id]) :
    s'.Recorded frame' ↔ s.Recorded frame := by
  unfold Recorded
  rw [hset, hrecord]
  refine forall₂_congr fun id' hid' => imp_congr_left ?_
  have hne : id' ≠ id := fun h => hid (h ▸ hid')
  rcases hkept with hkept | hkept
  · rw [hkept]
  · simp [hkept, hne]

/-- The call keeps a subscriber that may be dropped if its callback returned true. -/
theorem Inv.mem_kept_iff (hinv : s.Inv before frame) (hbefore : before.Tidy) {id : ℕ} {emitter : K}
    (hallowed : s.Droppable emitter id) : id ∈ frame.kept.ids ↔ (id, true) ∈ s.returned := by
  refine ⟨fun hkept => ?_, fun h => (hinv.returned _ h).2.2 rfl⟩
  have hmem : id ∈ (s.reached.map Prod.fst).filter (· ∉ s.refused) :=
    hinv.kept ▸ List.mem_append_left _ hkept
  obtain ⟨hreached, hrefused⟩ := List.mem_filter.mp hmem
  rcases hallowed with ⟨-, hreturned⟩ | hinserted
  · obtain ⟨⟨id, keep⟩, hp, rfl⟩ := List.mem_map.mp hreturned
    cases keep with
    | true => exact hp
    | false =>
      have : id ∈ s.refused := List.mem_map.mpr ⟨_, List.mem_filter.mpr ⟨hp, rfl⟩, rfl⟩
      exact absurd this (of_decide_eq_true hrefused)
  · have hold := hbefore.live s.emitter
    rw [← hinv.order] at hold
    have := hold.2 id (List.mem_append_left _ hreached)
    have := (hinv.mem_insertedAt hinserted).1
    omega

/-- A drop is on record when it is early. -/
theorem Inv.recorded_drop_iff (hinv : s.Inv before frame) (hbefore : before.Tidy)
    (hframes : s.subscriptions.frames = [frame]) {id : ℕ} {emitter : K}
    (hhandle : (id, emitter) ∈ s.subscriptions.handles)
    (hallowed : s.Droppable emitter id) :
    Recorded { s with
      subscriptions := { s.subscriptions with
        set := s.subscriptions.set.unsubscribe emitter id
        handles := s.subscriptions.handles.filter fun handle => handle.1 ≠ id }
      dropped := s.dropped ++ [id] } frame ↔ s.Recorded frame ∧ s.Early (.drop id) := by
  have hkept := hinv.mem_kept_iff hbefore hallowed
  have hdropped : id ∉ s.dropped := fun h =>
    (hinv.dropped id h).1 (List.mem_map_of_mem (f := Prod.fst) hhandle)
  unfold Recorded Early
  dsimp only
  rw [List.forall_mem_append, List.forall_mem_singleton]
  rcases s.subscriptions.set.droppedSubscribers_unsubscribe emitter id with
    ⟨hhole, hrecord⟩ | ⟨hhole, hsame⟩
  · obtain rfl := hinv.emitter_of_hole hframes hhole
    rw [hrecord, List.map_cons]
    have hself : id ∈ frame.kept.ids →
        id ∈ id :: s.subscriptions.set.droppedSubscribers.map Prod.snd :=
      fun _ => List.mem_cons_self
    rw [and_iff_left hself, and_iff_left fun _ => hinv.hole.mp hhole]
    refine forall₂_congr fun id' hid => imp_congr_right fun _ => ?_
    have hne : id' ≠ id := fun h => hdropped (h ▸ hid)
    simp [hne]
  · have hrecord : id ∉ s.subscriptions.set.droppedSubscribers.map Prod.snd := by
      intro h
      obtain ⟨p, hp, rfl⟩ := List.mem_map.mp h
      exact hdropped (hinv.recorded p hp).1
    have hfilled : (id, true) ∈ s.returned → s.insertedAt s.emitter ≠ [] := by
      intro hreturned hempty
      rcases hallowed with ⟨rfl, -⟩ | hinserted
      · exact hhole (hinv.hole.mpr hempty)
      · have := hinv.reached_lt hbefore (List.mem_map_of_mem (f := Prod.fst) hreturned)
        have := (hinv.mem_insertedAt hinserted).1
        omega
    rw [hsame, hkept]
    exact and_congr_right fun _ => imp_congr_right fun h => iff_of_false hrecord (hfilled h)

section Advance

variable {emitter : K} {kept : Subscribers C} {id : ℕ} {callback : C} {rest : Subscribers C}

omit [DecidableEq K] in
theorem note_advance_nil (hframes : s.subscriptions.frames = [⟨emitter, kept, none, []⟩]) :
    s.note .advance = s := by
  simp [note, Subscriptions.reaches, Subscriptions.invokes, hframes]

omit [DecidableEq K] in
theorem note_advance_cons
    (hframes : s.subscriptions.frames = [⟨emitter, kept, none, (id, callback) :: rest⟩]) :
    s.note .advance = { s with
      reached := s.reached ++ [(id, s.subscriptions.active id)]
      called := s.called ++ if s.subscriptions.active id then [id] else [] } := by
  have hinvokes : s.subscriptions.invokes.toList =
      if s.subscriptions.active id then [id] else [] := by
    rw [Subscriptions.invokes, hframes]
    dsimp only
    split_ifs <;> rfl
  rw [note, hinvokes]
  simp [Subscriptions.reaches, hframes]

omit [DecidableEq K] in
theorem note_ret
    (hframes : s.subscriptions.frames = [⟨emitter, kept, some (id, callback), rest⟩])
    (keep : Bool) (callback' : C) :
    s.note (.ret keep callback') = { s with returned := s.returned ++ [(id, keep)] } := by
  simp [note, Subscriptions.running, hframes]

end Advance

/-- What one step of a running call does. It stays valid, and the drops stay on record exactly if
the step is early; or it returns, and has the result exactly if the drops are on record. -/
theorem Inv.step (hinv : s.Inv before frame) (hbefore : before.Tidy)
    (hframes : s.subscriptions.frames = [frame]) {a : SubscriptionAction K C}
    (hallowed : s.Allowed a) (hstep : s.step a = some s') :
    (∃ frame', s'.subscriptions.frames = [frame'] ∧ s'.Inv before frame' ∧
      (s'.Recorded frame' ↔ s.Recorded frame ∧ s.Early a)) ∨
    s'.subscriptions.frames = [] ∧ (Result before s' ↔ s.Recorded frame ∧ s.Early a) := by
  obtain ⟨subscriptions, hsub, rfl⟩ := Option.map_eq_some_iff.mp hstep
  cases a with
  | insert emitter callback =>
    simp only [Subscriptions.step] at hsub
    split_ifs at hsub
    obtain rfl := Option.some.inj hsub
    exact .inl ⟨frame, hframes, hinv.insert emitter callback _, (and_iff_left trivial).symm⟩
  | activate id =>
    simp only [Subscriptions.step] at hsub
    split_ifs at hsub
    obtain rfl := Option.some.inj hsub
    exact .inl ⟨frame, hframes, hinv.activate _, (and_iff_left trivial).symm⟩
  | drop id =>
    obtain ⟨-, ⟨id', emitter⟩, hhandle, hid, hallowed⟩ := hallowed
    obtain rfl : id' = id := hid
    simp only [Subscriptions.step, hinv.tidy.find_handle hhandle] at hsub
    split at hsub
    · rename_i hfind
      obtain ⟨rfl, rfl⟩ := Prod.mk.inj (Option.some.inj hfind)
      obtain rfl := Option.some.inj hsub
      exact .inl ⟨frame, hframes, hinv.drop hbefore hframes hhandle hallowed,
        hinv.recorded_drop_iff hbefore hframes hhandle hallowed⟩
    · cases hsub
  | detach id => exact hallowed.2.elim
  | remove emitter => exact hallowed.2.elim
  | retain emitter => exact hallowed.2.elim
  | advance =>
    have htidy := hinv.tidy.step hsub
    simp only [Subscriptions.step, Subscriptions.advance, hframes] at hsub
    obtain ⟨emitter, kept, running, rest⟩ := frame
    rcases running with - | running
    · rcases rest with - | ⟨⟨id, callback⟩, rest⟩
      · obtain rfl := Option.some.inj hsub
        rw [note_advance_nil hframes]
        exact .inr ⟨rfl, (hinv.finish_iff hbefore).trans (and_iff_left trivial).symm⟩
      · have hid : id ∉ s.dropped := fun h =>
          (hinv.not_mem_rest hbefore h).1 List.mem_cons_self
        rw [note_advance_cons hframes]
        refine .inl ?_
        dsimp only at hsub
        split_ifs at hsub with hactive
        · obtain rfl := Option.some.inj hsub
          refine ⟨_, rfl, hinv.reach hbefore htidy rfl (List.Subset.refl _)
            (List.Subset.refl _) _, ?_⟩
          exact (recorded_iff_of_kept rfl rfl hid (.inl rfl)).trans (and_iff_left trivial).symm
        · obtain rfl := Option.some.inj hsub
          have hids : ids (kept ++ [(id, callback)]) = kept.ids ++ [id] := ids_append ..
          refine ⟨_, rfl, hinv.reach hbefore htidy (by rw [hids]; exact List.append_nil _)
            (hids ▸ List.subset_append_left ..) (List.nil_subset _) _, ?_⟩
          exact (recorded_iff_of_kept rfl rfl hid (.inr hids)).trans (and_iff_left trivial).symm
    · cases hsub
  | ret keep callback =>
    have htidy := hinv.tidy.step hsub
    simp only [Subscriptions.step, Subscriptions.ret, hframes] at hsub
    obtain ⟨emitter, kept, running, rest⟩ := frame
    rcases running with - | ⟨id, callback'⟩
    · cases hsub
    · obtain rfl := Option.some.inj hsub
      have hid : id ∉ s.dropped := fun h =>
        (hinv.not_mem_rest hbefore h).2 List.mem_cons_self
      rw [note_ret hframes]
      refine .inl ⟨_, rfl, hinv.ret hbefore keep callback htidy, ?_⟩
      refine (recorded_iff_of_kept rfl rfl hid ?_).trans (and_iff_left trivial).symm
      cases keep with
      | true => exact .inr (ids_append kept _)
      | false => exact .inl rfl

/-- The call is running and valid, or it has returned. -/
def Valid (before : Subscriptions K C) (s : RetainRun K C) : Prop :=
  s.subscriptions.frames = [] ∨ ∃ frame, s.subscriptions.frames = [frame] ∧ s.Inv before frame

/-- All drops are on record while the call runs, and it has the result when it returns. -/
def Faithful (before : Subscriptions K C) (s : RetainRun K C) : Prop :=
  (∀ frame ∈ s.subscriptions.frames, s.Recorded frame) ∧
    (s.subscriptions.frames = [] → Result before s)

/-- A call that has subscribers to reach takes them. -/
theorem inv_start (hbefore : before.Tidy) (hframes : before.frames = []) {emitter : K}
    {subscribers : Subscribers C}
    (hentry : before.set.subscribers emitter = some (some subscribers)) :
    (start before emitter).subscriptions.frames = [⟨emitter, [], none, subscribers⟩] ∧
      Inv before (start before emitter) ⟨emitter, [], none, subscribers⟩ := by
  have hmap : before.set.mapAt emitter = subscribers := by simp [SubscriberSetState.mapAt, hentry]
  have hrecord : before.set.droppedSubscribers = [] := hbefore.record hframes
  have htidy := hbefore.startRetain emitter
  unfold start
  have hstart : before.startRetain emitter = { before with
      set := before.set.setEntry emitter (some none)
      frames := [⟨emitter, [], none, subscribers⟩] } := by
    simp [Subscriptions.startRetain, hentry, hframes]
  rw [hstart] at htidy ⊢
  refine ⟨rfl, htidy, rfl, Nat.le_refl _, hmap ▸ rfl, rfl, rfl, fun p hp => ?_, below_nil _,
    fun p hp => ?_, ?_, ?_, fun p hp => ?_, fun id hid => ?_, fun e he => ?_⟩
  · simp at hp
  · simp at hp
  · exact (SubscriberSetState.mapAt_setEntry ..).trans (if_pos rfl)
  · exact iff_of_true ((SubscriberSetState.hole_setEntry ..).mpr (by simp)) rfl
  · have hp : p ∈ before.set.droppedSubscribers := hp
    simp [hrecord] at hp
  · simp at hid
  · refine (SubscriberSetState.mapAt_setEntry ..).trans ((if_neg he).trans ?_)
    exact (List.append_nil _).symm

/-- A call without subscribers to reach returns at once. -/
theorem result_start {emitter : K}
    (hentry : ∀ subscribers, before.set.subscribers emitter ≠ some (some subscribers)) :
    (start before emitter).subscriptions.frames = before.frames ∧
      Result before (start before emitter) := by
  have hmap : before.set.mapAt emitter = [] := by
    rw [SubscriberSetState.mapAt]
    rcases h : before.set.subscribers emitter with - | - | subscribers
    exacts [rfl, rfl, absurd h (hentry subscribers)]
  have hstart : before.startRetain emitter = before := by
    unfold Subscriptions.startRetain
    split
    · rename_i subscribers h
      exact absurd h (hentry subscribers)
    · rfl
  unfold start
  rw [hstart]
  refine ⟨rfl, ?_, ?_, rfl, fun p hp => ?_, ?_, fun e he => (List.append_nil _).symm⟩
  · exact (congrArg ids hmap).symm
  · dsimp only
    rw [hmap]
    exact .nil
  · simp at hp
  · dsimp only
    rw [hmap]
    rfl

theorem start_spec (hbefore : before.Tidy) (hframes : before.frames = []) (emitter : K) :
    Valid before (start before emitter) ∧ Faithful before (start before emitter) := by
  by_cases hentry : ∃ subscribers, before.set.subscribers emitter = some (some subscribers)
  · obtain ⟨subscribers, hentry⟩ := hentry
    obtain ⟨hstart, hinv⟩ := inv_start hbefore hframes hentry
    refine ⟨.inr ⟨_, hstart, hinv⟩, fun frame _ id hid => ?_, fun h => ?_⟩
    · simp [start] at hid
    · simp [hstart] at h
  · obtain ⟨hstart, hresult⟩ := result_start fun subscribers h => hentry ⟨subscribers, h⟩
    have hnil := hstart.trans hframes
    refine ⟨.inl hnil, fun frame h => ?_, fun _ => hresult⟩
    simp [hnil] at h

/-- The result of a call whose callbacks may insert for any emitter and drop what has returned or
was inserted: it is right exactly when no subscriber that is kept is dropped after an insertion
for the emitter. -/
theorem result_iff {history : List (SubscriptionAction K C)}
    (hhistory : Run Subscriptions.step (fun _ _ => True) Subscriptions.new history before)
    (hframes : before.frames = []) (emitter : K) {actions : List (SubscriptionAction K C)}
    (run : Run step Allowed (start before emitter) actions s)
    (hreturned : s.subscriptions.frames = []) :
    Result before s ↔
      Run step (fun s a => s.Allowed a ∧ s.Early a) (start before emitter) actions s := by
  have hbefore := Subscriptions.tidy_of_run hhistory
  obtain ⟨hvalid, hfaithful⟩ := start_spec hbefore hframes emitter
  have hiff := run.guarded_iff (C := Early) (Valid before) (Faithful before) hvalid hfaithful
    (fun s a s' hs hallowed hstep => ?_) fun s a s' hs hallowed hstep => ?_
  · rw [← hiff]
    unfold Faithful
    simp [hreturned]
  · rcases hs with hs | ⟨frame, hs, hinv⟩
    · exact absurd hs hallowed.1
    · rcases hinv.step hbefore hs hallowed hstep with ⟨frame', hs', hinv', -⟩ | ⟨hs', -⟩
      exacts [.inr ⟨frame', hs', hinv'⟩, .inl hs']
  · rcases hs with hs | ⟨frame, hs, hinv⟩
    · exact absurd hs hallowed.1
    · unfold Faithful
      rcases hinv.step hbefore hs hallowed hstep with ⟨frame', hs', -, hiff⟩ | ⟨hs', hiff⟩
      · simp [hs, hs', hiff]
      · simp [hs, hs', hiff]

instance (s : RetainRun K C) (emitter : K) (id : ℕ) : Decidable (s.Droppable emitter id) :=
  inferInstanceAs (Decidable (_ ∨ _))

instance (s : RetainRun K C) : (a : SubscriptionAction K C) → Decidable (s.Allowed a)
  | .drop id => inferInstanceAs (Decidable (s.subscriptions.frames ≠ [] ∧
      ∃ handle ∈ s.subscriptions.handles, handle.1 = id ∧ s.Droppable handle.2 id))
  | .detach _ | .remove _ | .retain _ => .isFalse fun h => h.2
  | .insert _ _ | .activate _ | .advance | .ret _ _ =>
    inferInstanceAs (Decidable (s.subscriptions.frames ≠ [] ∧ True))

instance (s : RetainRun K C) : (a : SubscriptionAction K C) → Decidable (s.Early a)
  | .drop id => decidable_of_iff ((id, true) ∈ s.returned → (s.insertedAt s.emitter).isEmpty)
      (imp_congr_right fun _ => List.isEmpty_iff)
  | .insert _ _ | .activate _ | .detach _ | .remove _ | .retain _ | .advance | .ret _ _ =>
    .isTrue trivial

/-- How to subscribe twice to one emitter. -/
def subscribeTwice : List (SubscriptionAction Bool Unit) :=
  [.insert false (), .activate 0, .insert false (), .activate 1]

/-- Two active subscribers of one emitter. -/
def twoSubscribers : Subscriptions Bool Unit :=
  (execute Subscriptions.step (fun _ _ => True) .new subscribeTwice).getD .new

/-- The second callback drops the first subscriber and then inserts one for each emitter. The one
for the emitter itself is dropped again, and the callback returns false. -/
theorem result_iff_twoSubscribers : ∃ s,
    Run step Allowed (start twoSubscribers false) [.advance, .ret true (), .advance, .drop 0,
      .insert false (), .insert true (), .activate 3, .drop 2, .ret false (), .advance] s ∧
    Result twoSubscribers s := by
  have history : Run Subscriptions.step (fun _ _ => True) .new subscribeTwice twoSubscribers :=
    .of_execute rfl
  have run : Run step (fun s a => s.Allowed a ∧ s.Early a) (start twoSubscribers false) [.advance,
    .ret true (), .advance, .drop 0, .insert false (), .insert true (), .activate 3, .drop 2,
    .ret false (), .advance] _ := .of_execute rfl
  have hallowed := run.imp fun s a h => h.1
  exact ⟨_, hallowed, (result_iff history rfl false hallowed rfl).mpr run⟩

/-- The second callback inserts a subscriber for the emitter and drops the first one afterwards,
which the call has kept: it is in the set when the call returns. -/
theorem not_result_twoSubscribers : ∃ s,
    Run Subscriptions.step (fun _ _ => True) .new subscribeTwice twoSubscribers ∧
      twoSubscribers.frames = [] ∧
      Run step Allowed (start twoSubscribers false) [.advance, .ret true (), .advance,
        .insert false (), .drop 0, .ret true (), .advance] s ∧
      s.subscriptions.frames = [] ∧ 0 ∈ s.dropped ∧
      (s.subscriptions.set.mapAt false).ids = [0, 1, 2] ∧ ¬ Result twoSubscribers s := by
  refine ⟨_, .of_execute rfl, rfl, .of_execute rfl, rfl, by decide, rfl, fun h => ?_⟩
  have hsubscribers : [0, 1, 2] = [1, 2] := h.subscribers
  simp at hsubscribers

end RetainRun

end Lucie
