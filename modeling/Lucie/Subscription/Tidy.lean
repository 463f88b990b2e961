import Lucie.Subscription.Cancel
import Mathlib.Data.List.Nodup

/-!
# The maps of a subscriber set

What every operation of a subscriber set does to the map of every emitter, and an invariant
of all runs: ids are handed out in increasing order, and every map and every running `retain`
has its subscribers in that order. The invariant is no promise about cancellations.
-/

set_option autoImplicit false

namespace Lucie

variable {K C : Type}

namespace Subscribers

/-- Increasing ids below a bound. -/
def Below (bound : ℕ) (ids : List ℕ) : Prop := ids.Pairwise (· < ·) ∧ ∀ id ∈ ids, id < bound

theorem below_nil (bound : ℕ) : Below bound [] := ⟨.nil, fun _ h => by simp at h⟩

theorem Below.mono {bound bound' : ℕ} {ids : List ℕ} (h : Below bound ids)
    (hbound : bound ≤ bound') : Below bound' ids :=
  ⟨h.1, fun id hid => Nat.lt_of_lt_of_le (h.2 id hid) hbound⟩

theorem Below.sublist {bound : ℕ} {ids ids' : List ℕ} (h : Below bound ids)
    (hsub : ids'.Sublist ids) : Below bound ids' :=
  ⟨h.1.sublist hsub, fun id hid => h.2 id (hsub.subset hid)⟩

theorem Below.nodup {bound : ℕ} {ids : List ℕ} (h : Below bound ids) : ids.Nodup :=
  h.1.imp Nat.ne_of_lt

/-- A new id keeps the others below. -/
theorem Below.snoc {bound : ℕ} {ids : List ℕ} (h : Below bound ids) :
    Below (bound + 1) (ids ++ [bound]) := by
  refine ⟨List.pairwise_append.mpr ⟨h.1, List.pairwise_singleton .., ?_⟩, ?_⟩
  · intro id hid id' hid'
    rw [List.mem_singleton.mp hid']
    exact h.2 id hid
  · intro id hid
    rcases List.mem_append.mp hid with hid | hid
    · have := h.2 id hid
      omega
    · have := List.mem_singleton.mp hid
      omega

theorem ids_append (m other : Subscribers C) : ids (m ++ other) = m.ids ++ other.ids :=
  List.map_append

theorem ids_remove (id : ℕ) (m : Subscribers C) : (m.remove id).ids = m.ids.filter (· ≠ id) := by
  rw [ids, ids, remove, List.filter_map]
  rfl

theorem ids_filter_not_mem (dropped : List ℕ) (m : Subscribers C) :
    ids (m.filter fun p => p.1 ∉ dropped) = m.ids.filter (· ∉ dropped) := by
  rw [ids, ids, List.filter_map]
  rfl

theorem remove_append (id : ℕ) (m other : Subscribers C) :
    remove id (m ++ other) = m.remove id ++ other.remove id :=
  List.filter_append ..

theorem remove_of_not_mem {id : ℕ} {m : Subscribers C} (h : id ∉ m.ids) : m.remove id = m := by
  refine List.filter_eq_self.mpr fun p hp => decide_eq_true ?_
  rintro rfl
  exact h (List.mem_map_of_mem hp)

/-- One more that is dropped. -/
theorem filter_not_mem_snoc {α : Type} (f : α → ℕ) (dropped : List ℕ) (id : ℕ) (l : List α) :
    (l.filter fun x => f x ∉ dropped ++ [id]) =
      (l.filter fun x => f x ∉ dropped).filter fun x => f x ≠ id := by
  rw [List.filter_filter]
  refine List.filter_congr fun x _ => ?_
  simp only [List.mem_append, List.mem_singleton, not_or, Bool.decide_and, Bool.and_comm]

theorem mem_ids_of_filter {p : ℕ × C → Bool} {m : Subscribers C} {id : ℕ}
    (h : id ∈ ids (m.filter p)) : id ∈ m.ids :=
  (List.filter_sublist.map _).subset h

/-- What is left when all that was dropped is removed. -/
theorem foldl_remove (dropped : List (K × ℕ)) (m : Subscribers C) :
    dropped.foldl (fun m d => m.remove d.2) m =
      m.filter fun p => p.1 ∉ dropped.map Prod.snd := by
  induction dropped generalizing m with
  | nil => simp
  | cons d dropped ih =>
    rw [List.foldl_cons, ih, remove, List.filter_filter]
    refine List.filter_congr fun p _ => ?_
    simp only [List.map_cons, List.mem_cons, not_or, Bool.decide_and, Bool.and_comm]

theorem pairwise_insert {id : ℕ} {c : C} {m : Subscribers C} (h : m.ids.Pairwise (· < ·)) :
    (m.insert id c).ids.Pairwise (· < ·) := by
  induction m with
  | nil => exact List.pairwise_singleton ..
  | cons p m ih =>
    obtain ⟨j, d⟩ := p
    obtain ⟨hj, hm⟩ := List.pairwise_cons.mp h
    simp only [insert]
    split_ifs with hlt heq
    · refine List.pairwise_cons.mpr ⟨fun k hk => ?_, h⟩
      rcases List.mem_cons.mp hk with rfl | hk
      exacts [hlt, Nat.lt_trans hlt (hj k hk)]
    · exact heq ▸ h
    · refine List.pairwise_cons.mpr ⟨fun k hk => ?_, ih hm⟩
      rcases (mem_ids_insert ..).mp hk with rfl | hk
      · dsimp only
        omega
      · exact hj k hk

theorem pairwise_extend {m other : Subscribers C} (h : m.ids.Pairwise (· < ·)) :
    (m.extend other).ids.Pairwise (· < ·) := by
  induction other generalizing m with
  | nil => exact h
  | cons p other ih => exact ih (pairwise_insert h)

/-- A greater id goes to the end. -/
theorem insert_of_lt {id : ℕ} {m : Subscribers C} (h : ∀ k ∈ m.ids, k < id) (c : C) :
    m.insert id c = m ++ [(id, c)] := by
  induction m with
  | nil => rfl
  | cons p m ih =>
    obtain ⟨j, d⟩ := p
    have hj : j < id := h j List.mem_cons_self
    rw [insert, if_neg (by omega), if_neg (by omega),
      ih fun k hk => h k (List.mem_cons_of_mem _ hk), List.cons_append]

theorem extend_of_pairwise {m other : Subscribers C}
    (h : (m.ids ++ other.ids).Pairwise (· < ·)) : m.extend other = m ++ other := by
  induction other generalizing m with
  | nil => simp [extend]
  | cons p other ih =>
    obtain ⟨j, d⟩ := p
    have hj : ∀ k ∈ m.ids, k < j := fun k hk =>
      (List.pairwise_append.mp h).2.2 k hk j List.mem_cons_self
    have hassoc : (ids (m ++ [(j, d)]) ++ ids other) = m.ids ++ ids ((j, d) :: other) := by
      simp [ids]
    rw [extend, insert_of_lt hj, ih (hassoc ▸ h), List.append_assoc, List.singleton_append]

end Subscribers

open Subscribers

namespace SubscriberSetState

/-- The live map of an emitter, empty where there is none. -/
def mapAt (s : SubscriberSetState K C) (emitter : K) : Subscribers C :=
  ((s.subscribers emitter).getD none).getD []

/-- A running `retain` has the map of an emitter, and it was not created anew. -/
def Hole (s : SubscriberSetState K C) (emitter : K) : Prop := s.subscribers emitter = some none

variable [DecidableEq K]

theorem subscribers_setEntry (s : SubscriberSetState K C) (emitter : K)
    (entry : Option (Option (Subscribers C))) (e : K) :
    (s.setEntry emitter entry).subscribers e = if e = emitter then entry else s.subscribers e :=
  Function.update_apply ..

theorem mapAt_setEntry (s : SubscriberSetState K C) (emitter : K)
    (entry : Option (Option (Subscribers C))) (e : K) :
    (s.setEntry emitter entry).mapAt e =
      if e = emitter then (entry.getD none).getD [] else s.mapAt e := by
  rw [mapAt, subscribers_setEntry]
  split_ifs <;> rfl

theorem hole_setEntry (s : SubscriberSetState K C) (emitter : K)
    (entry : Option (Option (Subscribers C))) (e : K) :
    (s.setEntry emitter entry).Hole e ↔ if e = emitter then entry = some none else s.Hole e := by
  rw [Hole, subscribers_setEntry]
  split_ifs <;> rfl

theorem mapAt_insert (s : SubscriberSetState K C) (emitter : K) (callback : C) (e : K) :
    (s.insert emitter callback).mapAt e =
      if e = emitter then (s.mapAt emitter).insert s.nextSubscriberId callback else s.mapAt e :=
  mapAt_setEntry s emitter _ e

theorem hole_insert (s : SubscriberSetState K C) (emitter : K) (callback : C) (e : K) :
    (s.insert emitter callback).Hole e ↔ e ≠ emitter ∧ s.Hole e := by
  refine (hole_setEntry s emitter _ e).trans ?_
  split_ifs with he <;> simp [he]

theorem mapAt_unsubscribe (s : SubscriberSetState K C) (emitter : K) (id : ℕ) (e : K) :
    (s.unsubscribe emitter id).mapAt e =
      if e = emitter then (s.mapAt emitter).remove id else s.mapAt e := by
  unfold unsubscribe
  split
  · rename_i hentry
    split_ifs with he
    · simp [he, mapAt, hentry, Subscribers.remove]
    · rfl
  · rename_i subscribers hentry
    have hmap : s.mapAt emitter = subscribers := by simp [mapAt, hentry]
    rw [hmap]
    dsimp only
    split_ifs with hempty he he
    · rw [mapAt_setEntry, if_pos he, List.isEmpty_iff.mp hempty]
      rfl
    · rw [mapAt_setEntry, if_neg he]
    · rw [mapAt_setEntry, if_pos he]
      rfl
    · rw [mapAt_setEntry, if_neg he]
  · rename_i hentry
    split_ifs with he
    · simp [he, mapAt, hentry, Subscribers.remove]
    · rfl

theorem hole_unsubscribe (s : SubscriberSetState K C) (emitter : K) (id : ℕ) (e : K) :
    (s.unsubscribe emitter id).Hole e ↔ s.Hole e := by
  unfold unsubscribe
  split
  · rfl
  · rename_i subscribers hentry
    have hlive : ¬ s.Hole emitter := by simp [Hole, hentry]
    dsimp only
    split_ifs
    all_goals
      rw [hole_setEntry]
      split_ifs with he
      · simpa [he] using hlive
      · rfl
  · rfl

/-- A drop is put on record when it meets a hole. -/
theorem droppedSubscribers_unsubscribe (s : SubscriberSetState K C) (emitter : K) (id : ℕ) :
    s.Hole emitter ∧
        (s.unsubscribe emitter id).droppedSubscribers = (emitter, id) :: s.droppedSubscribers ∨
      ¬ s.Hole emitter ∧
        (s.unsubscribe emitter id).droppedSubscribers = s.droppedSubscribers := by
  unfold unsubscribe
  split
  · rename_i hentry
    exact .inr ⟨by simp [Hole, hentry], rfl⟩
  · rename_i subscribers hentry
    refine .inr ⟨by simp [Hole, hentry], ?_⟩
    dsimp only
    split_ifs <;> rfl
  · rename_i hentry
    exact .inl ⟨hentry, rfl⟩

theorem nextSubscriberId_unsubscribe (s : SubscriberSetState K C) (emitter : K) (id : ℕ) :
    (s.unsubscribe emitter id).nextSubscriberId = s.nextSubscriberId := by
  unfold unsubscribe
  split
  · rfl
  · dsimp only
    split_ifs <;> rfl
  · rfl

/-- What is in the set when `retain` is done. -/
theorem finishRetain_eq (s : SubscriberSetState K C) (emitter : K) (kept : Subscribers C) :
    s.finishRetain emitter kept =
      let left := (kept.extend (s.mapAt emitter)).filter
        fun p => p.1 ∉ s.droppedSubscribers.map Prod.snd
      { s.setEntry emitter (if left.isEmpty then none else some (some left)) with
        droppedSubscribers := [] } := by
  simp only [← foldl_remove]
  rcases hentry : s.subscribers emitter with - | - | new <;>
    simp only [finishRetain, mapAt, hentry] <;> rfl

theorem mapAt_finishRetain (s : SubscriberSetState K C) (emitter : K) (kept : Subscribers C)
    (e : K) :
    (s.finishRetain emitter kept).mapAt e =
      if e = emitter then
        (kept.extend (s.mapAt emitter)).filter
          fun p => p.1 ∉ s.droppedSubscribers.map Prod.snd
      else s.mapAt e := by
  rw [finishRetain_eq]
  refine (mapAt_setEntry s emitter _ e).trans ?_
  split_ifs with he hempty
  · exact (List.isEmpty_iff.mp hempty).symm
  · rfl
  · rfl

theorem hole_finishRetain (s : SubscriberSetState K C) (emitter : K) (kept : Subscribers C)
    (e : K) : (s.finishRetain emitter kept).Hole e ↔ e ≠ emitter ∧ s.Hole e := by
  rw [finishRetain_eq]
  refine (hole_setEntry s emitter _ e).trans ?_
  split_ifs with he <;> simp [he]

end SubscriberSetState

/-- The ids in the hands of a running `retain`, in its order. -/
def RetainFrame.ids (frame : RetainFrame K C) : List ℕ :=
  frame.kept.ids ++ Subscribers.ids frame.running.toList ++ frame.rest.ids

namespace Subscriptions

/-- The invariant of all runs. -/
structure Tidy (s : Subscriptions K C) : Prop where
  handles : (s.set.nextSubscriberId :: s.handles.map Prod.fst).Pairwise (· > ·)
  live : ∀ emitter, Below s.set.nextSubscriberId (s.set.mapAt emitter).ids
  frames : ∀ frame ∈ s.frames, Below s.set.nextSubscriberId frame.ids
  hole : ∀ emitter, s.set.Hole emitter → ∃ frame ∈ s.frames, frame.emitter = emitter
  record : s.frames = [] → s.set.droppedSubscribers = []

theorem tidy_new : (new : Subscriptions K C).Tidy where
  handles := List.pairwise_singleton ..
  live _ := below_nil _
  frames _ h := by simp [new] at h
  hole _ h := by simp [SubscriberSetState.Hole, new, SubscriberSetState.new] at h
  record _ := rfl

variable [DecidableEq K] {s s' : Subscriptions K C}

omit [DecidableEq K] in
/-- An emitter has at most one `Subscription` for an id. -/
theorem Tidy.find_handle (htidy : s.Tidy) {id : ℕ} {emitter : K}
    (hhandle : (id, emitter) ∈ s.handles) :
    (s.handles.find? fun handle => handle.1 = id) = some (id, emitter) := by
  have hnodup : (s.handles.map Prod.fst).Nodup :=
    (List.pairwise_cons.mp htidy.handles).2.imp fun h => (Nat.ne_of_lt h).symm
  obtain ⟨handle, hfind⟩ := Option.isSome_iff_exists.mp
    (List.find?_isSome.mpr ⟨_, hhandle, decide_eq_true rfl⟩ :
      (s.handles.find? fun handle => handle.1 = id).isSome)
  have hid : handle.1 = id := by simpa using List.find?_some hfind
  rw [hfind, List.inj_on_of_nodup_map hnodup (List.mem_of_find?_eq_some hfind) hhandle hid]

/-! ## Every step keeps the order -/

theorem Tidy.insert (htidy : s.Tidy) (emitter : K) (callback : C) (active : ℕ → Bool) :
    Tidy { s with
      set := s.set.insert emitter callback
      active
      handles := (s.set.nextSubscriberId, emitter) :: s.handles } where
  handles := by
    refine List.pairwise_cons.mpr ⟨fun id hid => ?_, htidy.handles⟩
    rcases List.mem_cons.mp hid with rfl | hid
    · exact Nat.lt_succ_self _
    · exact Nat.lt_succ_of_lt ((List.pairwise_cons.mp htidy.handles).1 id hid)
  live e := by
    rw [SubscriberSetState.mapAt_insert]
    split_ifs
    · rw [insert_of_lt (htidy.live emitter).2, ids_append]
      exact (htidy.live emitter).snoc
    · exact (htidy.live e).mono (Nat.le_succ _)
  frames frame hframe := (htidy.frames frame hframe).mono (Nat.le_succ _)
  hole e h := htidy.hole e ((SubscriberSetState.hole_insert ..).mp h).2
  record := htidy.record

omit [DecidableEq K] in
theorem Tidy.activate (htidy : s.Tidy) (active : ℕ → Bool) : Tidy { s with active } :=
  ⟨htidy.handles, htidy.live, htidy.frames, htidy.hole, htidy.record⟩

omit [DecidableEq K] in
/-- Fewer `Subscription` values are fine. -/
theorem Tidy.detach (htidy : s.Tidy) (id : ℕ) :
    Tidy { s with handles := s.handles.filter fun handle => handle.1 ≠ id } where
  __ := htidy
  handles := htidy.handles.sublist (List.Sublist.cons_cons _ (List.filter_sublist.map _))

omit [DecidableEq K] in
/-- A smaller set is fine, if it records drops only for a running `retain`. -/
theorem Tidy.setSet (htidy : s.Tidy) {set : SubscriberSetState K C}
    (hnext : set.nextSubscriberId = s.set.nextSubscriberId)
    (hlive : ∀ emitter, (set.mapAt emitter).ids.Sublist (s.set.mapAt emitter).ids)
    (hhole : ∀ emitter, set.Hole emitter → s.set.Hole emitter)
    (hrecord : s.frames = [] → set.droppedSubscribers = []) : Tidy { s with set } where
  handles := by
    dsimp only
    rw [hnext]
    exact htidy.handles
  live emitter := by
    dsimp only
    rw [hnext]
    exact (htidy.live emitter).sublist (hlive emitter)
  frames := by
    dsimp only
    rw [hnext]
    exact htidy.frames
  hole emitter h := htidy.hole emitter (hhole emitter h)
  record := hrecord

theorem Tidy.unsubscribe (htidy : s.Tidy) (emitter : K) (id : ℕ) :
    Tidy { s with set := s.set.unsubscribe emitter id } := by
  refine htidy.setSet (SubscriberSetState.nextSubscriberId_unsubscribe ..) (fun e => ?_)
    (fun e h => (SubscriberSetState.hole_unsubscribe ..).mp h) fun hframes => ?_
  · rw [SubscriberSetState.mapAt_unsubscribe]
    split_ifs with he
    · rw [ids_remove, he]
      exact List.filter_sublist
    · exact List.Sublist.refl _
  · rcases s.set.droppedSubscribers_unsubscribe emitter id with ⟨hhole, -⟩ | ⟨-, hsame⟩
    · obtain ⟨frame, hframe, -⟩ := htidy.hole emitter hhole
      simp [hframes] at hframe
    · rw [hsame, htidy.record hframes]

theorem Tidy.remove (htidy : s.Tidy) (emitter : K) :
    Tidy { s with set := (s.set.remove emitter).1 } := by
  refine htidy.setSet rfl (fun e => ?_) (fun e h => ?_) htidy.record
  · rw [SubscriberSetState.remove, SubscriberSetState.mapAt_setEntry]
    split_ifs
    exacts [List.nil_sublist _, List.Sublist.refl _]
  · rw [SubscriberSetState.remove, SubscriberSetState.hole_setEntry] at h
    split_ifs at h
    exact h

theorem Tidy.startRetain (htidy : s.Tidy) (emitter : K) : (s.startRetain emitter).Tidy := by
  unfold Subscriptions.startRetain
  split
  · rename_i subscribers hentry
    have hmap : s.set.mapAt emitter = subscribers := by simp [SubscriberSetState.mapAt, hentry]
    refine ⟨htidy.handles, fun e => ?_, fun frame hframe => ?_, fun e h => ?_, fun h => ?_⟩
    · rw [SubscriberSetState.mapAt_setEntry]
      split_ifs
      exacts [below_nil _, htidy.live e]
    · rcases List.mem_cons.mp hframe with rfl | hframe
      · have hlive := htidy.live emitter
        rw [hmap] at hlive
        exact hlive
      · exact htidy.frames frame hframe
    · rw [SubscriberSetState.hole_setEntry] at h
      split_ifs at h with he
      · exact ⟨_, List.mem_cons_self, he.symm⟩
      · obtain ⟨frame, hframe, hemitter⟩ := htidy.hole e h
        exact ⟨frame, List.mem_cons_of_mem _ hframe, hemitter⟩
    · simp at h
  · exact htidy

omit [DecidableEq K] in
/-- The innermost `retain` goes on with some of the subscribers that it has. -/
theorem Tidy.setFrame (htidy : s.Tidy) {frame frame' : RetainFrame K C}
    {frames : List (RetainFrame K C)} (hframes : s.frames = frame :: frames)
    (hemitter : frame'.emitter = frame.emitter) (hids : frame'.ids.Sublist frame.ids) :
    Tidy { s with frames := frame' :: frames } where
  handles := htidy.handles
  live := htidy.live
  frames other hother := by
    rcases List.mem_cons.mp hother with rfl | hother
    · exact (htidy.frames frame (hframes ▸ List.mem_cons_self)).sublist hids
    · exact htidy.frames other (hframes ▸ List.mem_cons_of_mem _ hother)
  hole e h := by
    obtain ⟨other, hother, he⟩ := htidy.hole e h
    rw [hframes] at hother
    rcases List.mem_cons.mp hother with rfl | hother
    · exact ⟨_, List.mem_cons_self, hemitter.trans he⟩
    · exact ⟨other, List.mem_cons_of_mem _ hother, he⟩
  record h := by simp at h

theorem Tidy.finish (htidy : s.Tidy) {emitter : K} {kept : Subscribers C}
    {frames : List (RetainFrame K C)}
    (hframes : s.frames = ⟨emitter, kept, none, []⟩ :: frames) :
    Tidy { s with set := s.set.finishRetain emitter kept, frames } := by
  have hkept : Below s.set.nextSubscriberId kept.ids := by
    simpa [RetainFrame.ids, Subscribers.ids] using
      htidy.frames ⟨emitter, kept, none, []⟩ (hframes ▸ List.mem_cons_self)
  refine ⟨?_, fun e => ?_, fun frame hframe => ?_, fun e h => ?_, fun _ => ?_⟩
  · rw [SubscriberSetState.finishRetain_eq]
    exact htidy.handles
  · have hnext : (s.set.finishRetain emitter kept).nextSubscriberId = s.set.nextSubscriberId := by
      rw [SubscriberSetState.finishRetain_eq]
      rfl
    dsimp only
    rw [SubscriberSetState.mapAt_finishRetain, hnext]
    split_ifs
    · have hextend : Below s.set.nextSubscriberId (kept.extend (s.set.mapAt emitter)).ids := by
        refine ⟨pairwise_extend hkept.1, fun id hid => ?_⟩
        rcases (mem_ids_extend ..).mp hid with hid | hid
        exacts [hkept.2 id hid, (htidy.live emitter).2 id hid]
      exact hextend.sublist (List.filter_sublist.map _)
    · exact htidy.live e
  · rw [SubscriberSetState.finishRetain_eq]
    exact htidy.frames frame (hframes ▸ List.mem_cons_of_mem _ hframe)
  · obtain ⟨hne, h⟩ := (SubscriberSetState.hole_finishRetain ..).mp h
    obtain ⟨frame, hframe, he⟩ := htidy.hole e h
    rw [hframes] at hframe
    rcases List.mem_cons.mp hframe with rfl | hframe
    exacts [absurd he.symm hne, ⟨frame, hframe, he⟩]
  · rw [SubscriberSetState.finishRetain_eq]

theorem Tidy.advance (htidy : s.Tidy) (h : s.advance = some s') : s'.Tidy := by
  unfold Subscriptions.advance at h
  split at h
  · rename_i emitter kept id callback rest frames hframes
    split_ifs at h
    all_goals
      obtain rfl := Option.some.inj h
      refine htidy.setFrame hframes rfl ?_
      simp [RetainFrame.ids, Subscribers.ids]
  · rename_i emitter kept frames hframes
    obtain rfl := Option.some.inj h
    exact htidy.finish hframes
  · cases h

omit [DecidableEq K] in
theorem Tidy.ret (htidy : s.Tidy) {keep : Bool} {callback : C}
    (h : s.ret keep callback = some s') : s'.Tidy := by
  unfold Subscriptions.ret at h
  split at h
  · rename_i emitter kept id _ rest frames hframes
    obtain rfl := Option.some.inj h
    refine htidy.setFrame hframes rfl ?_
    cases keep <;> simp [RetainFrame.ids, Subscribers.ids]
  · cases h

theorem Tidy.step (htidy : s.Tidy) {a : SubscriptionAction K C} (h : s.step a = some s') :
    s'.Tidy := by
  cases a with
  | insert emitter callback =>
    simp only [Subscriptions.step] at h
    split_ifs at h
    exact Option.some.inj h ▸ htidy.insert emitter callback _
  | activate id =>
    simp only [Subscriptions.step] at h
    split_ifs at h
    exact Option.some.inj h ▸ htidy.activate _
  | drop id =>
    simp only [Subscriptions.step] at h
    split at h
    · rename_i _ emitter _ _
      exact Option.some.inj h ▸ (htidy.unsubscribe emitter id).detach id
    · cases h
  | detach id =>
    simp only [Subscriptions.step] at h
    split_ifs at h
    exact Option.some.inj h ▸ htidy.detach id
  | remove emitter =>
    simp only [Subscriptions.step] at h
    split_ifs at h
    exact Option.some.inj h ▸ htidy.remove emitter
  | retain emitter =>
    simp only [Subscriptions.step] at h
    split_ifs at h
    exact Option.some.inj h ▸ htidy.startRetain emitter
  | advance => exact htidy.advance h
  | ret keep callback => exact htidy.ret h

/-- Every run keeps the order. -/
theorem tidy_of_run {guard : Subscriptions K C → SubscriptionAction K C → Prop}
    {actions : List (SubscriptionAction K C)} (run : Foundation.Run step guard new actions s) :
    s.Tidy :=
  run.invariant (fun _ s => s.Tidy) tidy_new fun _ _ _ _ htidy _ h => htidy.step h

end Subscriptions

end Lucie
