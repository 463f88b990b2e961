import Lucie.Foundation.Run
import Mathlib.Logic.Function.Basic

/-!
# Subscriber sets

The set keeps the subscribers of every emitter by id. `retain` takes the map of one
emitter out, which leaves a hole, and calls its subscribers one after the other; the
callbacks may use the set in the meantime. The model is a small-step machine with a
stack of running `retain` calls, the innermost first, and the release build is
modelled: `debug_assert_eq!` does nothing. A callback is a plain value here; that it
owns a subscription itself is not modelled.
-/

set_option autoImplicit false

namespace Lucie

/-- Maps from subscriber ids, sorted by id. -/
abbrev Subscribers (C : Type) := List (ℕ × C)

namespace Subscribers

variable {C : Type}

def ids (m : Subscribers C) : List ℕ := m.map Prod.fst

/-- `BTreeMap::insert`. -/
def insert (id : ℕ) (c : C) : Subscribers C → Subscribers C
  | [] => [(id, c)]
  | (k, d) :: m =>
    if id < k then (id, c) :: (k, d) :: m
    else if id = k then (id, c) :: m
    else (k, d) :: insert id c m

/-- `BTreeMap::remove`. -/
def remove (id : ℕ) (m : Subscribers C) : Subscribers C := m.filter fun p => p.1 ≠ id

/-- `BTreeMap::extend`. -/
def extend (m : Subscribers C) : Subscribers C → Subscribers C
  | [] => m
  | (k, d) :: other => extend (m.insert k d) other

end Subscribers

/-- The state behind a subscriber set. The map of an emitter is `some none` while a
`retain` call has it. -/
structure SubscriberSetState (K C : Type) where
  subscribers : K → Option (Option (Subscribers C))
  droppedSubscribers : List (K × ℕ)
  nextSubscriberId : ℕ

namespace SubscriberSetState

variable {K C : Type} [DecidableEq K]

/-- `SubscriberSet::new`. -/
def new : SubscriberSetState K C := ⟨fun _ => none, [], 0⟩

/-- Replace the entry of one emitter. -/
def setEntry (s : SubscriberSetState K C) (emitter : K) (entry : Option (Option (Subscribers C))) :
    SubscriberSetState K C :=
  { s with subscribers := Function.update s.subscribers emitter entry }

/-- `SubscriberSet::insert`. The id of the new subscriber is `nextSubscriberId`. -/
def insert (s : SubscriberSetState K C) (emitter : K) (callback : C) : SubscriberSetState K C :=
  let subscribers := ((s.subscribers emitter).getD none).getD []
  { s.setEntry emitter (some (some (subscribers.insert s.nextSubscriberId callback))) with
    nextSubscriberId := s.nextSubscriberId + 1 }

/-- What the `Subscription` of a subscriber does when it is dropped. -/
def unsubscribe (s : SubscriberSetState K C) (emitter : K) (id : ℕ) : SubscriberSetState K C :=
  match s.subscribers emitter with
  | none => s
  | some (some subscribers) =>
    let subscribers := subscribers.remove id
    if subscribers.isEmpty then s.setEntry emitter none
    else s.setEntry emitter (some (some subscribers))
  | some none => { s with droppedSubscribers := (emitter, id) :: s.droppedSubscribers }

/-- `SubscriberSet::remove`. The subscribers go to the caller. -/
def remove (s : SubscriberSetState K C) (emitter : K) : SubscriberSetState K C × Subscribers C :=
  (s.setEntry emitter none, ((s.subscribers emitter).getD none).getD [])

/-- The end of `SubscriberSet::retain`, with the subscribers that its callbacks kept. -/
def finishRetain (s : SubscriberSetState K C) (emitter : K) (kept : Subscribers C) :
    SubscriberSetState K C :=
  let subscribers :=
    match s.subscribers emitter with
    | some (some new) => kept.extend new
    | _ => kept
  let subscribers := s.droppedSubscribers.foldl (fun m dropped => m.remove dropped.2) subscribers
  { s.setEntry emitter (if subscribers.isEmpty then none else some (some subscribers)) with
    droppedSubscribers := [] }

end SubscriberSetState

/-- A running `retain`: the subscribers that it has kept so far, the one whose callback
is running, and those that it has not reached. -/
structure RetainFrame (K C : Type) where
  emitter : K
  kept : Subscribers C
  running : Option (ℕ × C)
  rest : Subscribers C

/-- A subscriber set together with its users. -/
structure Subscriptions (K C : Type) where
  set : SubscriberSetState K C
  /-- The `active` cell of every subscriber. -/
  active : ℕ → Bool
  /-- The `Subscription` values that have not been dropped. -/
  handles : List (ℕ × K)
  frames : List (RetainFrame K C)

/-- What happens to a subscriber set. -/
inductive SubscriptionAction (K C : Type)
  | insert (emitter : K) (callback : C)
  /-- Call the activation function of a subscriber. -/
  | activate (id : ℕ)
  /-- Drop the `Subscription` of a subscriber. -/
  | drop (id : ℕ)
  /-- `Subscription::detach`. -/
  | detach (id : ℕ)
  | remove (emitter : K)
  | retain (emitter : K)
  /-- The innermost `retain` goes on to its next subscriber, or finishes. -/
  | advance
  /-- The running callback returns; it may have changed itself. -/
  | ret (keep : Bool) (callback : C)

namespace Subscriptions

variable {K C : Type} [DecidableEq K]

def new : Subscriptions K C := ⟨.new, fun _ => false, [], []⟩

/-- Users of the set run outside of `retain` and in its callbacks. -/
def userRuns (s : Subscriptions K C) : Bool :=
  match s.frames with
  | [] => true
  | frame :: _ => frame.running.isSome

/-- The callback that `retain` is about to invoke. -/
def invokes (s : Subscriptions K C) : Option ℕ :=
  match s.frames with
  | ⟨_, _, none, (id, _) :: _⟩ :: _ => if s.active id then some id else none
  | _ => none

/-- The start of `retain`: without subscribers to take it returns at once. -/
def startRetain (s : Subscriptions K C) (emitter : K) : Subscriptions K C :=
  match s.set.subscribers emitter with
  | some (some subscribers) =>
    { s with
      set := s.set.setEntry emitter (some none)
      frames := ⟨emitter, [], none, subscribers⟩ :: s.frames }
  | _ => s

/-- The innermost `retain` goes on. -/
def advance (s : Subscriptions K C) : Option (Subscriptions K C) :=
  match s.frames with
  | ⟨emitter, kept, none, (id, callback) :: rest⟩ :: frames =>
    if s.active id then
      some { s with frames := ⟨emitter, kept, some (id, callback), rest⟩ :: frames }
    else some { s with frames := ⟨emitter, kept ++ [(id, callback)], none, rest⟩ :: frames }
  | ⟨emitter, kept, none, []⟩ :: frames =>
    some { s with set := s.set.finishRetain emitter kept, frames }
  | _ => none

/-- The running callback returns. -/
def ret (s : Subscriptions K C) (keep : Bool) (callback : C) : Option (Subscriptions K C) :=
  match s.frames with
  | ⟨emitter, kept, some (id, _), rest⟩ :: frames =>
    some { s with
      frames := ⟨emitter, if keep then kept ++ [(id, callback)] else kept, none, rest⟩ :: frames }
  | _ => none

/-- One step. -/
def step (s : Subscriptions K C) : SubscriptionAction K C → Option (Subscriptions K C)
  | .insert emitter callback =>
    if s.userRuns then some { s with
      set := s.set.insert emitter callback
      active := Function.update s.active s.set.nextSubscriberId false
      handles := (s.set.nextSubscriberId, emitter) :: s.handles }
    else none
  | .activate id =>
    if s.userRuns && id < s.set.nextSubscriberId then
      some { s with active := Function.update s.active id true }
    else none
  | .drop id =>
    match s.userRuns, s.handles.find? fun handle => handle.1 = id with
    | true, some (_, emitter) => some { s with
        set := s.set.unsubscribe emitter id
        handles := s.handles.filter fun handle => handle.1 ≠ id }
    | _, _ => none
  | .detach id =>
    if s.userRuns then some { s with handles := s.handles.filter fun handle => handle.1 ≠ id }
    else none
  | .remove emitter =>
    if s.userRuns then some { s with set := (s.set.remove emitter).1 } else none
  | .retain emitter => if s.userRuns then some (s.startRetain emitter) else none
  | .advance => s.advance
  | .ret keep callback => s.ret keep callback

end Subscriptions

end Lucie
