import Lucie.Foundation.Exact
import Lucie.Queue.PriorityQueue

/-!
# Waiting for an item

A receiver tests once, with the lock in its hands, whether the queues are empty and the sender is
gone. Then it waits as long as the queues are empty. Each item that is sent wakes one receiver that
waits. The drop of the sender wakes none, so a receiver that waits then waits for good.
-/

set_option autoImplicit false

namespace Lucie

open Foundation

/-- Where a receiver is, which pops with or without blocking. -/
inductive ReceiverPlace
  | idle
  /-- It holds the lock, and has not loaded the number of senders yet. -/
  | locked (block : Bool)
  /-- It holds the lock, and the test for a dropped sender is behind it. -/
  | tested (block : Bool)
  | waiting
  /-- It was notified, and does not have the lock again. -/
  | woken
  | dropped
  deriving DecidableEq

/-- A queue that is shared by its sender and the receivers. Of the sends those are kept that have
loaded the number of receivers and not pushed their item. -/
structure SharedQueue (T : Type) where
  state : PriorityQueueState T
  lock : Option ℕ
  receivers : List ReceiverPlace
  sends : List (TaskPriority × T)

/-- A step of the sender or of a receiver. -/
inductive SharedAction (T : Type)
  | startSend (priority : TaskPriority) (item : T)
  /-- The send gets the lock and notifies a receiver. -/
  | push (send waiter : ℕ)
  | dropSender
  | cloneReceiver (receiver : ℕ)
  | dropReceiver (receiver : ℕ)
  | lock (receiver : ℕ) (block : Bool)
  /-- The test whether the queues are empty and the sender is gone. -/
  | test (receiver : ℕ)
  /-- The receiver finds the queues empty. -/
  | wait (receiver : ℕ)
  /-- The receiver finds an item. -/
  | pop (receiver : ℕ) (flipNormal flipLow : Draw)
  | wakeUp (receiver : ℕ)

variable {T : Type}

namespace SharedQueue

/-- `PriorityQueueReceiver::new`. -/
def new : SharedQueue T := ⟨.new, none, [.idle], []⟩

/-- A receiver gets to another place. -/
def move (s : SharedQueue T) (receiver : ℕ) (place : ReceiverPlace) : SharedQueue T :=
  { s with receivers := s.receivers.set receiver place }

/-- `Condvar::notify_one`, which wakes some receiver that waits if there is one. -/
def notifyOne (s : SharedQueue T) (waiter : ℕ) : Option (SharedQueue T) :=
  if s.receivers[waiter]? = some .waiting then some (s.move waiter .woken)
  else if .waiting ∈ s.receivers then none
  else some s

/-- One step, if the receiver is where the step begins and a lock that it takes is free. -/
def step (s : SharedQueue T) : SharedAction T → Option (SharedQueue T)
  | .startSend priority item =>
    if s.state.senderCount = 0 then none
    else if s.state.receiverCount = 0 then some s
    else some { s with sends := s.sends ++ [(priority, item)] }
  | .push send waiter =>
    match s.sends[send]?, s.lock with
    | some (priority, item), none =>
      notifyOne { s with
        state := { s.state with
          queues := s.state.queues.setQueue priority (s.state.queues.queue priority ++ [item]) }
        sends := s.sends.eraseIdx send } waiter
    | _, _ => none
  | .dropSender =>
    -- a send borrows the sender
    if s.state.senderCount = 0 ∨ s.sends ≠ [] then none
    else some { s with state := { s.state with senderCount := s.state.senderCount - 1 } }
  | .cloneReceiver receiver =>
    if s.receivers[receiver]? = some .idle then
      some { s with
        state := { s.state with receiverCount := s.state.receiverCount + 1 }
        receivers := s.receivers ++ [.idle] }
    else none
  | .dropReceiver receiver =>
    if s.receivers[receiver]? = some .idle then
      some ({ s with state := { s.state with receiverCount := s.state.receiverCount - 1 } }.move
        receiver .dropped)
    else none
  | .lock receiver block =>
    if s.receivers[receiver]? = some .idle ∧ s.lock = none then
      some ({ s with lock := some receiver }.move receiver (.locked block))
    else none
  | .test receiver =>
    match s.receivers[receiver]? with
    | some (.locked block) =>
      if s.state.queues.isEmpty ∧ s.state.senderCount = 0 then
        some ({ s with lock := none }.move receiver .idle)
      else some (s.move receiver (.tested block))
    | _ => none
  | .wait receiver =>
    match s.receivers[receiver]? with
    | some (.tested block) =>
      if s.state.queues.isEmpty then
        some ({ s with lock := none }.move receiver (if block then .waiting else .idle))
      else none
    | _ => none
  | .pop receiver flipNormal flipLow =>
    match s.receivers[receiver]? with
    | some (.tested _) =>
      if s.state.queues.isEmpty then none
      else some ({ s with
        state := (s.state.popLocked s.state.queues flipNormal flipLow).2
        lock := none }.move receiver .idle)
    | _ => none
  | .wakeUp receiver =>
    if s.receivers[receiver]? = some .woken ∧ s.lock = none then
      some ({ s with lock := some receiver }.move receiver (.tested true))
    else none

/-- The receiver will look at the queues before it waits. -/
def willLook : ReceiverPlace → Bool
  | .woken | .tested _ => true
  | _ => false

/-- No receiver waits for a sender that is gone, or next to an item that nobody was notified of. -/
structure NoneStranded (s : SharedQueue T) : Prop where
  disconnected : ReceiverPlace.waiting ∈ s.receivers → s.state.queues.isEmpty →
    s.state.senderCount ≠ 0 ∨ .woken ∈ s.receivers
  unread : ReceiverPlace.waiting ∈ s.receivers → s.state.queues.isEmpty = false →
    ∃ place ∈ s.receivers, willLook place

/-- The sender is not dropped while a receiver waits, and none begins to wait after that. -/
def InTime (s : SharedQueue T) : SharedAction T → Prop
  | .dropSender => ReceiverPlace.waiting ∉ s.receivers
  | .wait receiver => s.receivers[receiver]? = some (.tested true) → s.state.senderCount ≠ 0
  | _ => True

/-! ## The places of the receivers -/

variable {s s' : SharedQueue T}

/-- The number of receivers that wait. -/
def waiters (s : SharedQueue T) : ℕ := s.receivers.countP (· = .waiting)

/-- The number of receivers that will look at the queues. -/
def lookers (s : SharedQueue T) : ℕ := s.receivers.countP willLook

theorem waiters_pos : 0 < s.waiters ↔ .waiting ∈ s.receivers := by
  simp [waiters, List.countP_pos_iff]

theorem lookers_pos : 0 < s.lookers ↔ ∃ place ∈ s.receivers, willLook place :=
  List.countP_pos_iff

theorem countP_set (P : ReceiverPlace → Bool) {places : List ReceiverPlace} {receiver : ℕ}
    {place : ReceiverPlace} (h : places[receiver]? = some place) (place' : ReceiverPlace) :
    (places.set receiver place').countP P + (P place).toNat =
      places.countP P + (P place').toNat := by
  obtain ⟨hlt, hget⟩ := List.getElem?_eq_some_iff.mp h
  rw [List.countP_set hlt, hget]
  cases hP : P place with
  | false => cases P place' <;> simp
  | true =>
    have hpos : 0 < places.countP P :=
      List.countP_pos_iff.mpr ⟨place, List.mem_of_getElem? h, hP⟩
    cases P place'
    all_goals
      simp only [reduceIte, Bool.false_eq_true, Bool.toNat_true, Bool.toNat_false]
      omega

theorem size_push (queues : PriorityQueues T) (priority : TaskPriority) (item : T) :
    (queues.setQueue priority (queues.queue priority ++ [item])).size = queues.size + 1 := by
  cases priority
  all_goals
    simp only [PriorityQueues.setQueue, PriorityQueues.queue, PriorityQueues.size,
      List.length_append, List.length_singleton]
    omega

theorem size_popLocked (h : s.state.queues.isEmpty = false) (flipNormal flipLow : Draw) :
    (s.state.popLocked s.state.queues flipNormal flipLow).2.queues.size + 1 =
      s.state.queues.size := by
  obtain ⟨priority, item, rest, hqueue, hchoose⟩ :=
    PriorityQueues.choose_eq h flipNormal flipLow
  rw [PriorityQueueState.popLocked, hchoose]
  exact QueueRun.size_setQueue hqueue

/-! ## The steps of a receiver -/

/-- The receiver that gets to another place in a step. -/
def mover : SharedAction T → Option ℕ
  | .dropReceiver receiver | .lock receiver _ | .test receiver | .wait receiver
  | .pop receiver _ _ | .wakeUp receiver => some receiver
  | _ => none

/-- A receiver that did not wait gets from one place to another. The queues are empty after that,
or change by no more than the receiver accounts for. -/
structure Moved (s s' : SharedQueue T) (receiver : ℕ) (old new : ReceiverPlace) : Prop where
  receivers : s'.receivers = s.receivers.set receiver new
  place : s.receivers[receiver]? = some old
  notWaiting : old ≠ .waiting
  senderCount : s'.state.senderCount = s.state.senderCount
  sends : s'.sends = s.sends
  size : s'.state.queues.size = 0 ∨ s'.state.queues.size + (willLook old).toNat ≤
    s.state.queues.size + (willLook new).toNat

/-- Only in a wait, and with empty queues, a receiver begins to wait. -/
theorem moved_of_step {a : SharedAction T} {receiver : ℕ} (ha : mover a = some receiver)
    (hstep : s.step a = some s') :
    ∃ place place', s.Moved s' receiver place place' ∧
      (place' = .waiting →
        a = .wait receiver ∧ place = .tested true ∧ s'.state.queues.size = 0) := by
  cases a with
  | startSend priority item | push send waiter | dropSender | cloneReceiver other => cases ha
  | dropReceiver other =>
    obtain rfl : other = receiver := Option.some.inj ha
    simp only [step] at hstep
    split_ifs at hstep with hplace
    cases hstep
    exact ⟨_, _, ⟨rfl, hplace, nofun, rfl, rfl, .inr le_rfl⟩, nofun⟩
  | lock other block | wakeUp other =>
    obtain rfl : other = receiver := Option.some.inj ha
    simp only [step] at hstep
    split_ifs at hstep with hplace
    cases hstep
    exact ⟨_, _, ⟨rfl, hplace.1, nofun, rfl, rfl, .inr le_rfl⟩, nofun⟩
  | test other =>
    obtain rfl : other = receiver := Option.some.inj ha
    simp only [step] at hstep
    split at hstep
    next block hplace =>
      split_ifs at hstep <;> cases hstep
      · exact ⟨_, _, ⟨rfl, hplace, nofun, rfl, rfl, .inr le_rfl⟩, nofun⟩
      · exact ⟨_, _, ⟨rfl, hplace, nofun, rfl, rfl, .inr (Nat.le_succ _)⟩, nofun⟩
    next => cases hstep
  | wait other =>
    obtain rfl : other = receiver := Option.some.inj ha
    simp only [step] at hstep
    split at hstep
    next block hplace =>
      split_ifs at hstep with hempty hblock
      all_goals
        cases hstep
        rw [PriorityQueues.isEmpty_iff] at hempty
      · obtain rfl : block = true := hblock
        exact ⟨_, _, ⟨rfl, hplace, nofun, rfl, rfl, .inl hempty⟩, fun _ => ⟨rfl, rfl, hempty⟩⟩
      · exact ⟨_, _, ⟨rfl, hplace, nofun, rfl, rfl, .inl hempty⟩, nofun⟩
    next => cases hstep
  | pop other flipNormal flipLow =>
    -- the receiver that looked takes an item
    obtain rfl : other = receiver := Option.some.inj ha
    simp only [step] at hstep
    split at hstep
    next block hplace =>
      split_ifs at hstep with hempty
      have hsize := size_popLocked (Bool.eq_false_iff.mpr hempty) flipNormal flipLow
      cases hstep
      refine ⟨_, .idle, ⟨rfl, hplace, nofun, rfl, rfl, .inr ?_⟩, nofun⟩
      simp only [move, willLook, Bool.toNat_true, Bool.toNat_false]
      omega
    next => cases hstep

/-- A receiver that waits is not the one that gets to another place. -/
theorem Moved.waiting {receiver other : ℕ} {place place' : ReceiverPlace}
    (h : s.Moved s' other place place') (hwaiting : s.receivers[receiver]? = some .waiting) :
    s'.receivers[receiver]? = some .waiting := by
  have hother : other ≠ receiver := by
    rintro rfl
    exact h.notWaiting (Option.some.inj (h.place.symm.trans hwaiting))
  rw [h.receivers, List.getElem?_set_ne hother]
  exact hwaiting

/-! ## What a step keeps -/

/-- While a receiver waits, others will look at all items, and it waits for a sender. -/
structure Awaited (s : SharedQueue T) : Prop where
  items : 0 < s.waiters → s.state.queues.size ≤ s.lookers
  sender : 0 < s.waiters → s.state.senderCount ≠ 0

theorem awaited_new : (new : SharedQueue T).Awaited := by
  constructor <;> simp [new, waiters]

theorem Awaited.noneStranded (h : s.Awaited) : s.NoneStranded where
  disconnected hwaiting _ := .inl (h.sender (waiters_pos.mpr hwaiting))
  unread hwaiting hitem := by
    rw [← lookers_pos]
    have hitems := h.items (waiters_pos.mpr hwaiting)
    have hsize : s.state.queues.size ≠ 0 := by
      rw [Ne, ← PriorityQueues.isEmpty_iff, hitem]
      exact Bool.false_ne_true
    omega

/-- A notification is lost only if no receiver waits. -/
theorem notifyOne_cases {waiter : ℕ} (h : s.notifyOne waiter = some s') :
    s.receivers[waiter]? = some .waiting ∧ s' = s.move waiter .woken ∨
      s.waiters = 0 ∧ s' = s := by
  unfold notifyOne at h
  split_ifs at h with hwaiting hnone
  · exact .inl ⟨hwaiting, (Option.some.inj h).symm⟩
  · rw [← waiters_pos] at hnone
    exact .inr ⟨by omega, (Option.some.inj h).symm⟩

/-- A receiver gets to another place, and the queues change by no more than it accounts for. -/
theorem Awaited.of_set (h : s.Awaited) {receiver : ℕ} {place place' : ReceiverPlace}
    (hreceivers : s'.receivers = s.receivers.set receiver place')
    (hcount : s'.state.senderCount = s.state.senderCount)
    (hplace : s.receivers[receiver]? = some place)
    (hsize : s'.state.queues.size = 0 ∨ s'.state.queues.size + (willLook place).toNat ≤
      s.state.queues.size + (willLook place').toNat)
    (hwait : place' = .waiting → s'.state.queues.size = 0 ∧ s.state.senderCount ≠ 0) :
    s'.Awaited := by
  obtain ⟨hitems, hsender⟩ := h
  have hwaiters : s'.waiters + (decide (place = .waiting)).toNat =
      s.waiters + (decide (place' = .waiting)).toNat := by
    rw [waiters, hreceivers]
    exact countP_set _ hplace place'
  have hlookers : s'.lookers + (willLook place).toNat = s.lookers + (willLook place').toNat := by
    rw [lookers, hreceivers]
    exact countP_set _ hplace place'
  by_cases hwaiting : place' = .waiting
  · obtain ⟨hempty, hthere⟩ := hwait hwaiting
    exact ⟨fun _ => by omega, fun _ => by omega⟩
  · -- a receiver that waits now has waited before
    rw [decide_eq_false hwaiting, Bool.toNat_false] at hwaiters
    constructor
    · intro hpos
      have hbefore := hitems (by omega)
      omega
    · intro hpos
      have hbefore := hsender (by omega)
      omega

/-- A push brings an item, and wakes a receiver that waits. -/
theorem Awaited.push (h : s.Awaited) {send waiter : ℕ}
    (hstep : s.step (.push send waiter) = some s') : s'.Awaited := by
  simp only [step] at hstep
  split at hstep
  next priority item hsend hlock =>
    have hsize := size_push s.state.queues priority item
    obtain ⟨hwaiting, rfl⟩ | ⟨hnone, rfl⟩ := notifyOne_cases hstep
    · refine h.of_set rfl rfl hwaiting (.inr ?_) nofun
      simp only [move, willLook, Bool.toNat_true, Bool.toNat_false]
      omega
    · have hnone : s.waiters = 0 := hnone
      constructor
      all_goals
        intro hpos
        simp only [waiters] at hpos hnone
        omega
  next => cases hstep

/-- What a receiver does keeps that all items are looked for. -/
theorem Awaited.moved (h : s.Awaited) {a : SharedAction T} {receiver : ℕ}
    (ha : mover a = some receiver) (hin : s.InTime a) (hstep : s.step a = some s') :
    s'.Awaited := by
  obtain ⟨place, place', hmoved, hwait⟩ := moved_of_step ha hstep
  refine h.of_set hmoved.receivers hmoved.senderCount hmoved.place hmoved.size fun hwaiting => ?_
  obtain ⟨rfl, rfl, hempty⟩ := hwait hwaiting
  exact ⟨hempty, hin hmoved.place⟩

/-- A step in time keeps that all items are looked for. -/
theorem Awaited.step (h : s.Awaited) {a : SharedAction T} (hin : s.InTime a)
    (hstep : s.step a = some s') : s'.Awaited := by
  cases a with
  | startSend priority item =>
    simp only [SharedQueue.step] at hstep
    split_ifs at hstep <;> cases hstep
    · exact h
    · exact ⟨h.items, h.sender⟩
  | push send waiter => exact h.push hstep
  | dropSender =>
    simp only [SharedQueue.step] at hstep
    split_ifs at hstep
    cases hstep
    exact ⟨h.items, fun hpos => absurd (waiters_pos.mp hpos) hin⟩
  | cloneReceiver receiver =>
    simp only [SharedQueue.step] at hstep
    split_ifs at hstep
    cases hstep
    constructor
    · simpa [waiters, lookers, willLook] using h.items
    · simpa [waiters] using h.sender
  | dropReceiver receiver | lock receiver block | test receiver | wait receiver
  | pop receiver flipNormal flipLow | wakeUp receiver => exact h.moved rfl hin hstep

/-! ## Waiting for good -/

/-- The sender is gone, and no send is left that borrowed it. -/
structure Disconnected (s : SharedQueue T) : Prop where
  sender : s.state.senderCount = 0
  sends : s.sends = []

/-- Without a sender nobody is notified. -/
theorem Disconnected.step (h : s.Disconnected) {receiver : ℕ}
    (hwaiting : s.receivers[receiver]? = some .waiting) {a : SharedAction T}
    (hstep : s.step a = some s') :
    s'.Disconnected ∧ s'.receivers[receiver]? = some .waiting := by
  obtain ⟨hsender, hsends⟩ := h
  cases a with
  | startSend priority item => simp [SharedQueue.step, hsender] at hstep
  | push send waiter => simp [SharedQueue.step, hsends] at hstep
  | dropSender => simp [SharedQueue.step, hsender] at hstep
  | cloneReceiver other =>
    simp only [SharedQueue.step] at hstep
    split_ifs at hstep
    cases hstep
    refine ⟨⟨hsender, hsends⟩, ?_⟩
    rw [List.getElem?_append_left (List.getElem?_eq_some_iff.mp hwaiting).1]
    exact hwaiting
  | dropReceiver other | lock other block | test other | wait other
  | pop other flipNormal flipLow | wakeUp other =>
    obtain ⟨place, place', hmoved, -⟩ := moved_of_step rfl hstep
    exact ⟨⟨hmoved.senderCount.trans hsender, hmoved.sends.trans hsends⟩, hmoved.waiting hwaiting⟩

/-- Such a receiver waits in all later states. -/
theorem Disconnected.waits (h : s.Disconnected) {receiver : ℕ}
    (hwaiting : s.receivers[receiver]? = some .waiting) (later : List (SharedAction T)) :
    AllStates SharedQueue.step (fun t => t.receivers[receiver]? = some .waiting) s later := by
  induction later generalizing s with
  | nil => exact hwaiting
  | cons a later ih =>
    refine ⟨hwaiting, fun s' hstep => ?_⟩
    obtain ⟨h', hwaiting'⟩ := h.step hwaiting hstep
    exact ih h' hwaiting'

/-- There is one sender, and a send borrows it. -/
structure Borrowed (s : SharedQueue T) : Prop where
  count : s.state.senderCount ≤ 1
  sends : s.state.senderCount = 0 → s.sends = []

theorem borrowed_new : (new : SharedQueue T).Borrowed := ⟨le_rfl, fun _ => rfl⟩

theorem Borrowed.step (h : s.Borrowed) {a : SharedAction T} (hstep : s.step a = some s') :
    s'.Borrowed := by
  obtain ⟨hcount, hsends⟩ := h
  cases a with
  | startSend priority item =>
    simp only [SharedQueue.step] at hstep
    split_ifs at hstep with hsender <;> cases hstep
    · exact ⟨hcount, hsends⟩
    · exact ⟨hcount, fun hgone => absurd hgone hsender⟩
  | push send waiter =>
    simp only [SharedQueue.step] at hstep
    split at hstep
    next priority item hsend hlock =>
      have hnone : s.state.senderCount = 0 → s.sends.eraseIdx send = [] := fun hgone => by
        rw [hsends hgone, List.eraseIdx_nil]
      obtain ⟨-, rfl⟩ | ⟨-, rfl⟩ := notifyOne_cases hstep
      · exact ⟨hcount, hnone⟩
      · exact ⟨hcount, hnone⟩
    next => cases hstep
  | dropSender =>
    simp only [SharedQueue.step] at hstep
    split_ifs at hstep with hborrowed
    cases hstep
    rw [not_or, not_not] at hborrowed
    exact ⟨by simp only; omega, fun _ => hborrowed.2⟩
  | cloneReceiver receiver =>
    simp only [SharedQueue.step] at hstep
    split_ifs at hstep
    cases hstep
    exact ⟨hcount, hsends⟩
  | dropReceiver receiver | lock receiver block | test receiver | wait receiver
  | pop receiver flipNormal flipLow | wakeUp receiver =>
    obtain ⟨place, place', hmoved, -⟩ := moved_of_step rfl hstep
    rw [← hmoved.senderCount] at hcount hsends
    exact ⟨hcount, fun hgone => hmoved.sends.trans (hsends hgone)⟩

/-- A step that is late leaves a receiver waiting without a sender. -/
theorem Borrowed.late (h : s.Borrowed) {a : SharedAction T} (hlate : ¬s.InTime a)
    (hstep : s.step a = some s') :
    s'.Disconnected ∧ ∃ receiver : ℕ, s'.receivers[receiver]? = some ReceiverPlace.waiting := by
  cases a with
  | dropSender =>
    simp only [SharedQueue.step] at hstep
    split_ifs at hstep with hborrowed
    cases hstep
    rw [not_or, not_not] at hborrowed
    obtain ⟨receiver, hwaiting⟩ := List.mem_iff_getElem?.mp (not_not.mp hlate)
    have hcount := h.count
    exact ⟨⟨by simp only; omega, hborrowed.2⟩, receiver, hwaiting⟩
  | wait receiver =>
    simp only [InTime, Classical.not_imp, not_not] at hlate
    obtain ⟨hplace, hgone⟩ := hlate
    simp only [SharedQueue.step, hplace] at hstep
    split_ifs at hstep
    cases hstep
    refine ⟨⟨hgone, h.sends hgone⟩, receiver, ?_⟩
    exact List.getElem?_set_self (List.getElem?_eq_some_iff.mp hplace).1
  | _ => exact absurd trivial hlate

/-- If the sender is not dropped while a receiver waits, and no receiver begins to wait after that,
no receiver is ever stranded. After any other drop or wait a receiver waits for good. -/
theorem noneStranded_of_inTime (actions : List (SharedAction T)) :
    (AllSteps step InTime new actions → AllStates step NoneStranded new actions) ∧
      ∀ a s s', Run step (fun _ _ => True) new actions s → step s a = some s' → ¬s.InTime a →
        ∃ receiver : ℕ, ∀ later,
          AllStates step (fun t => t.receivers[receiver]? = some ReceiverPlace.waiting) s'
            later := by
  constructor
  · exact fun h => h.allStates (fun _ _ _ hs hin hstep => hs.step hin hstep)
      (fun _ hs => hs.noneStranded) awaited_new
  · intro a s s' run hstep hlate
    have hborrowed : s.Borrowed := run.invariant (fun _ s => s.Borrowed) borrowed_new
      fun _ _ _ _ h _ hstep => h.step hstep
    obtain ⟨hgone, receiver, hwaiting⟩ := hborrowed.late hlate hstep
    exact ⟨receiver, hgone.waits hwaiting⟩

/-- A receiver waits and gets the item that is sent next. -/
theorem noneStranded_sendToWaiter : AllStates step NoneStranded (new : SharedQueue ℕ)
    [.lock 0 true, .test 0, .wait 0, .startSend .normal 7, .push 0 0, .wakeUp 0] := by
  refine (noneStranded_of_inTime _).1 ?_
  refine .cons rfl trivial (.cons rfl trivial (.cons rfl (fun _ => Nat.one_ne_zero) ?_))
  exact .cons rfl trivial (.cons rfl trivial (.cons rfl trivial trivial))

/-- The sender is dropped while the only receiver waits. -/
theorem not_noneStranded_dropSender : ¬∀ actions : List (SharedAction ℕ),
    AllStates step NoneStranded new actions := by
  intro h
  have hexecute : execute step (fun (_ : SharedQueue ℕ) _ => True) new
      [.lock 0 true, .test 0, .wait 0, .dropSender] =
        some ⟨⟨⟨[], []⟩, 1, 0⟩, none, [.waiting], []⟩ := rfl
  have hlast := (h _).of_execute hexecute
  obtain hsender | hwoken := hlast.disconnected (List.mem_singleton.mpr rfl) rfl
  · exact hsender rfl
  · cases List.mem_singleton.mp hwoken

end SharedQueue

end Lucie
