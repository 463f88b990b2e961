import Lucie.Foundation.RoundBinary
import Lucie.Foundation.Run

/-!
# The priority queue

Tasks wait in one queue for each priority. A pop throws a biased coin for each of the queues that
are not empty. The last coin always comes up heads, as its probability is rounded to one and the
number for it is below one. So a pop finds an item whenever there is one, and what is delivered of
a priority is what was sent with it, in this order.
-/

set_option autoImplicit false

namespace Lucie

open Foundation

/-- `TaskPriority`. -/
inductive TaskPriority
  | normal
  | low
  deriving DecidableEq

/-- `TaskPriority::probability`. -/
def TaskPriority.probability : TaskPriority → ℕ
  | normal => 70
  | low => 30

/-- `PriorityQueues`. -/
structure PriorityQueues (T : Type) where
  normalPriority : List T
  lowPriority : List T

/-- `PriorityQueueState`, with what its lock protects. -/
structure PriorityQueueState (T : Type) where
  queues : PriorityQueues T
  receiverCount : ℕ
  senderCount : ℕ

/-- `RecvError`. -/
inductive RecvError
  | recvError

/-- What `Rng::f32` returns. -/
def Draw : Type := { x : ℚ // 0 ≤ x ∧ x < 1 }

/-- The quotient of two integers as an `f32`. -/
def divFloat (n m : ℕ) : ℚ := roundBinary 24 (n / m)

variable {T : Type}

namespace PriorityQueues

/-- `PriorityQueues::is_empty`. -/
def isEmpty (queues : PriorityQueues T) : Bool :=
  queues.normalPriority.isEmpty && queues.lowPriority.isEmpty

/-- The queue of a priority. -/
def queue (queues : PriorityQueues T) : TaskPriority → List T
  | .normal => queues.normalPriority
  | .low => queues.lowPriority

/-- Replace the queue of a priority. -/
def setQueue (queues : PriorityQueues T) (priority : TaskPriority) (items : List T) :
    PriorityQueues T :=
  match priority with
  | .normal => { queues with normalPriority := items }
  | .low => { queues with lowPriority := items }

/-- The weighted choice of `pop_inner`, with the numbers for its two flips. -/
def choose (queues : PriorityQueues T) (flipNormal flipLow : Draw) :
    Option T × PriorityQueues T :=
  let high := TaskPriority.normal.probability * (!queues.normalPriority.isEmpty).toNat
  let low := TaskPriority.low.probability * (!queues.lowPriority.isEmpty).toNat
  let mass := high + low
  if !queues.normalPriority.isEmpty ∧
      flipNormal.1 < divFloat TaskPriority.normal.probability mass then
    (queues.normalPriority.head?, { queues with normalPriority := queues.normalPriority.tail })
  else
    let mass := if queues.normalPriority.isEmpty then mass
      else mass - TaskPriority.normal.probability
    if !queues.lowPriority.isEmpty ∧ flipLow.1 < divFloat TaskPriority.low.probability mass then
      (queues.lowPriority.head?, { queues with lowPriority := queues.lowPriority.tail })
    else (none, queues)

end PriorityQueues

namespace PriorityQueueState

/-- `PriorityQueueReceiver::new`. -/
def new : PriorityQueueState T := ⟨⟨[], []⟩, 1, 1⟩

/-- `PriorityQueueState::send`. The error gives the item back. -/
def send (state : PriorityQueueState T) (priority : TaskPriority) (item : T) :
    Except T (PriorityQueueState T) :=
  if state.receiverCount = 0 then .error item
  else .ok { state with
    queues := state.queues.setQueue priority (state.queues.queue priority ++ [item]) }

/-- `PriorityQueueState::recv`, which waits while there is no item. -/
def recv (state : PriorityQueueState T) : Option (Except RecvError (PriorityQueues T)) :=
  if state.queues.isEmpty ∧ state.senderCount = 0 then some (.error .recvError)
  else if state.queues.isEmpty then none
  else some (.ok state.queues)

/-- `PriorityQueueState::try_recv`. -/
def tryRecv (state : PriorityQueueState T) : Except RecvError (Option (PriorityQueues T)) :=
  if state.queues.isEmpty ∧ state.senderCount = 0 then .error .recvError
  else if state.queues.isEmpty then .ok none
  else .ok (some state.queues)

/-- `pop_inner` with the lock in its hands. -/
def popLocked (state : PriorityQueueState T) (queues : PriorityQueues T)
    (flipNormal flipLow : Draw) : Except RecvError (Option T) × PriorityQueueState T :=
  let (item, queues) := queues.choose flipNormal flipLow
  (.ok item, { state with queues })

/-- `PriorityQueueReceiver::pop_inner`, or nothing while it waits. -/
def popInner (state : PriorityQueueState T) (block : Bool) (flipNormal flipLow : Draw) :
    Option (Except RecvError (Option T) × PriorityQueueState T) :=
  if !block then
    match state.tryRecv with
    | .error e => some (.error e, state)
    | .ok none => some (.ok none, state)
    | .ok (some queues) => some (state.popLocked queues flipNormal flipLow)
  else
    match state.recv with
    | none => none
    | some (.error e) => some (.error e, state)
    | some (.ok queues) => some (state.popLocked queues flipNormal flipLow)

/-- `PriorityQueueReceiver::try_pop`. -/
def tryPop (state : PriorityQueueState T) (flipNormal flipLow : Draw) :
    Option (Except RecvError (Option T) × PriorityQueueState T) :=
  state.popInner false flipNormal flipLow

/-- The result of a `pop`, which unwraps what `pop_inner` returns. -/
inductive Popped (T : Type)
  | item (item : T)
  | error (error : RecvError)
  | panic

/-- `map(|e| e.unwrap())`. -/
def Popped.unwrap : Except RecvError (Option T) → Popped T
  | .error e => .error e
  | .ok none => .panic
  | .ok (some x) => .item x

/-- `PriorityQueueReceiver::pop`. -/
def pop (state : PriorityQueueState T) (flipNormal flipLow : Draw) :
    Option (Popped T × PriorityQueueState T) :=
  (state.popInner true flipNormal flipLow).map fun result => (.unwrap result.1, result.2)

end PriorityQueueState

/-- What is done with the handles of a queue. -/
inductive QueueAction (T : Type)
  | send (priority : TaskPriority) (item : T)
  | pop (flipNormal flipLow : Draw)
  | tryPop (flipNormal flipLow : Draw)
  | cloneReceiver
  | dropReceiver
  | dropSender

/-- A queue with what was sent and what was delivered so far. -/
structure QueueRun (T : Type) where
  state : PriorityQueueState T
  sent : List (TaskPriority × T)
  delivered : List T

namespace QueueRun

/-- A queue that was just made. -/
def new : QueueRun T := ⟨.new, [], []⟩

/-- One action on a queue, if there is a handle for it and it does not wait. -/
def step (s : QueueRun T) : QueueAction T → Option (QueueRun T)
  | .send priority item =>
    if s.state.senderCount = 0 then none
    else match s.state.send priority item with
    | .error _ => some s
    | .ok state => some { s with state, sent := s.sent ++ [(priority, item)] }
  | .pop flipNormal flipLow =>
    if s.state.receiverCount = 0 then none
    else match s.state.pop flipNormal flipLow with
    | none => none
    | some (.item item, state) => some { s with state, delivered := s.delivered ++ [item] }
    | some (_, state) => some { s with state }
  | .tryPop flipNormal flipLow =>
    if s.state.receiverCount = 0 then none
    else match s.state.tryPop flipNormal flipLow with
    | none => none
    | some (.ok (some item), state) => some { s with state, delivered := s.delivered ++ [item] }
    | some (_, state) => some { s with state }
  | .cloneReceiver =>
    if s.state.receiverCount = 0 then none
    else some { s with state := { s.state with receiverCount := s.state.receiverCount + 1 } }
  | .dropReceiver =>
    if s.state.receiverCount = 0 then none
    else some { s with state := { s.state with receiverCount := s.state.receiverCount - 1 } }
  | .dropSender =>
    if s.state.senderCount = 0 then none
    else some { s with state := { s.state with senderCount := s.state.senderCount - 1 } }

end QueueRun

/-! ## Choosing a queue -/

theorem divFloat_self {n : ℕ} (h : n ≠ 0) : divFloat n n = 1 := by
  rw [divFloat, div_self (Nat.cast_ne_zero.mpr h), roundBinary_one (by omega)]

namespace PriorityQueues

/-- The number of items that wait. -/
def size (queues : PriorityQueues T) : ℕ :=
  queues.normalPriority.length + queues.lowPriority.length

@[simp] theorem queue_setQueue_self (queues : PriorityQueues T) (priority : TaskPriority)
    (items : List T) : (queues.setQueue priority items).queue priority = items := by
  cases priority <;> rfl

@[simp] theorem queue_setQueue_of_ne (queues : PriorityQueues T) {priority other : TaskPriority}
    (h : other ≠ priority) (items : List T) :
    (queues.setQueue priority items).queue other = queues.queue other := by
  cases priority <;> cases other <;> first
    | rfl
    | exact absurd rfl h

theorem isEmpty_iff (queues : PriorityQueues T) : queues.isEmpty = true ↔ queues.size = 0 := by
  simp [isEmpty, size, List.isEmpty_iff]

/-- The choice takes the first item of some queue. -/
theorem choose_eq {queues : PriorityQueues T} (h : queues.isEmpty = false)
    (flipNormal flipLow : Draw) : ∃ priority item rest, queues.queue priority = item :: rest ∧
      queues.choose flipNormal flipLow = (some item, queues.setQueue priority rest) := by
  obtain ⟨normalPriority, lowPriority⟩ := queues
  have hone : ∀ flip : Draw, ∀ n : ℕ, n ≠ 0 → flip.1 < divFloat n n := fun flip n hn => by
    rw [divFloat_self hn]
    exact flip.2.2
  cases normalPriority with
  | nil =>
    cases lowPriority with
    | nil => cases h
    | cons item rest =>
      -- the only coin has the whole mass
      refine ⟨.low, item, rest, rfl, ?_⟩
      have hflip := hone flipLow 30 (by omega)
      simp [choose, TaskPriority.probability, hflip, setQueue]
  | cons item rest =>
    cases lowPriority with
    | nil =>
      refine ⟨.normal, item, rest, rfl, ?_⟩
      have hflip := hone flipNormal 70 (by omega)
      simp [choose, TaskPriority.probability, hflip, setQueue]
    | cons item' rest' =>
      by_cases hflip : flipNormal.1 < divFloat 70 100
      · refine ⟨.normal, item, rest, rfl, ?_⟩
        simp [choose, TaskPriority.probability, hflip, setQueue]
      · -- what is left of the mass is the probability of the last queue
        refine ⟨.low, item', rest', rfl, ?_⟩
        have hflip' := hone flipLow 30 (by omega)
        simp [choose, TaskPriority.probability, hflip, hflip', setQueue]

end PriorityQueues

namespace PriorityQueueState

variable {state : PriorityQueueState T}

/-- A pop finds the first item of some queue when there is one, whether it may block or not. -/
theorem popInner_eq (h : state.queues.isEmpty = false) (block : Bool) (flipNormal flipLow : Draw) :
    ∃ priority item rest, state.queues.queue priority = item :: rest ∧
      state.popInner block flipNormal flipLow =
        some (.ok (some item), { state with queues := state.queues.setQueue priority rest }) := by
  obtain ⟨priority, item, rest, hqueue, hchoose⟩ :=
    PriorityQueues.choose_eq h flipNormal flipLow
  refine ⟨priority, item, rest, hqueue, ?_⟩
  cases block <;> simp [popInner, tryRecv, recv, popLocked, h, hchoose]

/-- Without an item it changes nothing, and returns none. -/
theorem popInner_of_isEmpty (h : state.queues.isEmpty = true) {block : Bool}
    {flipNormal flipLow : Draw} {result : Except RecvError (Option T)}
    {state' : PriorityQueueState T}
    (hpop : state.popInner block flipNormal flipLow = some (result, state')) :
    state' = state ∧ (result = .error .recvError ∨ block = false ∧ result = .ok none) := by
  by_cases hsender : state.senderCount = 0
  · cases block
    · simp [popInner, tryRecv, h, hsender] at hpop
      exact ⟨hpop.2.symm, .inl hpop.1.symm⟩
    · simp [popInner, recv, h, hsender] at hpop
      exact ⟨hpop.2.symm, .inl hpop.1.symm⟩
  · cases block
    · simp [popInner, tryRecv, h, hsender] at hpop
      exact ⟨hpop.2.symm, .inr ⟨rfl, hpop.1.symm⟩⟩
    · simp [popInner, recv, h, hsender] at hpop

theorem pop_eq (h : state.queues.isEmpty = false) (flipNormal flipLow : Draw) :
    ∃ priority item rest, state.queues.queue priority = item :: rest ∧
      state.pop flipNormal flipLow =
        some (.item item, { state with queues := state.queues.setQueue priority rest }) := by
  obtain ⟨priority, item, rest, hqueue, hpop⟩ := popInner_eq h true flipNormal flipLow
  exact ⟨priority, item, rest, hqueue, by rw [pop, hpop]; rfl⟩

/-- Without an item a `pop` that returns is an error. -/
theorem pop_of_isEmpty (h : state.queues.isEmpty = true) {flipNormal flipLow : Draw}
    {result : Popped T} {state' : PriorityQueueState T}
    (hpop : state.pop flipNormal flipLow = some (result, state')) :
    state' = state ∧ result = .error .recvError := by
  obtain ⟨inner, hinner, heq⟩ := Option.map_eq_some_iff.mp hpop
  cases heq
  obtain ⟨hstate, hresult | ⟨hblock, -⟩⟩ := popInner_of_isEmpty h hinner
  · exact ⟨hstate, by rw [hresult]; rfl⟩
  · cases hblock

/-- The unwrap of a `pop` does not panic. -/
theorem pop_ne_panic (state state' : PriorityQueueState T) (flipNormal flipLow : Draw) :
    state.pop flipNormal flipLow ≠ some (.panic, state') := by
  intro hpop
  cases h : state.queues.isEmpty with
  | true => cases (pop_of_isEmpty h hpop).2
  | false =>
    obtain ⟨priority, item, rest, -, hpop'⟩ := pop_eq h flipNormal flipLow
    rw [hpop'] at hpop
    cases hpop

end PriorityQueueState

/-! ## Deliveries -/

/-- The items of a priority. -/
def itemsOf (priority : TaskPriority) (items : List (TaskPriority × T)) : List T :=
  (items.filter fun p => p.1 = priority).map Prod.snd

@[simp] theorem itemsOf_append (priority : TaskPriority) (items items' : List (TaskPriority × T)) :
    itemsOf priority (items ++ items') = itemsOf priority items ++ itemsOf priority items' := by
  simp [itemsOf]

@[simp] theorem itemsOf_self (priority : TaskPriority) (item : T) :
    itemsOf priority [(priority, item)] = [item] := by
  simp [itemsOf]

@[simp] theorem itemsOf_of_ne {priority other : TaskPriority} (h : other ≠ priority) (item : T) :
    itemsOf other [(priority, item)] = [] := by
  simp [itemsOf, h.symm]

/-- All items are those of one priority and those of the other. -/
theorem perm_itemsOf (items : List (TaskPriority × T)) :
    (items.map Prod.snd).Perm (itemsOf .normal items ++ itemsOf .low items) := by
  induction items with
  | nil => exact .refl _
  | cons p items ih =>
    obtain ⟨priority, item⟩ := p
    rw [← List.singleton_append, itemsOf_append, itemsOf_append]
    cases priority with
    | normal => exact ih.cons item
    | low =>
      refine (ih.cons item).trans ?_
      simpa using List.perm_middle.symm

/-- The delivered items have priorities such that of each priority those were delivered that were
sent first, in this order, and the queue has the others. -/
def Delivers (sent : List (TaskPriority × T)) (delivered : List T) (queues : PriorityQueues T) :
    Prop :=
  ∃ tagged : List (TaskPriority × T), tagged.map Prod.snd = delivered ∧
    ∀ priority, itemsOf priority sent = itemsOf priority tagged ++ queues.queue priority

namespace Delivers

variable {sent : List (TaskPriority × T)} {delivered : List T} {queues : PriorityQueues T}

theorem send (h : Delivers sent delivered queues) (priority : TaskPriority) (item : T) :
    Delivers (sent ++ [(priority, item)]) delivered
      (queues.setQueue priority (queues.queue priority ++ [item])) := by
  obtain ⟨tagged, hdelivered, hqueue⟩ := h
  refine ⟨tagged, hdelivered, fun other => ?_⟩
  rw [itemsOf_append, hqueue]
  by_cases heq : other = priority
  · subst heq
    rw [itemsOf_self, PriorityQueues.queue_setQueue_self, List.append_assoc]
  · rw [itemsOf_of_ne heq, PriorityQueues.queue_setQueue_of_ne _ heq, List.append_nil]

theorem pop (h : Delivers sent delivered queues) {priority : TaskPriority} {item : T}
    {rest : List T} (hqueue : queues.queue priority = item :: rest) :
    Delivers sent (delivered ++ [item]) (queues.setQueue priority rest) := by
  obtain ⟨tagged, hdelivered, hqueues⟩ := h
  refine ⟨tagged ++ [(priority, item)], by simp [hdelivered], fun other => ?_⟩
  rw [itemsOf_append, hqueues]
  by_cases heq : other = priority
  · subst heq
    rw [itemsOf_self, PriorityQueues.queue_setQueue_self, hqueue, List.append_assoc,
      List.singleton_append]
  · rw [itemsOf_of_ne heq, PriorityQueues.queue_setQueue_of_ne _ heq, List.append_nil]

/-- Every item that was sent is delivered or waits, and is so once. -/
theorem perm (h : Delivers sent delivered queues) : (sent.map Prod.snd).Perm
    (delivered ++ (queues.normalPriority ++ queues.lowPriority)) := by
  obtain ⟨tagged, rfl, hqueue⟩ := h
  have hnormal := hqueue .normal
  have hlow := hqueue .low
  refine (perm_itemsOf sent).trans ?_
  rw [hnormal, hlow]
  refine List.Perm.trans ?_ ((perm_itemsOf tagged).symm.append_right _)
  simp only [PriorityQueues.queue, List.append_assoc]
  refine List.Perm.append_left _ ?_
  rw [← List.append_assoc, ← List.append_assoc]
  exact List.perm_append_comm.append_right _

end Delivers

namespace QueueRun

/-- What is delivered in a run so far, and what waits. -/
def Ordered (s : QueueRun T) : Prop := Delivers s.sent s.delivered s.state.queues

theorem new_ordered : (new : QueueRun T).Ordered := by
  refine ⟨[], rfl, fun priority => ?_⟩
  cases priority <;> rfl

theorem step_pop_eq {s : QueueRun T} (hreceiver : s.state.receiverCount ≠ 0)
    (h : s.state.queues.isEmpty = false) (flipNormal flipLow : Draw) :
    ∃ priority item rest, s.state.queues.queue priority = item :: rest ∧
      s.step (.pop flipNormal flipLow) = some { s with
        state := { s.state with queues := s.state.queues.setQueue priority rest }
        delivered := s.delivered ++ [item] } := by
  obtain ⟨priority, item, rest, hqueue, hpop⟩ :=
    PriorityQueueState.pop_eq h flipNormal flipLow
  exact ⟨priority, item, rest, hqueue, by rw [step, if_neg hreceiver, hpop]⟩

theorem step_tryPop_eq {s : QueueRun T} (hreceiver : s.state.receiverCount ≠ 0)
    (h : s.state.queues.isEmpty = false) (flipNormal flipLow : Draw) :
    ∃ priority item rest, s.state.queues.queue priority = item :: rest ∧
      s.step (.tryPop flipNormal flipLow) = some { s with
        state := { s.state with queues := s.state.queues.setQueue priority rest }
        delivered := s.delivered ++ [item] } := by
  obtain ⟨priority, item, rest, hqueue, hpop⟩ :=
    PriorityQueueState.popInner_eq h false flipNormal flipLow
  refine ⟨priority, item, rest, hqueue, ?_⟩
  rw [step, if_neg hreceiver, PriorityQueueState.tryPop, hpop]

/-- Without an item a pop delivers nothing. -/
theorem step_pop_of_isEmpty {s s' : QueueRun T} (hempty : s.state.queues.isEmpty = true)
    {flipNormal flipLow : Draw} (h : s.step (.pop flipNormal flipLow) = some s') : s' = s := by
  simp only [step] at h
  split_ifs at h with hreceiver
  cases hpop : s.state.pop flipNormal flipLow with
  | none => simp [hpop] at h
  | some result =>
    obtain ⟨hstate, hresult⟩ := PriorityQueueState.pop_of_isEmpty hempty hpop
    obtain ⟨popped, state⟩ := result
    cases hstate
    cases hresult
    rw [hpop] at h
    exact (Option.some.inj h).symm

theorem step_tryPop_of_isEmpty {s s' : QueueRun T} (hempty : s.state.queues.isEmpty = true)
    {flipNormal flipLow : Draw} (h : s.step (.tryPop flipNormal flipLow) = some s') : s' = s := by
  simp only [step] at h
  split_ifs at h with hreceiver
  cases hpop : s.state.tryPop flipNormal flipLow with
  | none => simp [hpop] at h
  | some result =>
    obtain ⟨hstate, hresult⟩ := PriorityQueueState.popInner_of_isEmpty hempty hpop
    obtain ⟨popped, state⟩ := result
    cases hstate
    rcases hresult with hresult | ⟨-, hresult⟩
    all_goals
      cases hresult
      rw [hpop] at h
      exact (Option.some.inj h).symm

/-- One action keeps the order of the deliveries. -/
theorem Ordered.step {s s' : QueueRun T} (hordered : s.Ordered) {a : QueueAction T}
    (h : s.step a = some s') : s'.Ordered := by
  cases a with
  | send priority item =>
    simp only [QueueRun.step, PriorityQueueState.send] at h
    split_ifs at h with hsender hreceiver
    · cases h
      exact hordered
    · cases h
      exact hordered.send priority item
  | pop flipNormal flipLow =>
    cases hempty : s.state.queues.isEmpty with
    | true =>
      rw [step_pop_of_isEmpty hempty h]
      exact hordered
    | false =>
      have hreceiver : s.state.receiverCount ≠ 0 := fun hzero => by
        simp [QueueRun.step, hzero] at h
      obtain ⟨priority, item, rest, hqueue, hstep⟩ :=
        step_pop_eq hreceiver hempty flipNormal flipLow
      rw [hstep] at h
      cases h
      exact hordered.pop hqueue
  | tryPop flipNormal flipLow =>
    cases hempty : s.state.queues.isEmpty with
    | true =>
      rw [step_tryPop_of_isEmpty hempty h]
      exact hordered
    | false =>
      have hreceiver : s.state.receiverCount ≠ 0 := fun hzero => by
        simp [QueueRun.step, hzero] at h
      obtain ⟨priority, item, rest, hqueue, hstep⟩ :=
        step_tryPop_eq hreceiver hempty flipNormal flipLow
      rw [hstep] at h
      cases h
      exact hordered.pop hqueue
  | cloneReceiver =>
    simp only [QueueRun.step] at h
    split_ifs at h
    cases h
    exact hordered
  | dropReceiver =>
    simp only [QueueRun.step] at h
    split_ifs at h
    cases h
    exact hordered
  | dropSender =>
    simp only [QueueRun.step] at h
    split_ifs at h
    cases h
    exact hordered

/-- The actions lead from a new queue to the state. -/
def Reachable (actions : List (QueueAction T)) (s : QueueRun T) : Prop :=
  Run step (fun _ _ => True) new actions s

theorem Reachable.ordered {actions : List (QueueAction T)} {s : QueueRun T}
    (run : Reachable actions s) : s.Ordered :=
  Run.invariant (fun _ s => s.Ordered) new_ordered
    (fun _ _ _ _ hordered _ h => hordered.step h) run

theorem size_setQueue {queues : PriorityQueues T} {priority : TaskPriority} {item : T}
    {rest : List T} (h : queues.queue priority = item :: rest) :
    (queues.setQueue priority rest).size + 1 = queues.size := by
  obtain ⟨normalPriority, lowPriority⟩ := queues
  cases priority
  · obtain rfl : normalPriority = item :: rest := h
    simp [PriorityQueues.setQueue, PriorityQueues.size]
    omega
  · obtain rfl : lowPriority = item :: rest := h
    simp [PriorityQueues.setQueue, PriorityQueues.size]
    omega

/-- As many pops as items wait deliver all of them, whatever the numbers are. -/
theorem drain {actions : List (QueueAction T)} {s : QueueRun T} (run : Reachable actions s)
    (hreceiver : s.state.receiverCount ≠ 0) (flips : List (Draw × Draw))
    (hflips : flips.length = s.state.queues.size) :
    ∃ s', Reachable (actions ++ flips.map fun f => .pop f.1 f.2) s' ∧ s'.sent = s.sent ∧
      s'.delivered.length = s.delivered.length + flips.length ∧
      s'.state.queues.isEmpty = true := by
  induction flips generalizing actions s with
  | nil =>
    refine ⟨s, ?_, rfl, rfl, (PriorityQueues.isEmpty_iff _).mpr hflips.symm⟩
    rw [List.map_nil, List.append_nil]
    exact run
  | cons flip flips ih =>
    have hempty : s.state.queues.isEmpty = false := by
      rw [← Bool.not_eq_true, PriorityQueues.isEmpty_iff, ← hflips]
      exact Nat.succ_ne_zero _
    obtain ⟨priority, item, rest, hqueue, hstep⟩ := step_pop_eq hreceiver hempty flip.1 flip.2
    have hsize := size_setQueue hqueue
    obtain ⟨s', run', hsent, hlength, hempty'⟩ := ih (run.snoc _ trivial hstep) hreceiver (by
      rw [List.length_cons] at hflips
      change _ = (s.state.queues.setQueue priority rest).size
      omega)
    refine ⟨s', ?_, hsent, ?_, hempty'⟩
    · rw [List.append_assoc, List.singleton_append] at run'
      rwa [List.map_cons]
    · rw [hlength, List.length_append, List.length_singleton, List.length_cons]
      omega

end QueueRun

end Lucie
