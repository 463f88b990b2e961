import Lucie.Queue.PriorityQueue

/-!
# Waking the main thread

A dispatch to the main thread sends its task, swaps a flag, and posts a message if the flag was not
set. The message makes the main thread run tasks until it finds none. It then clears the flag and
looks once more, as a task that came before that has no message of its own. While a task runs, or
system events are handled, another message can start the same again. No order of these steps leaves
a task behind, unless a message cannot be posted.
-/

set_option autoImplicit false

namespace Lucie

open Foundation

/-- Where a call of `run_foreground_task` is. -/
inductive ForegroundPlace
  /-- The test for the timeout. -/
  | timeoutLoop
  /-- The time is spent, and paint and input messages are processed. -/
  | systemEvents
  | tryPop
  | runTask
  /-- The timeout loop is left, and the flag is not cleared yet. -/
  | clear
  /-- The flag was cleared, and the queue is looked at again. -/
  | recheck
  /-- The second look found a task, and the flag is not set again yet. -/
  | restore
  deriving DecidableEq

/-- The dispatcher and the main thread, with the calls of `run_foreground_task` that are under way,
the innermost first. Of the dispatches those are counted that have sent their task and not swapped
the flag, and those that have to post a message. -/
structure Foreground (T : Type) where
  queue : QueueRun T
  wakePosted : Bool
  messages : ℕ
  swapping : ℕ
  posting : ℕ
  calls : List ForegroundPlace

/-- A step of a dispatch or of the main thread. -/
inductive ForegroundAction (T : Type)
  | send (priority : TaskPriority) (task : T)
  | swap
  | post (ok : Bool)
  /-- The message is dispatched to the platform's window. -/
  | message
  | checkTime (spent : Bool)
  | repost (ok : Bool)
  | tryPop (flipNormal flipLow : Draw)
  | taskDone
  | clear
  | recheck (flipNormal flipLow : Draw)
  | restore

/-- A flip with the number zero. -/
def Draw.zero : Draw := ⟨0, le_rfl, one_pos⟩

variable {T : Type}

/-- `try_pop` on a clone of the receiver, and whether it returned a task. -/
def QueueRun.pollTask (s : QueueRun T) (flipNormal flipLow : Draw) : QueueRun T × Bool :=
  match s.state.tryPop flipNormal flipLow with
  | some (.ok (some task), state) => ({ s with state, delivered := s.delivered ++ [task] }, true)
  | some (_, state) => ({ s with state }, false)
  | none => (s, false)

namespace ForegroundPlace

/-- Other code runs in the call, which may dispatch messages. -/
def isYielding : ForegroundPlace → Bool
  | .runTask | .systemEvents => true
  | _ => false

end ForegroundPlace

namespace Foreground

/-- `WindowsDispatcher::new`, with the queue that it sends to. -/
def new : Foreground T := ⟨.new, false, 0, 0, 0, []⟩

/-- The innermost call goes on from the place. -/
def advance (s : Foreground T) (place : ForegroundPlace)
    (next : List ForegroundPlace → Foreground T) : Option (Foreground T) :=
  match s.calls with
  | [] => none
  | top :: calls => if top = place then some (next calls) else none

/-- One step, if the dispatch or the main thread is where it begins. -/
def step (s : Foreground T) : ForegroundAction T → Option (Foreground T)
  | .send priority task =>
    match s.queue.state.send priority task with
    | .error _ => some s
    | .ok state => some { s with
        queue := { s.queue with state, sent := s.queue.sent ++ [(priority, task)] }
        swapping := s.swapping + 1 }
  | .swap =>
    if s.swapping = 0 then none
    else if s.wakePosted then some { s with swapping := s.swapping - 1 }
    else some { s with
      swapping := s.swapping - 1
      wakePosted := true
      posting := s.posting + 1 }
  | .post ok =>
    if s.posting = 0 then none
    else some { s with posting := s.posting - 1, messages := s.messages + ok.toNat }
  | .message =>
    -- outside of a call the message loop of the application gets it
    if s.messages = 0 ∨ ∃ place ∈ s.calls.head?, !place.isYielding then none
    else some { s with messages := s.messages - 1, calls := .timeoutLoop :: s.calls }
  | .checkTime spent => s.advance .timeoutLoop fun calls =>
    { s with calls := (if spent then .systemEvents else .tryPop) :: calls }
  | .repost ok => s.advance .systemEvents fun calls =>
    if ok then { s with messages := s.messages + 1, calls }
    else { s with wakePosted := false, calls }
  | .tryPop flipNormal flipLow => s.advance .tryPop fun calls =>
    let (queue, found) := s.queue.pollTask flipNormal flipLow
    { s with queue, calls := (if found then .runTask else .clear) :: calls }
  | .taskDone => s.advance .runTask fun calls => { s with calls := .timeoutLoop :: calls }
  | .clear => s.advance .clear fun calls =>
    { s with wakePosted := false, calls := .recheck :: calls }
  | .recheck flipNormal flipLow => s.advance .recheck fun calls =>
    let (queue, found) := s.queue.pollTask flipNormal flipLow
    { s with queue, calls := if found then .restore :: calls else calls }
  | .restore => s.advance .restore fun calls =>
    { s with wakePosted := true, calls := .runTask :: calls }

/-- The step does not fail to post a message. -/
def PostSucceeds (_ : Foreground T) : ForegroundAction T → Prop
  | .post ok | .repost ok => ok = true
  | _ => True

/-- The main thread runs no task and has no message, and no dispatch is under way. -/
def AtRest (s : Foreground T) : Prop :=
  s.calls = [] ∧ s.messages = 0 ∧ s.swapping = 0 ∧ s.posting = 0

/-- The step posts its message, sends no task, and the time is not up. -/
def IsQuiet (_ : Foreground T) : ForegroundAction T → Prop
  | .send _ _ => False
  | .post ok | .repost ok => ok = true
  | .checkTime spent => spent = false
  | _ => True

instance (s : Foreground T) : ∀ a, Decidable (s.PostSucceeds a)
  | .post ok | .repost ok => inferInstanceAs (Decidable (ok = true))
  | .send _ _ | .swap | .message | .checkTime _ | .tryPop _ _ | .taskDone | .clear
  | .recheck _ _ | .restore => isTrue trivial

instance (s : Foreground T) : ∀ a, Decidable (s.IsQuiet a)
  | .send _ _ => isFalse id
  | .post ok | .repost ok => inferInstanceAs (Decidable (ok = true))
  | .checkTime spent => inferInstanceAs (Decidable (spent = false))
  | .swap | .message | .tryPop _ _ | .taskDone | .clear | .recheck _ _ | .restore => isTrue trivial

/-! ## Single steps -/

variable {s s' : Foreground T}

theorem advance_eq_some {place : ForegroundPlace} {next : List ForegroundPlace → Foreground T} :
    s.advance place next = some s' ↔ ∃ calls, s.calls = place :: calls ∧ next calls = s' := by
  unfold advance
  cases s.calls with
  | nil => simp
  | cons top calls =>
    by_cases htop : top = place
    · simp [htop]
    · simp [htop]

end Foreground

/-- A look at the queue takes the first task of a priority, or there is none. -/
theorem QueueRun.pollTask_cases (s : QueueRun T) (flipNormal flipLow : Draw) :
    s.state.queues.isEmpty = true ∧ s.pollTask flipNormal flipLow = (s, false) ∨
      ∃ priority task rest, s.state.queues.queue priority = task :: rest ∧
        s.pollTask flipNormal flipLow = ({ s with
          state := { s.state with queues := s.state.queues.setQueue priority rest }
          delivered := s.delivered ++ [task] }, true) := by
  cases hempty : s.state.queues.isEmpty with
  | true =>
    refine .inl ⟨rfl, ?_⟩
    unfold pollTask
    cases hpop : s.state.tryPop flipNormal flipLow with
    | none => rfl
    | some result =>
      obtain ⟨result, state⟩ := result
      obtain ⟨rfl, rfl | ⟨-, rfl⟩⟩ := PriorityQueueState.popInner_of_isEmpty hempty hpop <;> rfl
  | false =>
    obtain ⟨priority, task, rest, hqueue, hpop⟩ :=
      PriorityQueueState.popInner_eq hempty false flipNormal flipLow
    refine .inr ⟨priority, task, rest, hqueue, ?_⟩
    rw [pollTask, PriorityQueueState.tryPop, hpop]

theorem QueueRun.Ordered.pollTask {s : QueueRun T} (h : s.Ordered) (flipNormal flipLow : Draw) :
    (s.pollTask flipNormal flipLow).1.Ordered := by
  obtain ⟨-, heq⟩ | ⟨priority, task, rest, hqueue, heq⟩ := s.pollTask_cases flipNormal flipLow
  · rwa [heq]
  · rw [heq]
    exact h.pop hqueue

theorem QueueRun.size_pollTask (s : QueueRun T) (flipNormal flipLow : Draw) :
    (s.pollTask flipNormal flipLow).1.state.queues.size +
      (s.pollTask flipNormal flipLow).2.toNat = s.state.queues.size := by
  obtain ⟨-, heq⟩ | ⟨priority, task, rest, hqueue, heq⟩ := s.pollTask_cases flipNormal flipLow
  · rw [heq]
    rfl
  · rw [heq]
    exact size_setQueue hqueue

/-- A look finds a task if there is one. -/
theorem QueueRun.size_of_not_found {s : QueueRun T} {flipNormal flipLow : Draw}
    (h : (s.pollTask flipNormal flipLow).2 = false) : s.state.queues.size = 0 := by
  obtain ⟨hempty, -⟩ | ⟨priority, task, rest, -, heq⟩ := s.pollTask_cases flipNormal flipLow
  · exact (PriorityQueues.isEmpty_iff _).mp hempty
  · rw [heq] at h
    cases h

namespace Foreground

variable {s s' : Foreground T}

/-! ## Tasks and messages -/

/-- Outside of all calls a task that waits has a message, and so has the flag. A call that looks
once more has left no flag without a message. -/
structure Awake (s : Foreground T) : Prop where
  ordered : s.queue.Ordered
  /-- Only a call in which other code runs is interrupted. -/
  outer : ∀ place ∈ s.calls.tail, place.isYielding
  task : s.calls = [] → s.queue.state.queues.size ≠ 0 →
    s.messages ≠ 0 ∨ s.swapping ≠ 0 ∨ s.posting ≠ 0
  flag : s.calls = [] → s.wakePosted → s.messages ≠ 0 ∨ s.posting ≠ 0
  recheck : s.calls.head? = some .recheck → s.wakePosted → s.messages ≠ 0 ∨ s.posting ≠ 0

theorem new_awake : (new : Foreground T).Awake where
  ordered := QueueRun.new_ordered
  outer _ hplace := nomatch hplace
  task _ hsize := absurd rfl hsize
  flag _ hflag := nomatch hflag
  recheck htop := nomatch htop

/-- While a call is under way that does not look once more, nothing is asked of the messages. -/
theorem Awake.of_call {place : ForegroundPlace} {calls : List ForegroundPlace}
    (hordered : s.queue.Ordered) (hcalls : s.calls = place :: calls)
    (houter : ∀ place ∈ calls, place.isYielding) (hplace : place ≠ .recheck) : s.Awake where
  ordered := hordered
  outer := by simpa [hcalls] using houter
  task hnil := by simp [hcalls] at hnil
  flag hnil := by simp [hcalls] at hnil
  recheck htop := by
    rw [hcalls] at htop
    exact absurd (Option.some.inj htop) hplace

/-- The outer calls of an innermost one. -/
theorem Awake.yielding (h : s.Awake) {place : ForegroundPlace} {calls : List ForegroundPlace}
    (hcalls : s.calls = place :: calls) : ∀ place ∈ calls, place.isYielding := by
  simpa [hcalls] using h.outer

/-- A call returns when the queue is empty or a message was posted, and the flag has one. -/
theorem Awake.of_return {calls : List ForegroundPlace} (hordered : s.queue.Ordered)
    (hcalls : s.calls = calls) (houter : ∀ place ∈ calls, place.isYielding)
    (htask : s.queue.state.queues.size = 0 ∨ s.messages ≠ 0)
    (hflag : s.wakePosted → s.messages ≠ 0 ∨ s.posting ≠ 0) : s.Awake where
  ordered := hordered
  outer place hplace := houter place (hcalls ▸ List.mem_of_mem_tail hplace)
  task _ hsize := by omega
  flag _ := hflag
  recheck _ := hflag

theorem Awake.step (h : s.Awake) {a : ForegroundAction T} (ha : s.PostSucceeds a)
    (hstep : s.step a = some s') : s'.Awake := by
  cases a with
  | send priority task =>
    simp only [Foreground.step, PriorityQueueState.send] at hstep
    split_ifs at hstep with hreceiver
    · cases hstep
      exact h
    · cases hstep
      exact ⟨h.ordered.send priority task, h.outer, fun _ _ => .inr (.inl (Nat.succ_ne_zero _)),
        h.flag, h.recheck⟩
  | swap =>
    simp only [Foreground.step] at hstep
    split_ifs at hstep with hswapping hflag
    · -- the one who set the flag has a message
      cases hstep
      exact ⟨h.ordered, h.outer, fun hnil _ => by have := h.flag hnil hflag; simp only; omega,
        h.flag, h.recheck⟩
    · cases hstep
      exact ⟨h.ordered, h.outer, fun _ _ => .inr (.inr (Nat.succ_ne_zero _)),
        fun _ _ => .inr (Nat.succ_ne_zero _), fun _ _ => .inr (Nat.succ_ne_zero _)⟩
  | post ok =>
    obtain rfl : ok = true := ha
    simp only [Foreground.step] at hstep
    split_ifs at hstep
    cases hstep
    exact ⟨h.ordered, h.outer, fun _ _ => .inl (Nat.succ_ne_zero _),
      fun _ _ => .inl (Nat.succ_ne_zero _), fun _ _ => .inl (Nat.succ_ne_zero _)⟩
  | message =>
    simp only [Foreground.step] at hstep
    split_ifs at hstep with hnone
    cases hstep
    refine .of_call h.ordered rfl (fun place hplace => ?_) (by simp)
    push Not at hnone
    cases hcalls : s.calls with
    | nil => simp [hcalls] at hplace
    | cons top calls =>
      have htop : top.isYielding = true := by simpa [hcalls] using hnone.2
      rcases List.mem_cons.mp (hcalls ▸ hplace) with rfl | hmem
      · exact htop
      · exact h.yielding hcalls place hmem
  | checkTime spent =>
    obtain ⟨calls, hcalls, rfl⟩ := advance_eq_some.mp hstep
    refine .of_call h.ordered rfl (h.yielding hcalls) ?_
    cases spent <;> simp
  | repost ok =>
    obtain rfl : ok = true := ha
    obtain ⟨calls, hcalls, rfl⟩ := advance_eq_some.mp hstep
    exact .of_return h.ordered rfl (h.yielding hcalls) (.inr (Nat.succ_ne_zero _))
      fun _ => .inl (Nat.succ_ne_zero _)
  | tryPop flipNormal flipLow =>
    obtain ⟨calls, hcalls, rfl⟩ := advance_eq_some.mp hstep
    refine .of_call (h.ordered.pollTask flipNormal flipLow) rfl (h.yielding hcalls) ?_
    split_ifs <;> simp
  | taskDone =>
    obtain ⟨calls, hcalls, rfl⟩ := advance_eq_some.mp hstep
    exact .of_call h.ordered rfl (h.yielding hcalls) (by simp)
  | clear =>
    obtain ⟨calls, hcalls, rfl⟩ := advance_eq_some.mp hstep
    exact ⟨h.ordered, h.yielding hcalls, by simp, by simp, by simp⟩
  | recheck flipNormal flipLow =>
    obtain ⟨calls, hcalls, rfl⟩ := advance_eq_some.mp hstep
    have hflag := h.recheck (by rw [hcalls]; rfl)
    have hordered := h.ordered.pollTask flipNormal flipLow
    have hsize := s.queue.size_pollTask flipNormal flipLow
    cases hfound : (s.queue.pollTask flipNormal flipLow).2 with
    | true =>
      exact .of_call hordered (if_pos hfound) (h.yielding hcalls) (by simp)
    | false =>
      have hempty := QueueRun.size_of_not_found hfound
      exact .of_return hordered (by simp [hfound]) (h.yielding hcalls)
        (.inl (by simp only; omega)) hflag
  | restore =>
    obtain ⟨calls, hcalls, rfl⟩ := advance_eq_some.mp hstep
    exact .of_call h.ordered rfl (h.yielding hcalls) (by simp)

/-- In a run whose messages are posted, nothing waits at rest, and every task ran once. -/
theorem awake_of_run {actions : List (ForegroundAction T)}
    (run : Run step PostSucceeds new actions s) : s.Awake :=
  run.invariant (fun _ s => s.Awake) new_awake fun _ _ _ _ h ha hstep => h.step ha hstep

theorem Awake.perm (h : s.Awake) (hrest : s.AtRest) :
    (s.queue.sent.map Prod.snd).Perm s.queue.delivered := by
  obtain ⟨hcalls, hmessages, hswapping, hposting⟩ := hrest
  have hsize : s.queue.state.queues.size = 0 := by
    by_contra hsize
    have := h.task hcalls hsize
    omega
  rw [← PriorityQueues.isEmpty_iff] at hsize
  simp only [PriorityQueues.isEmpty, Bool.and_eq_true, List.isEmpty_iff] at hsize
  have hperm := h.ordered.perm
  rwa [hsize.1, hsize.2, List.append_nil, List.append_nil] at hperm

/-! ## The work that is left -/

/-- How many steps a call takes at most until it looks at the queue again, and more. -/
def placeWork : ForegroundPlace → ℕ
  | .recheck => 2
  | .clear => 3
  | .tryPop => 4
  | .timeoutLoop => 5
  | .runTask => 6
  | .systemEvents | .restore => 7

/-- A bound for the steps until the main thread is at rest. -/
def work (s : Foreground T) : ℕ :=
  8 * s.queue.state.queues.size + 8 * s.swapping + 7 * s.posting + 6 * s.messages +
    (s.calls.map placeWork).sum

/-- A quiet step does some of the work. -/
theorem work_step {a : ForegroundAction T} (ha : s.IsQuiet a) (hstep : s.step a = some s') :
    s'.work < s.work := by
  cases a with
  | send priority task => exact ha.elim
  | swap =>
    simp only [Foreground.step] at hstep
    split_ifs at hstep
    all_goals
      cases hstep
      simp only [work]
      omega
  | post ok =>
    obtain rfl : ok = true := ha
    simp only [Foreground.step] at hstep
    split_ifs at hstep
    cases hstep
    simp only [work, Bool.toNat_true]
    omega
  | message =>
    simp only [Foreground.step] at hstep
    split_ifs at hstep with hnone
    push Not at hnone
    cases hstep
    simp only [work, placeWork, List.map_cons, List.sum_cons]
    omega
  | checkTime spent =>
    obtain rfl : spent = false := ha
    obtain ⟨calls, hcalls, rfl⟩ := advance_eq_some.mp hstep
    simp [work, placeWork, hcalls]
  | repost ok =>
    obtain rfl : ok = true := ha
    obtain ⟨calls, hcalls, rfl⟩ := advance_eq_some.mp hstep
    simp only [work, placeWork, hcalls, if_true, List.map_cons, List.sum_cons]
    omega
  | tryPop flipNormal flipLow | recheck flipNormal flipLow =>
    obtain ⟨calls, hcalls, rfl⟩ := advance_eq_some.mp hstep
    have hsize := s.queue.size_pollTask flipNormal flipLow
    cases hfound : (s.queue.pollTask flipNormal flipLow).2
    all_goals
      simp only [hfound, Bool.toNat_true, Bool.toNat_false] at hsize
      simp only [work, placeWork, hcalls, hfound, if_true, Bool.false_eq_true, if_false,
        List.map_cons, List.sum_cons]
      omega
  | taskDone | clear | restore =>
    obtain ⟨calls, hcalls, rfl⟩ := advance_eq_some.mp hstep
    simp [work, placeWork, hcalls]

theorem advance_of_calls {place : ForegroundPlace} {calls : List ForegroundPlace}
    (hcalls : s.calls = place :: calls) (next : List ForegroundPlace → Foreground T) :
    ∃ s', s.advance place next = some s' :=
  ⟨_, advance_eq_some.mpr ⟨calls, hcalls, rfl⟩⟩

/-- If it is not at rest, some quiet step is possible. -/
theorem exists_quiet_step (hrest : ¬ s.AtRest) :
    ∃ a s', s.IsQuiet a ∧ s.step a = some s' := by
  cases hcalls : s.calls with
  | nil =>
    by_cases hmessages : s.messages = 0
    · by_cases hswapping : s.swapping = 0
      · have hposting : s.posting ≠ 0 := fun hposting =>
          hrest ⟨hcalls, hmessages, hswapping, hposting⟩
        exact ⟨.post true, _, rfl, by rw [Foreground.step, if_neg hposting]⟩
      · cases hflag : s.wakePosted with
        | true => exact ⟨.swap, _, trivial, by rw [Foreground.step, if_neg hswapping, if_pos hflag]⟩
        | false =>
          exact ⟨.swap, _, trivial, by
            rw [Foreground.step, if_neg hswapping, if_neg (Bool.eq_false_iff.mp hflag)]⟩
    · exact ⟨.message, _, trivial, by
        rw [Foreground.step, if_neg (by simpa [hcalls] using hmessages)]⟩
  | cons place calls =>
    cases place with
    | timeoutLoop =>
      obtain ⟨s', hstep⟩ := advance_of_calls hcalls _
      exact ⟨.checkTime false, s', rfl, hstep⟩
    | systemEvents =>
      obtain ⟨s', hstep⟩ := advance_of_calls hcalls _
      exact ⟨.repost true, s', rfl, hstep⟩
    | tryPop =>
      obtain ⟨s', hstep⟩ := advance_of_calls hcalls _
      exact ⟨.tryPop .zero .zero, s', trivial, hstep⟩
    | runTask =>
      obtain ⟨s', hstep⟩ := advance_of_calls hcalls _
      exact ⟨.taskDone, s', trivial, hstep⟩
    | clear =>
      obtain ⟨s', hstep⟩ := advance_of_calls hcalls _
      exact ⟨.clear, s', trivial, hstep⟩
    | recheck =>
      obtain ⟨s', hstep⟩ := advance_of_calls hcalls _
      exact ⟨.recheck .zero .zero, s', trivial, hstep⟩
    | restore =>
      obtain ⟨s', hstep⟩ := advance_of_calls hcalls _
      exact ⟨.restore, s', trivial, hstep⟩

/-- A quiet run is no longer than the work that it does. -/
theorem length_add_work {actions : List (ForegroundAction T)}
    (run : Run step IsQuiet s actions s') : actions.length + s'.work ≤ s.work := by
  induction run with
  | nil => simp
  | snoc a run hquiet hstep ih =>
    have := work_step hquiet hstep
    rw [List.length_append, List.length_singleton]
    omega

theorem postSucceeds_of_isQuiet (s : Foreground T) (a : ForegroundAction T) (h : s.IsQuiet a) :
    s.PostSucceeds a := by
  cases a with
  | post ok | repost ok => exact h
  | send | swap | message | checkTime | tryPop | taskDone | clear | recheck | restore => trivial

/-- A quiet step sends nothing. -/
theorem sent_of_quiet {a : ForegroundAction T} (ha : s.IsQuiet a) (hstep : s.step a = some s') :
    s'.queue.sent = s.queue.sent := by
  have hpoll : ∀ flipNormal flipLow,
      (s.queue.pollTask flipNormal flipLow).1.sent = s.queue.sent := by
    intro flipNormal flipLow
    obtain ⟨-, heq⟩ | ⟨_, _, _, -, heq⟩ := s.queue.pollTask_cases flipNormal flipLow <;> rw [heq]
  cases a with
  | send => exact ha.elim
  | swap | post | message =>
    simp only [Foreground.step] at hstep
    split_ifs at hstep <;> cases hstep <;> rfl
  | repost ok =>
    obtain ⟨calls, -, rfl⟩ := advance_eq_some.mp hstep
    split_ifs <;> rfl
  | tryPop flipNormal flipLow | recheck flipNormal flipLow =>
    obtain ⟨calls, -, rfl⟩ := advance_eq_some.mp hstep
    exact hpoll flipNormal flipLow
  | checkTime | taskDone | clear | restore =>
    obtain ⟨calls, -, rfl⟩ := advance_eq_some.mp hstep
    rfl

/-! ## A message that is lost -/

/-- The flag is set, and no message is there or will be. -/
structure Asleep (s : Foreground T) : Prop where
  calls : s.calls = []
  messages : s.messages = 0
  posting : s.posting = 0
  flag : s.wakePosted = true

/-- Nothing that is sent then wakes the main thread. -/
theorem Asleep.step (h : s.Asleep) {a : ForegroundAction T} (hstep : s.step a = some s') :
    s'.Asleep ∧ s'.queue.delivered = s.queue.delivered := by
  cases a with
  | send priority task =>
    simp only [Foreground.step] at hstep
    split at hstep <;> cases hstep <;> exact ⟨⟨h.calls, h.messages, h.posting, h.flag⟩, rfl⟩
  | swap =>
    simp only [Foreground.step] at hstep
    split_ifs at hstep with hswapping hflag
    · cases hstep
      exact ⟨⟨h.calls, h.messages, h.posting, h.flag⟩, rfl⟩
    · exact absurd h.flag hflag
  | post ok => simp [Foreground.step, h.posting] at hstep
  | message => simp [Foreground.step, h.messages] at hstep
  | checkTime | repost | tryPop | taskDone | clear | recheck | restore =>
    obtain ⟨calls, hcalls, -⟩ := advance_eq_some.mp hstep
    rw [h.calls] at hcalls
    cases hcalls

end Foreground

/-- Whatever the order of the steps is, as long as messages can be posted: the tasks of a priority
run in the order they were sent, each of them once. Without new tasks and timeouts the dispatches
and the main thread do not stop until they are at rest, after a bounded number of steps, and then
every task that was sent was run. -/
theorem mainThread_runs_every_task {T : Type} {actions : List (ForegroundAction T)}
    {s : Foreground T} (run : Run Foreground.step Foreground.PostSucceeds .new actions s) :
    Delivers s.queue.sent s.queue.delivered s.queue.state.queues ∧
    (s.AtRest → (s.queue.sent.map Prod.snd).Perm s.queue.delivered) ∧
    ∀ (later : List (ForegroundAction T)) (t : Foreground T),
      Run Foreground.step Foreground.IsQuiet s later t →
      later.length ≤ s.work ∧
      (¬ t.AtRest → ∃ a t', t.IsQuiet a ∧ t.step a = some t') ∧
      (t.AtRest → (s.queue.sent.map Prod.snd).Perm t.queue.delivered) := by
  have hawake := Foreground.awake_of_run run
  refine ⟨hawake.ordered, hawake.perm, fun later t hlater => ⟨?_, Foreground.exists_quiet_step, ?_⟩⟩
  · have := Foreground.length_add_work hlater
    omega
  · obtain ⟨ht, hsent⟩ := hlater.invariant
      (fun _ t => t.Awake ∧ t.queue.sent = s.queue.sent) ⟨hawake, rfl⟩
      fun _ t a _ h ha hstep => ⟨h.1.step (t.postSucceeds_of_isQuiet a ha) hstep,
        (Foreground.sent_of_quiet ha hstep).trans h.2⟩
    intro hrest
    have := ht.perm hrest
    rwa [hsent] at this

/-- A task comes between the last look of a call and the clear of the flag. -/
theorem mainThread_runs_every_task_raced :
    ∃ s : Foreground ℕ, s.queue.delivered = [1, 2] ∧
      (s.queue.sent.map Prod.snd).Perm s.queue.delivered := by
  let actions : List (ForegroundAction ℕ) :=
    [.send .normal 1, .swap, .post true, .message, .checkTime false, .tryPop .zero .zero,
      .taskDone, .checkTime false, .tryPop .zero .zero, .send .low 2, .swap, .clear,
      .recheck .zero .zero, .restore, .taskDone, .checkTime false, .tryPop .zero .zero, .clear,
      .recheck .zero .zero]
  have hs : execute Foreground.step Foreground.PostSucceeds .new actions =
      some { (Foreground.new : Foreground ℕ) with
        queue := { (QueueRun.new : QueueRun ℕ) with
          sent := [(.normal, 1), (.low, 2)]
          delivered := [1, 2] } } := by
    have hflip : ∀ n : ℕ, n ≠ 0 → Draw.zero.1 < divFloat n n := fun n hn => by
      rw [divFloat_self hn]
      exact Draw.zero.2.2
    have hnormal := hflip 70 (by omega)
    have hlow := hflip 30 (by omega)
    simp [actions, execute, Foreground.step, Foreground.advance, Foreground.PostSucceeds,
      Foreground.new, QueueRun.new, PriorityQueueState.new, PriorityQueueState.send,
      QueueRun.pollTask, PriorityQueueState.tryPop, PriorityQueueState.popInner,
      PriorityQueueState.tryRecv, PriorityQueueState.popLocked, PriorityQueues.choose,
      PriorityQueues.isEmpty, PriorityQueues.queue, PriorityQueues.setQueue,
      TaskPriority.probability, ForegroundPlace.isYielding, hnormal, hlow]
  exact ⟨_, rfl, (mainThread_runs_every_task (.of_execute hs)).2.1 ⟨rfl, rfl, rfl, rfl⟩⟩

/-- Once the only message of the main thread cannot be posted while it waits for one, no task runs
any more, whatever is sent. -/
theorem lost_wakeUp_is_final {T : Type} {s s' t : Foreground T}
    {later : List (ForegroundAction T)} (hcalls : s.calls = []) (hmessages : s.messages = 0)
    (hposting : s.posting = 1) (hflag : s.wakePosted = true)
    (hstep : s.step (.post false) = some s')
    (hlater : Run Foreground.step (fun _ _ => True) s' later t) :
    t.queue.delivered = s.queue.delivered ∧ t.messages = 0 ∧ t.calls = [] := by
  have hasleep : s'.Asleep ∧ s'.queue.delivered = s.queue.delivered := by
    simp only [Foreground.step] at hstep
    split_ifs at hstep
    cases hstep
    exact ⟨⟨hcalls, hmessages, by simp [hposting], hflag⟩, rfl⟩
  obtain ⟨ht, hdelivered⟩ := hlater.invariant
    (fun _ t => t.Asleep ∧ t.queue.delivered = s.queue.delivered) hasleep
    fun _ _ _ _ h _ hstep =>
      ⟨(h.1.step hstep).1, (h.1.step hstep).2.trans h.2⟩
  exact ⟨hdelivered, ht.messages, ht.calls⟩

/-- The message of the first task is lost, and the second task posts none. -/
theorem lost_wakeUp_is_final_twice :
    ∃ t : Foreground ℕ, t.queue.sent = [(.normal, 1), (.low, 2)] ∧ t.swapping = 0 ∧
      t.queue.delivered = [] ∧ t.messages = 0 ∧ t.calls = [] := by
  let s : Foreground ℕ := { (Foreground.new : Foreground ℕ) with
    queue := { (QueueRun.new : QueueRun ℕ) with
      state := { (PriorityQueueState.new : PriorityQueueState ℕ) with queues := ⟨[1], []⟩ }
      sent := [(.normal, 1)] }
    wakePosted := true
    posting := 1 }
  have hlater : execute Foreground.step (fun _ _ => True) { s with posting := 0 }
      [.send .low 2, .swap] = some { s with
        queue := { s.queue with
          state := { s.queue.state with queues := ⟨[1], [2]⟩ }
          sent := [(.normal, 1), (.low, 2)] }
        posting := 0 } := rfl
  have hstep : s.step (.post false) = some { s with posting := 0 } := rfl
  have hlost := lost_wakeUp_is_final (by rfl) (by rfl) (by rfl) (by rfl) hstep
    (.of_execute hlater)
  exact ⟨_, rfl, rfl, hlost⟩

end Lucie
