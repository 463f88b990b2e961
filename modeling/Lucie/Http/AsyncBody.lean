import Mathlib

/-!
# Request bodies

A body is empty, bytes in memory with a position, or a reader. It is read into buffers of any
sizes, or frame by frame. Reading from memory takes as many bytes from the position on as the
buffer has room for and leaves the position where it is, so that only a first read that fits
into the content finds what it should.
-/

set_option autoImplicit false

namespace Lucie.Http

/-- A `Poll`. -/
inductive Poll (α : Type)
  | ready (value : α)
  | pending
deriving DecidableEq

/-- A `ReadBuf`: the bytes that are filled in, and how many it has room for in all. -/
structure ReadBuf where
  filled : List UInt8
  capacity : ℕ
  filled_le : filled.length ≤ capacity

namespace ReadBuf

/-- `ReadBuf::new`, of a buffer of this length. -/
def new (capacity : ℕ) : ReadBuf := ⟨[], capacity, Nat.zero_le _⟩

/-- `ReadBuf::remaining`. -/
def remaining (buf : ReadBuf) : ℕ := buf.capacity - buf.filled.length

theorem filled_append_le (buf : ReadBuf) {bytes : List UInt8}
    (hfits : bytes.length ≤ buf.remaining) :
    (buf.filled ++ bytes).length ≤ buf.capacity := by
  have hle := buf.filled_le
  rw [remaining] at hfits
  rw [List.length_append]
  omega

/-- `ReadBuf::put_slice`; `none` is a panic. -/
def putSlice (buf : ReadBuf) (bytes : List UInt8) : Option ReadBuf :=
  if hfits : bytes.length ≤ buf.remaining then
    some ⟨buf.filled ++ bytes, buf.capacity, buf.filled_append_le hfits⟩
  else none

end ReadBuf

/-- A `Cursor` over bytes. -/
structure Cursor where
  inner : List UInt8
  position : ℕ

/-- An `AsyncBody`, with the type of its readers. -/
inductive AsyncBody (R : Type)
  | empty
  | bytes (cursor : Cursor)
  | asyncReader (reader : R)

/-- Bytes by a range of indices; `none` is a panic. -/
def byteRange (bytes : List UInt8) (start stop : ℕ) : Option (List UInt8) :=
  if start ≤ stop ∧ stop ≤ bytes.length then some ((bytes.drop start).take (stop - start))
  else none

variable {R E : Type} (readerPoll : R → ReadBuf → R × ReadBuf × Poll (Except E Unit))

namespace AsyncBody

/-- `AsyncBody::from_bytes`. -/
def fromBytes (bytes : List UInt8) : AsyncBody R := .bytes ⟨bytes, 0⟩

/-- `AsyncRead::poll_read`; `none` is a panic. -/
def pollRead (body : AsyncBody R) (buf : ReadBuf) :
    Option (AsyncBody R × ReadBuf × Poll (Except E Unit)) :=
  match body with
  | .empty => some (.empty, buf, .ready (.ok ()))
  | .bytes cursor => do
    let pos := cursor.position
    let buf ← buf.putSlice (← byteRange cursor.inner pos (pos + buf.remaining))
    some (.bytes cursor, buf, .ready (.ok ()))
  | .asyncReader reader =>
    let result := readerPoll reader buf
    some (.asyncReader result.1, result.2)

/-- `Body::poll_frame`; `none` is a panic. -/
def pollFrame (body : AsyncBody R) :
    Option (AsyncBody R × Poll (Option (Except E (List UInt8)))) := do
  let (body, buffer, poll) ← body.pollRead readerPoll (.new 8192)
  match poll with
  | .ready (.ok ()) =>
    let filled := buffer.filled
    if !filled.isEmpty then some (body, .ready (some (.ok filled)))
    else some (body, .ready none)
  | .ready (.error e) => some (body, .ready (some (.error e)))
  | .pending => some (body, .pending)

end AsyncBody

/-! ## A sequence of reads -/

/-- One call on a body. -/
inductive Call
  | pollRead (buf : ReadBuf)
  | pollFrame

/-- What a call returns; for a read, with what its buffer is filled with then. -/
inductive Response (E : Type)
  | read (filled : List UInt8) (poll : Poll (Except E Unit))
  | frame (poll : Poll (Option (Except E (List UInt8))))

namespace Call

/-- How many bytes the call has room for. -/
def room : Call → ℕ
  | .pollRead buf => buf.remaining
  | .pollFrame => 8192

/-- Execute a call. -/
def perform (body : AsyncBody R) : Call → Option (AsyncBody R × Response E)
  | .pollRead buf => (body.pollRead readerPoll buf).map fun result =>
    (result.1, .read result.2.1.filled result.2.2)
  | .pollFrame => (body.pollFrame readerPoll).map fun result => (result.1, .frame result.2)

/-- The response of a call that reads these bytes. A frame is never empty. -/
def response (bytes : List UInt8) : Call → Response E
  | .pollRead buf => .read (buf.filled ++ bytes) (.ready (.ok ()))
  | .pollFrame => .frame (.ready (if bytes = [] then none else some (.ok bytes)))

end Call

/-- Execute calls one after the other. -/
def performAll : AsyncBody R → List Call → Option (List (Response E))
  | _, [] => some []
  | body, call :: calls => do
    let result ← call.perform readerPoll body
    let responses ← performAll result.1 calls
    some (result.2 :: responses)

/-- The responses to the calls are right where this is left of the content: each call reads what
comes next, as much as there is and as it has room for. -/
def Delivers : List UInt8 → List Call → List (Response E) → Prop
  | _, [], [] => True
  | left, call :: calls, response :: responses =>
    ∃ bytes rest, left = bytes ++ rest ∧ bytes.length = min call.room left.length ∧
      response = call.response bytes ∧ Delivers rest calls responses
  | _, _, _ => False

/-- No call on a body with this content panics, and all read what they should. -/
def ReadsContent (content : List UInt8) (calls : List Call) : Prop :=
  ∃ responses, performAll readerPoll (.fromBytes content) calls = some responses ∧
    Delivers content calls responses

/-- The calls read the content, of which this many bytes were read before: each fits into what is
left, and what should come next looks like the beginning of the content. -/
def InStep (content : List UInt8) : ℕ → List Call → Prop
  | _, [] => True
  | read, call :: calls => read + call.room ≤ content.length ∧
      (content.drop read).take call.room = content.take call.room ∧
      InStep content (read + call.room) calls

/-! ## What reads from memory return -/

theorem Call.response_injective {bytes bytes' : List UInt8} (call : Call)
    (hresponse : (call.response bytes : Response E) = call.response bytes') : bytes = bytes' := by
  cases call with
  | pollRead buf =>
    injection hresponse with hfilled _
    exact List.append_cancel_left hfilled
  | pollFrame =>
    simp only [response, Response.frame.injEq, Poll.ready.injEq] at hresponse
    by_cases hbytes : bytes = [] <;> by_cases hbytes' : bytes' = [] <;> simp_all

theorem byteRange_zero (bytes : List UInt8) (n : ℕ) :
    byteRange bytes 0 n = if n ≤ bytes.length then some (bytes.take n) else none := by
  simp [byteRange]

theorem ReadBuf.putSlice_of_le (buf : ReadBuf) {bytes : List UInt8}
    (hfits : bytes.length ≤ buf.remaining) :
    buf.putSlice bytes = some ⟨buf.filled ++ bytes, buf.capacity, buf.filled_append_le hfits⟩ :=
  dif_pos hfits

/-- A read from memory, where the content has enough bytes for the buffer. -/
theorem AsyncBody.pollRead_fromBytes {content : List UInt8} (buf : ReadBuf)
    (hroom : buf.remaining ≤ content.length) :
    (fromBytes content).pollRead readerPoll buf =
      some (fromBytes content,
        ⟨buf.filled ++ content.take buf.remaining, buf.capacity,
          buf.filled_append_le (List.length_take_le ..)⟩, .ready (.ok ())) := by
  have hrange : byteRange content 0 (0 + buf.remaining) = some (content.take buf.remaining) := by
    rw [Nat.zero_add, byteRange_zero, if_pos hroom]
  simp only [fromBytes, pollRead, hrange, Option.bind_eq_bind, Option.bind_some,
    buf.putSlice_of_le (List.length_take_le ..)]

/-- A read from memory panics where the content is shorter than the buffer. -/
theorem AsyncBody.pollRead_fromBytes_eq_none {content : List UInt8} (buf : ReadBuf)
    (hroom : content.length < buf.remaining) :
    (fromBytes content).pollRead readerPoll buf = none := by
  have hrange : byteRange content 0 (0 + buf.remaining) = none := by
    rw [Nat.zero_add, byteRange_zero, if_neg (Nat.not_le.mpr hroom)]
  simp only [fromBytes, pollRead, hrange, Option.bind_eq_bind, Option.bind_none]

/-- Every call on bytes in memory returns their beginning, or panics. -/
theorem Call.perform_fromBytes (content : List UInt8) (call : Call) :
    call.perform readerPoll (.fromBytes content) =
      if call.room ≤ content.length then
        some (.fromBytes content, call.response (content.take call.room))
      else none := by
  by_cases hroom : call.room ≤ content.length
  · rw [if_pos hroom]
    cases call with
    | pollRead buf =>
      rw [perform, AsyncBody.pollRead_fromBytes readerPoll buf hroom]
      rfl
    | pollFrame =>
      have hne : content.take 8192 ≠ [] := by
        intro hnil
        have hlength := congrArg List.length hnil
        have hmin : min 8192 content.length = 8192 := Nat.min_eq_left hroom
        rw [List.length_take, List.length_nil, hmin] at hlength
        cases hlength
      have hread := AsyncBody.pollRead_fromBytes readerPoll (.new 8192) hroom
      simp only [ReadBuf.new, ReadBuf.remaining, List.length_nil, Nat.sub_zero,
        List.nil_append] at hread
      simp [perform, AsyncBody.pollFrame, ReadBuf.new, hread, room, response, hne]
  · rw [if_neg hroom]
    have hshort : content.length < call.room := Nat.not_le.mp hroom
    cases call with
    | pollRead buf =>
      rw [perform, AsyncBody.pollRead_fromBytes_eq_none readerPoll buf hshort]
      rfl
    | pollFrame =>
      have hread := AsyncBody.pollRead_fromBytes_eq_none readerPoll (.new 8192) hshort
      simp only [perform, AsyncBody.pollFrame, hread, Option.bind_eq_bind, Option.bind_none,
        Option.map_none]

/-! ## What the responses say -/

/-- Together, right responses are the beginning of what is left, once and in order. -/
theorem Delivers.exists_chunks {left : List UInt8} {calls : List Call}
    {responses : List (Response E)} (h : Delivers left calls responses) :
    ∃ chunks : List (List UInt8),
      responses = List.zipWith (fun call bytes => call.response bytes) calls chunks ∧
      chunks.flatten = left.take (calls.map Call.room).sum := by
  induction calls generalizing left responses with
  | nil =>
    cases responses with
    | nil => exact ⟨[], rfl, by simp⟩
    | cons response responses => exact h.elim
  | cons call calls ih =>
    cases responses with
    | nil => exact h.elim
    | cons response responses =>
      obtain ⟨bytes, rest, rfl, hlength, rfl, hrest⟩ := h
      obtain ⟨chunks, rfl, hchunks⟩ := ih hrest
      refine ⟨bytes :: chunks, rfl, ?_⟩
      rw [List.length_append] at hlength
      rw [List.flatten_cons, hchunks, List.map_cons, List.sum_cons]
      by_cases hroom : call.room ≤ bytes.length + rest.length
      · rw [Nat.min_eq_left hroom] at hlength
        rw [← hlength, List.take_length_add_append]
      · -- the call has reached the end
        have hnil : rest = [] := List.eq_nil_of_length_eq_zero (by omega)
        subst hnil
        rw [List.take_nil, List.append_nil, List.take_of_length_le (by omega)]

/-- A call with room returns nothing only at the end of the content. -/
theorem Delivers.left_eq_nil {left : List UInt8} {call : Call} {calls : List Call}
    {responses : List (Response E)}
    (h : Delivers left (call :: calls) (call.response [] :: responses)) (hroom : 0 < call.room) :
    left = [] := by
  obtain ⟨bytes, rest, -, hlength, hresponse, -⟩ := h
  obtain rfl := call.response_injective hresponse
  rw [List.length_nil] at hlength
  exact List.eq_nil_of_length_eq_zero (by omega)

/-- Calls in step have no more room than there is content. -/
theorem InStep.total_le {content : List UInt8} {read : ℕ} {calls : List Call}
    (hread : read ≤ content.length) (h : InStep content read calls) :
    read + (calls.map Call.room).sum ≤ content.length := by
  induction calls generalizing read with
  | nil => simpa using hread
  | cons call calls ih =>
    have hrest := ih h.1 h.2.2
    simp only [List.map_cons, List.sum_cons]
    omega

/-! ## Where the reads are right -/

/-- A read of the next bytes is right exactly when they fit and look like the beginning. -/
theorem take_eq_next_iff {content : List UInt8} {read n : ℕ} (hread : read ≤ content.length)
    (hn : n ≤ content.length) :
    (∃ rest, content.drop read = content.take n ++ rest ∧
        (content.take n).length = min n (content.drop read).length) ↔
      read + n ≤ content.length ∧ (content.drop read).take n = content.take n := by
  rw [List.length_take, List.length_drop, Nat.min_eq_left hn]
  constructor
  · rintro ⟨rest, hdrop, hlength⟩
    have htake : (content.take n).length = n := by rw [List.length_take, Nat.min_eq_left hn]
    refine ⟨by omega, ?_⟩
    rw [hdrop, List.take_append_of_le_length (by omega), List.take_of_length_le (by omega)]
  · rintro ⟨hle, htake⟩
    refine ⟨(content.drop read).drop n, ?_, by omega⟩
    rw [← htake, List.take_append_drop]

/-- What is left behind the next bytes. -/
theorem drop_add_of_drop_eq {content rest : List UInt8} {read n : ℕ} (hn : n ≤ content.length)
    (hdrop : content.drop read = content.take n ++ rest) : content.drop (read + n) = rest := by
  have hlength : (content.take n).length = n := by rw [List.length_take, Nat.min_eq_left hn]
  rw [← List.drop_drop, hdrop, List.drop_left' hlength]

/-- From any point of the content on. -/
theorem performAll_delivers_iff {content : List UInt8} {read : ℕ} (hread : read ≤ content.length)
    (calls : List Call) :
    (∃ responses, performAll readerPoll (.fromBytes content) calls = some responses ∧
        Delivers (content.drop read) calls responses) ↔ InStep content read calls := by
  induction calls generalizing read with
  | nil => exact iff_of_true ⟨[], rfl, trivial⟩ trivial
  | cons call calls ih =>
    by_cases hroom : call.room ≤ content.length
    · have hperform := call.perform_fromBytes readerPoll content
      rw [if_pos hroom] at hperform
      have hstep : performAll readerPoll (.fromBytes content) (call :: calls) =
          (performAll readerPoll (.fromBytes content) calls).map
            (call.response (content.take call.room) :: ·) := by
        simp only [performAll, hperform, Option.bind_eq_bind, Option.bind_some]
        cases performAll readerPoll (.fromBytes content) calls <;> rfl
      rw [hstep, InStep, ← and_assoc]
      constructor
      · rintro ⟨responses, hresponses, hdelivers⟩
        obtain ⟨responses, hrest, rfl⟩ := Option.map_eq_some_iff.mp hresponses
        obtain ⟨bytes, rest, hdrop, hlength, hresponse, hdelivers⟩ := hdelivers
        obtain rfl := call.response_injective hresponse
        have hnext := (take_eq_next_iff hread hroom).mp ⟨rest, hdrop, hlength⟩
        have hleft := drop_add_of_drop_eq hroom hdrop
        exact ⟨hnext, (ih hnext.1).mp ⟨responses, hrest, hleft ▸ hdelivers⟩⟩
      · rintro ⟨hnext, hinStep⟩
        obtain ⟨responses, hrest, hdelivers⟩ := (ih hnext.1).mpr hinStep
        obtain ⟨rest, hdrop, hlength⟩ := (take_eq_next_iff hread hroom).mpr hnext
        have hleft := drop_add_of_drop_eq hroom hdrop
        exact ⟨call.response (content.take call.room) :: responses, by rw [hrest]; rfl,
          content.take call.room, rest, hdrop, hlength, rfl, hleft ▸ hdelivers⟩
    · have hperform := call.perform_fromBytes readerPoll content
      rw [if_neg hroom] at hperform
      refine iff_of_false ?_ fun h => hroom (by have := h.1; omega)
      rintro ⟨responses, hresponses, -⟩
      rw [performAll, hperform] at hresponses
      cases hresponses

/-- Reading a body is right exactly when all calls fit into the content together and each reads a
part of the content that looks like its beginning. -/
theorem readsContent_iff_inStep (content : List UInt8) (calls : List Call) :
    ReadsContent readerPoll content calls ↔ InStep content 0 calls :=
  performAll_delivers_iff readerPoll (Nat.zero_le _) calls

/-- No readers. -/
def noReaderPoll (reader : Empty) (buf : ReadBuf) :
    Empty × ReadBuf × Poll (Except Empty Unit) := (reader, buf, .pending)

/-- Three bytes are read into a buffer of four; and into two buffers of one. -/
theorem not_readsContent_threeBytes :
    ¬ ReadsContent noReaderPoll [1, 2, 3] [.pollRead (.new 4)] ∧
      ¬ ReadsContent noReaderPoll [1, 2, 3] [.pollRead (.new 1), .pollRead (.new 1)] := by
  constructor
  · rintro ⟨responses, hresponses, -⟩
    cases hresponses
  · rintro ⟨responses, hresponses, hdelivers⟩
    obtain rfl := Option.some.inj hresponses
    obtain ⟨bytes, rest, hcontent, -, hfirst, bytes', rest', hrest, -, hsecond, -⟩ := hdelivers
    obtain rfl : [1] = bytes := Call.response_injective (.pollRead (.new 1)) hfirst
    obtain rfl : [1] = bytes' := Call.response_injective (.pollRead (.new 1)) hsecond
    obtain rfl : [2, 3] = rest := (List.cons.inj hcontent).2
    cases hrest

end Lucie.Http
