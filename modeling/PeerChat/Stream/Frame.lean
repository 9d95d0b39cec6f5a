import PeerChat.Bytes

/-!
# Frames on a stream

A frame is its length on four bytes, most significant first, and so many bytes of payload.
-/

namespace PeerChat.Frame

/-- Frames of a session are limited to so many bytes. -/
def maxPayload : Nat := 65536

def write (payload : Bytes) : Bytes := Bytes.bigEndian 4 payload.length ++ payload

/-- What can be said of the front of a stream. -/
inductive Outcome where
  /-- The frame has not arrived in full. -/
  | incomplete
  | ended
  | frame (payload rest : Bytes)
  | tooLarge (size : Nat)
  /-- The stream ends inside the length. -/
  | cutLength
  /-- The stream ends inside the payload. -/
  | cutPayload
  deriving DecidableEq, Repr

/-- The next frame of a stream; `ended` tells whether anything can still arrive behind `data`. -/
def read (limit : Nat) (ended : Bool) (data : Bytes) : Outcome :=
  match data with
  | a :: b :: c :: d :: rest =>
    let size := Bytes.ofBigEndian [a, b, c, d]
    let payload := rest.take size
    if limit < size then .tooLarge size
    else if payload.length = size then .frame payload (rest.drop size)
    else if ended then .cutPayload
    else .incomplete
  | _ =>
    if ended then if data.isEmpty then .ended else .cutLength
    else .incomplete

/-- What one read of a frame gives. -/
inductive Item where
  | payload (bytes : Bytes)
  | ended
  | tooLarge (size : Nat)
  | cutLength
  | cutPayload
  deriving DecidableEq, Repr

theorem length_lt_of_read {limit : Nat} {ended : Bool} {data payload rest : Bytes}
    (h : read limit ended data = .frame payload rest) : rest.length < data.length := by
  unfold read at h
  split at h
  · simp only [] at h
    split at h
    · exact absurd h (by simp)
    · split at h
      · simp only [Outcome.frame.injEq] at h
        rw [← h.2, List.length_drop]
        simp only [List.length_cons]
        omega
      · split at h <;> exact absurd h (by simp)
  · split at h
    · split at h <;> exact absurd h (by simp)
    · exact absurd h (by simp)

/-- All reads that can be made of the data up to the first that gives no frame, and the bytes of an
incomplete one. -/
def items (limit : Nat) (ended : Bool) (data : Bytes) : List Item × Bytes :=
  match h : read limit ended data with
  | .incomplete => ([], data)
  | .ended => ([.ended], [])
  | .frame payload rest =>
    have := length_lt_of_read h
    let (later, unread) := items limit ended rest
    (.payload payload :: later, unread)
  | .tooLarge size => ([.tooLarge size], [])
  | .cutLength => ([.cutLength], [])
  | .cutPayload => ([.cutPayload], [])
termination_by data.length

end PeerChat.Frame
