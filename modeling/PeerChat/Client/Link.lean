import PeerChat.Client.Listener
import PeerChat.Session.Error
import PeerChat.Wire.Command

/-!
# The link to the rendezvous server

A connection to the server signs up under a name, and can try another if that one is taken. The
header of the first list makes it a link; what follows the header is the link's to hear.
-/

namespace PeerChat

/-- What has come from the server and is not consumed: read already, and still to be read. -/
structure Inbox where
  buffer : Bytes
  arrived : Bytes
  ended : Bool
  deriving DecidableEq, Repr

namespace Inbox

def empty : Inbox := ⟨[], [], false⟩

def receive (i : Inbox) (bytes : Bytes) : Inbox := { i with arrived := i.arrived ++ bytes }

def serverEnded (i : Inbox) : Inbox := { i with ended := true }

/-- How many bytes are still to be consumed. -/
def size (i : Inbox) : Nat := i.buffer.length + i.arrived.length

/-- What the buffer gives; `last` tells whether anything can still come behind it. -/
def takeLine (i : Inbox) (last : Bool) : Option (Line.Item × Inbox) :=
  match Line.read Line.maxSize last i.buffer with
  | .line s rest => some (.text s, { i with buffer := rest })
  | .tooLong rest => some (.tooLong, { i with buffer := rest })
  | .incomplete | .ended => none

theorem size_lt_of_takeLine {i j : Inbox} {last : Bool} {item : Line.Item}
    (h : i.takeLine last = some (item, j)) : j.size < i.size := by
  unfold takeLine at h
  split at h
  case h_1 s rest hr | h_2 rest hr =>
    have hlt := Line.length_lt_of_leaves (r := rest) (by rw [hr]; rfl)
    obtain ⟨-, rfl⟩ := Prod.mk.inj (Option.some.inj h)
    simp only [size]
    omega
  all_goals exact absurd h (by simp)

/-- The next line, once it is complete, and what is left. Another read is made only when the buffer
lacks a line; all that has arrived is read before a line is waited for. -/
def nextLine (i : Inbox) : Option Line.Item × Inbox :=
  match i.takeLine false with
  | some (item, later) => (some item, later)
  | none =>
    if 0 < i.arrived.length then
      nextLine { i with
        buffer := i.buffer ++ i.arrived.take Listener.readSize
        arrived := i.arrived.drop Listener.readSize }
    else if i.ended then
      match i.takeLine true with
      | some (item, later) => (some item, later)
      | none => (some .ended, { i with buffer := [] })
    else (none, i)
termination_by i.arrived.length
decreasing_by
  simp only [List.length_drop, Listener.readSize]
  omega

/-- Every line takes bytes, and so does every over-long one. -/
theorem size_lt_of_nextLine {i j : Inbox} {item : Line.Item} (h : i.nextLine = (some item, j))
    (hi : item ≠ .ended) : j.size < i.size := by
  fun_induction nextLine i with
  | case1 i first later hl =>
    obtain ⟨-, rfl⟩ := Prod.mk.inj h
    exact size_lt_of_takeLine hl
  | case2 i _ _ ih =>
    have := ih h
    simp only [size, List.length_append, List.length_take, List.length_drop] at this ⊢
    omega
  | case3 i _ _ _ last later hl =>
    obtain ⟨-, rfl⟩ := Prod.mk.inj h
    exact size_lt_of_takeLine hl
  | case4 => exact absurd (Option.some.inj (Prod.mk.inj h).1).symm hi
  | case5 => exact absurd (Prod.mk.inj h).1 (by simp)

end Inbox

/-- How an attempt to sign up ended. -/
inductive SignUp where
  | registered
  | nameTaken
  | rejected (reason : Update)
  | failed (cause : Failure)
  deriving DecidableEq, Repr

namespace SignUp

/-- What a line means while the reply to a registration is awaited; notices are passed over. -/
def ofLine : Line.Item → Option SignUp
  | .ended => some (.failed .peerClosed)
  | .tooLong => some (.failed (.wire (.lineTooLong Line.maxSize)))
  | .text line =>
    match Announcement.parse line with
    | .listHeader => some .registered
    | .nameTaken => some .nameTaken
    | .invalidCommand => some (.rejected .invalidCommand)
    | .serverFull => some (.rejected .serverFull)
    | .newcomer _ => none
    | other => some (.failed (.wire (.unexpectedReply other.details)))

end SignUp

/-- Reads on to the reply to a registration; until it comes, all complete lines are passed over. -/
def Inbox.awaitReply (i : Inbox) : Option SignUp × Inbox :=
  match h : i.nextLine with
  | (none, later) => (none, later)
  | (some item, later) =>
    match ho : SignUp.ofLine item with
    | some outcome => (some outcome, later)
    | none =>
      have := Inbox.size_lt_of_nextLine h (by rintro rfl; simp [SignUp.ofLine] at ho)
      awaitReply later
termination_by i.size

structure Link where
  name : String
  listener : Listener
  /-- What has been heard and not been attended to. -/
  updates : List Update
  deriving DecidableEq, Repr

namespace Link

def hear (l : Link) (heard : Listener × List Update) : Link :=
  { l with listener := heard.1, updates := l.updates ++ heard.2 }

def receive (l : Link) (bytes : Bytes) : Link := l.hear (l.listener.receive bytes)

def serverEnded (l : Link) : Link := l.hear (l.listener.read true [])

/-- A link made of a connection that has just read its list header. -/
def ofInbox (name : String) (i : Inbox) : Link :=
  let l : Link := ⟨name, .start, []⟩
  let l := (l.hear (l.listener.read false i.buffer)).receive i.arrived
  if i.ended then l.serverEnded else l

/-- Whether the link has nothing more to tell. -/
def isOver (l : Link) : Bool := l.listener.finished && l.updates.isEmpty

end Link

end PeerChat
