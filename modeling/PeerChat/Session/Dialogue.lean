import PeerChat.Session.Chat
import PeerChat.Session.Negotiation

/-!
# Both ends of a direct connection

A caller and a callee who go all the way: a request, its acceptance, the key exchange, the chat.
What one end writes arrives at the other in pieces of any size, and all that can happen happens in
any order.
-/

namespace PeerChat

namespace Dialogue

structure Setup where
  kem : Kem
  mode : NonceMode
  /-- The name in the request. -/
  caller : String
  /-- What the caller calls the other end. -/
  callee : String
  pool : Role → Entropy

inductive Stage where
  /-- The caller awaits the answer to its request. -/
  | asking
  | concluding (key : SecretKey)
  /-- The callee awaits the request. -/
  | listening
  | responding (caller : String)
  | chatting (chat : Chat)
  /-- No chat came of the call. -/
  | failed

structure Side where
  stage : Stage
  /-- What has arrived and is not consumed. -/
  incoming : Bytes
  ended : Bool
  pool : Entropy
  /-- The lines that the chat has taken from the user. -/
  typed : List String
  shown : List ChatEvent

namespace Side

def start (stage : Stage) (pool : Entropy) : Side := ⟨stage, [], false, pool, [], []⟩

def fail (s : Side) : Side := { s with stage := .failed }

def isOver (s : Side) : Bool :=
  match s.stage with
  | .chatting chat => chat.result.isSome
  | .failed => true
  | _ => false

/-- Goes on with what has arrived, as far as it reaches; also gives what is sent. -/
def advance (u : Setup) (s : Side) : Side × Bytes :=
  match s.stage with
  | .asking =>
    match Negotiation.readVerdict s.ended s.incoming with
    | .waiting => (s, [])
    | .done (.accepted rest) =>
      match Handshake.offer u.kem s.pool with
      | (.ok (key, sent), pool) =>
        ({ s with stage := .concluding key, incoming := rest, pool }, sent)
      | (.error _, pool) => ({ s with pool }.fail, [])
    | _ => (s.fail, [])
  | .concluding key =>
    match Handshake.conclude u.kem key s.ended s.incoming with
    | .waiting => (s, [])
    | .done (keys, rest) =>
      let chat := Chat.start u.callee .initiator u.mode keys []
      ({ s with stage := .chatting chat, incoming := rest }, [])
    | .failed _ => (s.fail, [])
  | .listening =>
    match Negotiation.readRequest s.ended s.incoming with
    | .waiting => (s, [])
    | .done (caller, rest) =>
      ({ s with stage := .responding caller, incoming := rest }, Negotiation.answer true)
    | .failed _ => (s.fail, [])
  | .responding caller =>
    match Handshake.respond u.kem s.pool s.ended s.incoming with
    | (.waiting, _) => (s, [])
    | (.done answer, pool) =>
      let chat := Chat.start caller .responder u.mode answer.keys []
      ({ s with stage := .chatting chat, incoming := answer.rest, pool }, answer.sent)
    | (.failed _, pool) => ({ s with pool }.fail, [])
  | .chatting chat =>
    let (chat, events) := chat.receive s.ended s.incoming
    ({ s with stage := .chatting chat, incoming := [], shown := s.shown ++ events }, [])
  | .failed => (s, [])

/-- A chat that is not over takes a line from the user. -/
def typeLine (s : Side) (writable : Bool) (line : String) : Side × Bytes :=
  match s.stage with
  | .chatting chat =>
    if chat.result.isSome then (s, [])
    else
      let (chat, effects) := chat.typeLine writable line
      ({ s with
        stage := .chatting chat
        typed := s.typed ++ [line]
        shown := s.shown ++ effects.events }, effects.sent)
  | _ => (s, [])

def endInput (s : Side) : Side :=
  match s.stage with
  | .chatting chat => { s with stage := .chatting chat.endInput }
  | _ => s

end Side

end Dialogue

structure Dialogue where
  side : Role → Dialogue.Side
  /-- What has been written for an end and has not arrived there. -/
  wire : Role → Bytes

namespace Dialogue

def start (u : Setup) : Dialogue where
  side
    | .initiator => .start .asking (u.pool .initiator)
    | .responder => .start .listening (u.pool .responder)
  wire
    | .initiator => []
    | .responder => Negotiation.request u.caller

/-- One end has moved, and has written something for the other. -/
def put (d : Dialogue) (r : Role) (next : Side × Bytes) : Dialogue where
  side q := if q = r then next.1 else d.side q
  wire q := if q = r then d.wire q else d.wire q ++ next.2

inductive Step where
  /-- So many bytes arrive at an end. -/
  | arrived (r : Role) (count : Nat)
  /-- The end of the stream arrives, once the other end is over. -/
  | ended (r : Role)
  | advanced (r : Role)
  /-- The user types a line, and the other end takes what is sent or does not. -/
  | typed (r : Role) (line : String) (writable : Bool)
  | inputEnded (r : Role)

def step (u : Setup) (d : Dialogue) : Step → Dialogue
  | .arrived r count =>
    let s := d.side r
    { d.put r ({ s with incoming := s.incoming ++ (d.wire r).take count }, []) with
      wire := fun q => if q = r then (d.wire r).drop count else d.wire q }
  | .ended r =>
    if (d.wire r).isEmpty && (d.side r.peer).isOver then
      d.put r ({ d.side r with ended := true }, [])
    else d
  | .advanced r => d.put r ((d.side r).advance u)
  | .typed r line writable => d.put r ((d.side r).typeLine writable line)
  | .inputEnded r => d.put r ((d.side r).endInput, [])

def run (u : Setup) (steps : List Step) : Dialogue := steps.foldl (step u) (start u)

theorem run_concat (u : Setup) (steps : List Step) (f : Step) :
    run u (steps ++ [f]) = step u (run u steps) f := by
  rw [run, List.foldl_append]
  rfl

/-! ## What is sent and what is shown -/

/-- The texts of typed lines, up to the quit word. -/
def texts (lines : List String) : List String :=
  (lines.map Text.trimLineEnd).takeWhile (· ≠ Chat.quitWord)

/-- The messages that a chat makes of typed lines. -/
def sendable (lines : List String) : List String :=
  (texts lines).filter fun text => text ≠ "" ∧ text.utf8ByteSize ≤ Chat.maxMessage

/-- The sizes of texts that are too long to be sent. -/
def oversized (lines : List String) : List Nat :=
  ((texts lines).map String.utf8ByteSize).filter (Chat.maxMessage < ·)

/-- The messages of an end. One at which its chat broke down was not sent. -/
def Side.sent (s : Side) : List String :=
  match s.stage with
  | .chatting chat =>
    if chat.result = some .encryptionFailed ∨ chat.result = some .transportFailed then
      sendable s.typed.dropLast
    else sendable s.typed
  | _ => []

/-- Messages among what is shown, each with its sender. -/
def messages (events : List ChatEvent) : List (String × String) :=
  events.filterMap fun
    | .message sender text => some (sender, text)
    | _ => none

/-- Sizes among what is shown. -/
def sizes (events : List ChatEvent) : List Nat :=
  events.filterMap fun
    | .messageTooLong size => some size
    | _ => none

end Dialogue

end PeerChat
