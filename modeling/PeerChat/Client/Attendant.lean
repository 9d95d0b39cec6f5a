import PeerChat.Client.Reception

/-!
# The attendant of a call

Every connection that a client takes has an attendant, who reads the request, tests whether the
client is busy, and brings the request into the queue or denies it. Anything can happen between two
of these steps. An attendant who is left alone comes to what `Reception.attend` does at once.
-/

namespace PeerChat

inductive Attendant where
  | reading (caller : Caller)
  /-- The request is complete, and the busy test is next. -/
  | testing (call : Call)
  /-- The busy test is passed, and there may be no room in the queue yet. -/
  | entering (call : Call)
  | denying (call : Call)
  | done
  deriving DecidableEq, Repr

def Reception.enqueue (r : Reception) (call : Call) : Reception := { r with queue := r.queue ++ [call] }

namespace Attendant

/-- The next step, with what becomes of the reception and of the caller. -/
def step (busy : Bool) (r : Reception) :
    Attendant → Attendant × Reception × List Reception.Effect
  | .reading c =>
    match Negotiation.readRequest c.ended c.incoming with
    | .waiting => (.reading c, r, [])
    | .failed _ => (.done, r, [.drop c.id])
    | .done (name, rest) => (.testing ⟨c.id, c.address, name, rest, c.ended⟩, r, [])
  | .testing call => (if busy then .denying call else .entering call, r, [])
  | .entering call =>
    if r.isClosed then (.denying call, r, [])
    else if r.queue.length < r.capacity then (.done, r.enqueue call, [])
    else (.entering call, r, [])
  | .denying call => (.done, r, [.deny call.caller])
  | .done => (.done, r, [])

/-- What a caller sends stays with the request. -/
def receive (bytes : Bytes) (ended : Bool) : Attendant → Attendant
  | .reading c =>
    .reading { c with incoming := c.incoming ++ bytes, ended := c.ended || ended }
  | .testing call => .testing (keep call)
  | .entering call => .entering (keep call)
  | .denying call => .denying (keep call)
  | .done => .done
where
  keep (call : Call) : Call :=
    { call with incoming := call.incoming ++ bytes, ended := call.ended || ended }

/-- Whether the attendant holds a request that has passed the busy test. -/
def isEntering : Attendant → Bool
  | .entering _ => true
  | _ => false

end Attendant

end PeerChat
