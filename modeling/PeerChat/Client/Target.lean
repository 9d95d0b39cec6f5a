import PeerChat.Wire.Peer

/-!
# Whom to call

A target is a name on the list as it is known. Nobody can call themselves.
-/

namespace PeerChat

inductive TargetError where
  | ownName
  | unknown (name : String)
  deriving DecidableEq, Repr

def TargetError.message : TargetError → String
  | ownName => "you cannot connect to yourself"
  | unknown name => "no peer named " ++ Text.quoted name ++ " in the current list"

/-- The endpoint of the first peer of that name. -/
def resolveTarget (peers : List Peer) (own target : String) : Except TargetError Endpoint :=
  if target = own then .error .ownName
  else match peers.find? fun p => p.name = target with
    | some p => .ok p.endpoint
    | none => .error (.unknown target)

end PeerChat
