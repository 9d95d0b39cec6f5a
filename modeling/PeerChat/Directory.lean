import PeerChat.Text.Utf8
import PeerChat.Wire.Peer

/-!
# The directory

Who can be called: at most one entry for each name, in ascending order of the names' bytes, and
never more than the capacity. An entry remembers its owner, so that only the owner's leaving takes
it away and not a later one's under the same name.
-/

namespace PeerChat

abbrev OwnerId := Nat

structure Entry where
  peer : Peer
  owner : Option OwnerId
  deriving DecidableEq, Repr

inductive DirectoryError where
  | nameTaken (name : String)
  | full (capacity : Nat)
  deriving DecidableEq, Repr

def DirectoryError.message : DirectoryError → String
  | nameTaken name => "username " ++ Text.quoted name ++ " is already registered"
  | full capacity => "registry is full (" ++ toString capacity ++ " peers)"

structure Directory where
  capacity : Nat
  entries : List Entry
  deriving DecidableEq, Repr

namespace Directory

def defaultCapacity : Nat := 100

def empty (capacity : Nat) : Directory := ⟨capacity, []⟩

def size (d : Directory) : Nat := d.entries.length

def find? (d : Directory) (name : String) : Option Entry :=
  d.entries.find? fun e => e.peer.name = name

def contains (d : Directory) (name : String) : Bool := (d.find? name).isSome

/-- The peers in the directory, except one of the given name. -/
def peers (d : Directory) (except : Option String) : List Peer :=
  (d.entries.map (·.peer)).filter fun p => some p.name ≠ except

/-- Puts an entry before the first one with a greater name. -/
def place (entry : Entry) : List Entry → List Entry
  | [] => [entry]
  | e :: later =>
    if Utf8.encode entry.peer.name < Utf8.encode e.peer.name then entry :: e :: later
    else e :: place entry later

/-- Enters a peer under a free name, and tells who else is there. -/
def insert (d : Directory) (peer : Peer) (owner : Option OwnerId) :
    Except DirectoryError (Directory × List Peer) :=
  if d.contains peer.name then .error (.nameTaken peer.name)
  else if d.capacity ≤ d.size then .error (.full d.capacity)
  else
    let d : Directory := { d with entries := place ⟨peer, owner⟩ d.entries }
    .ok (d, d.peers (some peer.name))

def erase (d : Directory) (name : String) : Directory :=
  { d with entries := d.entries.filter fun e => e.peer.name ≠ name }

def isOwnedBy (d : Directory) (name : String) (owner : OwnerId) : Bool :=
  match d.find? name with
  | some e => e.owner = some owner
  | none => false

/-- Erases an entry only for its owner. -/
def eraseOwned (d : Directory) (name : String) (owner : OwnerId) : Directory :=
  if d.isOwnedBy name owner then d.erase name else d

/-- The report for the operator. -/
def report (d : Directory) : String :=
  (d.peers none).foldl (fun text p => text ++ p.line ++ "\n") "Discoverable peers:\n"

end Directory

end PeerChat
