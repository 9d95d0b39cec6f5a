import PeerChat.Directory

/-!
# Operations on the directory

All that can be asked of a directory, one operation after another, and what each answers.  A history
is any list of operations; an entry stands in it from a registration that succeeded until something
strikes it off.
-/

namespace PeerChat.Directory

inductive Operation where
  | register (peer : Peer)
  | registerOwned (peer : Peer) (owner : OwnerId)
  | remove (name : String)
  /-- Removes the entry of a name if it has this owner. -/
  | removeOwned (name : String) (owner : OwnerId)
  | list (except : Option String)
  | contains (name : String)
  | size
  deriving DecidableEq, Repr

inductive Answer where
  /-- The peer is entered; these are the others. -/
  | entered (others : List Peer)
  | refused (cause : DirectoryError)
  | whether (holds : Bool)
  | listed (peers : List Peer)
  | counted (n : Nat)
  deriving DecidableEq, Repr

/-- A refused peer changes nothing. -/
def enter (d : Directory) (peer : Peer) (owner : Option OwnerId) : Answer × Directory :=
  match d.insert peer owner with
  | .ok (d, others) => (.entered others, d)
  | .error cause => (.refused cause, d)

def perform (d : Directory) : Operation → Answer × Directory
  | .register peer => d.enter peer none
  | .registerOwned peer owner => d.enter peer (some owner)
  | .remove name => (.whether (d.contains name), d.erase name)
  | .removeOwned name owner => (.whether (d.isOwnedBy name owner), d.eraseOwned name owner)
  | .list except => (.listed (d.peers except), d)
  | .contains name => (.whether (d.contains name), d)
  | .size => (.counted d.size, d)

def run (d : Directory) (history : List Operation) : Directory :=
  history.foldl (fun d op => (d.perform op).2) d

theorem run_concat (d : Directory) (history : List Operation) (op : Operation) :
    d.run (history ++ [op]) = ((d.run history).perform op).2 := by
  rw [run, List.foldl_append]
  rfl

namespace Operation

/-- What a registration would enter. -/
def enters? : Operation → Option Entry
  | register peer => some ⟨peer, none⟩
  | registerOwned peer owner => some ⟨peer, some owner⟩
  | _ => none

/-- A removal that an entry has to go for. -/
def Strikes (e : Entry) : Operation → Prop
  | remove name => e.peer.name = name
  | removeOwned name owner => e.peer.name = name ∧ e.owner = some owner
  | _ => False

def IsRemoval : Operation → Prop
  | remove _ | removeOwned _ _ => True
  | _ => False

end Operation

/-- Some registration of the entry succeeded, and nothing has struck it off since. -/
def Stands (d : Directory) (history : List Operation) (e : Entry) : Prop :=
  ∃ before op later others, history = before ++ op :: later ∧ op.enters? = some e ∧
    ((d.run before).perform op).1 = .entered others ∧ ∀ g ∈ later, ¬ g.Strikes e

end PeerChat.Directory
