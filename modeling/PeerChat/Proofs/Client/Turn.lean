import PeerChat.Client.Run
import PeerChat.Proofs.Client.Listener

/-!
# A turn as the server sees it

Of all that a turn brings about, the server sees what is sent to it and when its connection begins
and ends.  Each way to change a turn is told by what it leaves of the client and what it adds for the
server.
-/

namespace PeerChat

/-- Whether an effect concerns the connection to the server. -/
def Effect.isServer : Effect → Bool
  | connectServer | sendServer _ | closeServer => true
  | _ => false

namespace Turn

/-- What a turn does to the connection to the server. -/
def toServer (t : Turn) : List Effect := t.effects.filter Effect.isServer

section Client

variable (t : Turn)

@[simp] theorem client_of (c : Client) : (of c).client = c := rfl

@[simp] theorem client_print (text : String) : (t.print text).client = t.client := rfl

@[simp] theorem client_printLine (text : String) : (t.printLine text).client = t.client := rfl

@[simp] theorem client_update (f : Client → Client) : (t.update f).client = f t.client := rfl

@[simp] theorem client_setStatus (status : Status) :
    (t.setStatus status).client = { t.client with status } := rfl

@[simp] theorem client_setTask (task : Task) :
    (t.setTask task).client = { t.client with task } := rfl

@[simp] theorem client_setDirect (direct : Option Direct) :
    (t.setDirect direct).client = { t.client with direct } := rfl

@[simp] theorem client_sendDirect (bytes : Bytes) : (t.sendDirect bytes).client = t.client := by
  unfold sendDirect
  split
  · split <;> rfl
  · rfl

@[simp] theorem client_closeDirect : t.closeDirect.client = { t.client with direct := none } := by
  obtain ⟨c, effects⟩ := t
  obtain ⟨settings, port, name, status, peers, inbox, link, direct, reception, typed, inputEnded,
    serverWritable, entropy, task⟩ := c
  cases direct with
  | none => rfl
  | some d => rfl

@[simp] theorem client_sendCommand (command : Command) : (t.sendCommand command).client = t.client := by
  unfold sendCommand
  split <;> rfl

theorem client_refreshPeers {t : Turn} {l : Link} (hl : t.client.link = some l)
    (hw : t.client.serverWritable = true) : t.refreshPeers.client = t.client := by
  unfold refreshPeers
  rw [if_pos (by rw [hl]; rfl), if_pos hw, client_sendCommand]

@[simp] theorem client_closeInbox : t.closeInbox.client = { t.client with inbox := none } := rfl

@[simp] theorem client_keepIncoming (rest : Bytes) : (t.keepIncoming rest).client =
    { t.client with direct := t.client.direct.map fun d => { d with incoming := rest } } := rfl

theorem foldl_receive (t : Turn) (effects : List Reception.Effect) :
    (effects.foldl
      (fun t e =>
        match e with
        | .deny id => (t.emit (.send (.caller id) (Negotiation.answer false))).emit
            (.close (.caller id))
        | .drop id => t.emit (.close (.caller id))) t).client = t.client ∧
    (effects.foldl
      (fun t e =>
        match e with
        | .deny id => (t.emit (.send (.caller id) (Negotiation.answer false))).emit
            (.close (.caller id))
        | .drop id => t.emit (.close (.caller id))) t).toServer = t.toServer := by
  induction effects generalizing t with
  | nil => exact ⟨rfl, rfl⟩
  | cons e effects ih =>
    rw [List.foldl_cons]
    refine ⟨(ih _).1.trans ?_, (ih _).2.trans ?_⟩
    · cases e <;> rfl
    · cases e <;> simp [toServer, emit, Effect.isServer]

@[simp] theorem client_receive (outcome : Reception × List Reception.Effect) :
    (t.receive outcome).client = { t.client with reception := outcome.1 } :=
  (foldl_receive _ _).1

theorem foldl_printLine {α : Type} (text : α → String) (t : Turn) (items : List α) :
    (items.foldl (fun t item => t.printLine (text item)) t).client = t.client ∧
      (items.foldl (fun t item => t.printLine (text item)) t).toServer = t.toServer := by
  induction items generalizing t with
  | nil => exact ⟨rfl, rfl⟩
  | cons item items ih =>
    rw [List.foldl_cons]
    refine ⟨(ih _).1.trans rfl, (ih _).2.trans ?_⟩
    simp [toServer, printLine, print, emit, Effect.isServer]

@[simp] theorem client_printPeers (peers : List Peer) : (t.printPeers peers).client = t.client := by
  unfold printPeers
  split
  · rfl
  · exact (foldl_printLine Texts.peerItem _ peers).1

@[simp] theorem client_printEvents (events : List ChatEvent) :
    (t.printEvents events).client = t.client := (foldl_printLine Texts.chatEvent t events).1

end Client

section ToServer

variable (t : Turn)

@[simp] theorem toServer_of (c : Client) : (of c).toServer = [] := rfl

theorem toServer_emit (e : Effect) :
    (t.emit e).toServer = t.toServer ++ [e].filter Effect.isServer := List.filter_append ..

@[simp] theorem toServer_connectServer :
    (t.emit .connectServer).toServer = t.toServer ++ [.connectServer] := toServer_emit t _

@[simp] theorem toServer_sendServer (bytes : Bytes) :
    (t.emit (.sendServer bytes)).toServer = t.toServer ++ [.sendServer bytes] := toServer_emit t _

@[simp] theorem toServer_closeServer :
    (t.emit .closeServer).toServer = t.toServer ++ [.closeServer] := toServer_emit t _

@[simp] theorem toServer_print (text : String) : (t.print text).toServer = t.toServer :=
  (toServer_emit t _).trans (List.append_nil _)

@[simp] theorem toServer_printLine (text : String) : (t.printLine text).toServer = t.toServer :=
  toServer_print t _

@[simp] theorem toServer_listen (port : UInt16) : (t.emit (.listen port)).toServer = t.toServer :=
  (toServer_emit t _).trans (List.append_nil _)

@[simp] theorem toServer_dial (endpoint : Endpoint) :
    (t.emit (.dial endpoint)).toServer = t.toServer :=
  (toServer_emit t _).trans (List.append_nil _)

@[simp] theorem toServer_send (party : Party) (bytes : Bytes) :
    (t.emit (.send party bytes)).toServer = t.toServer :=
  (toServer_emit t _).trans (List.append_nil _)

@[simp] theorem toServer_close (party : Party) : (t.emit (.close party)).toServer = t.toServer :=
  (toServer_emit t _).trans (List.append_nil _)

@[simp] theorem toServer_update (f : Client → Client) : (t.update f).toServer = t.toServer := rfl

@[simp] theorem toServer_setStatus (status : Status) : (t.setStatus status).toServer = t.toServer :=
  rfl

@[simp] theorem toServer_setTask (task : Task) : (t.setTask task).toServer = t.toServer := rfl

@[simp] theorem toServer_setLink (link : Option Link) : (t.setLink link).toServer = t.toServer := rfl

@[simp] theorem toServer_setInbox (inbox : Option Inbox) : (t.setInbox inbox).toServer = t.toServer :=
  rfl

@[simp] theorem toServer_setDirect (direct : Option Direct) :
    (t.setDirect direct).toServer = t.toServer := rfl

@[simp] theorem toServer_sendDirect (bytes : Bytes) : (t.sendDirect bytes).toServer = t.toServer := by
  unfold sendDirect
  split
  · split
    · exact toServer_send t _ _
    · rfl
  · rfl

@[simp] theorem toServer_closeDirect : t.closeDirect.toServer = t.toServer := by
  unfold closeDirect
  split
  · rw [toServer_setDirect, toServer_close]
  · rfl

@[simp] theorem toServer_closeInbox : t.closeInbox.toServer = t.toServer ++ [.closeServer] :=
  toServer_closeServer t

@[simp] theorem toServer_keepIncoming (rest : Bytes) :
    (t.keepIncoming rest).toServer = t.toServer := rfl

@[simp] theorem toServer_receive (outcome : Reception × List Reception.Effect) :
    (t.receive outcome).toServer = t.toServer := (foldl_receive _ _).2

@[simp] theorem toServer_printPeers (peers : List Peer) :
    (t.printPeers peers).toServer = t.toServer := by
  unfold printPeers
  split
  · exact toServer_printLine t _
  · exact ((foldl_printLine Texts.peerItem _ peers).2).trans (toServer_printLine t _)

@[simp] theorem toServer_printEvents (events : List ChatEvent) :
    (t.printEvents events).toServer = t.toServer := (foldl_printLine Texts.chatEvent t events).2

end ToServer

end Turn

end PeerChat
