import PeerChat.Client.Basic

/-!
# What a client prints

Every text that a client shows, in the words of its user.
-/

namespace PeerChat

namespace Texts

def help : String := "Type a username to chat, 'list' to refresh peers, 'exit' to quit."

def askPort : String := "Enter your listening port: "

def badPort : String := "Please enter a port between 1 and 65535."

def askName : String := "Enter your username: "

def badName : String :=
  "Usernames are 1 to " ++ toString maxNameSize ++ " characters with no spaces."

def askEndpoint : String := "Enter '<ip> <port>' to connect, or 'exit': "

def anonymousMode : String := "Anonymous mode: you are not listed and will not receive requests."

def goodbye : String := "Goodbye."

def registeredAs (name : String) : String := "Registered as " ++ name ++ "."

def nameTaken : String := "Username taken, please choose another."

def registrationRejected (reason : Update) : String :=
  "Rendezvous server rejected registration: " ++ reason.text

def discoverableAgain (name : String) : String := "You are discoverable again as " ++ name ++ "."

def nameLost (name : String) : String :=
  "Username " ++ name ++ " was taken while you were chatting; you are no longer discoverable."

def reregistrationRefused (reason : Update) : String :=
  "Rendezvous server refused re-registration: " ++ reason.text

def serverOutOfReach : String :=
  "Could not reach the rendezvous server; you are no longer discoverable."

def serverLost : String :=
  "Lost connection to the rendezvous server; you are no longer discoverable."

def newcomer (name : String) : String := "New peer connected: " ++ name

def serverSays (update : Update) : String := "Server: " ++ update.text

def noPeers : String := "No other peers are online."

def peersTitle : String := "Available peers:"

def peerItem (p : Peer) : String :=
  "  " ++ p.name ++ " (" ++ p.address.text ++ ":" ++ toString p.port.toNat ++ ")"

def staleList : String := "(not registered; this list may be stale)"

def ownName : String := "You cannot connect to yourself."

def unknownPeer (name : String) : String :=
  "No peer named " ++ name ++ " in the list. Type 'list' to refresh."

def unreachable (name : String) : String := "Peer " ++ name ++ " is unreachable."

def invalidTarget (cause : WireError) : String := "Invalid target: " ++ cause.message

def cannotConnect (target : String) (cause : Failure) : String :=
  "Could not connect to " ++ target ++ ": " ++ cause.message

def accepted (target : String) : String := target ++ " accepted your request."

def denied : String := "Connection request denied."

def requestFailed (target : String) (cause : Failure) : String :=
  "Connection request to " ++ target ++ " failed: " ++ cause.message

def incomingCall (call : Call) : String :=
  "Incoming connection request from " ++ call.name ++ " (" ++ call.address.text ++
    "). Accept? (y/n): "

def askAgain : String := "Please answer y or n: "

def deniedCall (name : String) : String := "Denied connection from " ++ name ++ "."

def callerLost (name : String) (cause : Failure) : String :=
  "Lost connection to " ++ name ++ ": " ++ cause.message

def keyExchangeFailed (remote : String) : String := "Key exchange with " ++ remote ++ " failed."

def sessionOpen (remote : String) : String := "Secure session established with " ++ remote ++ "."

def fingerprint (keys : SessionKeys) (remote : String) : String :=
  "Session fingerprint: " ++ keys.fingerprint ++ " (compare it with " ++ remote ++ " out of band)"

def staticNonces : String := "Warning: static nonce mode reuses one nonce for every message."

def howToChat : String :=
  "Type a message and press Enter. Type " ++ Chat.quitWord ++ " to leave the chat."

def chatEvent : ChatEvent → String
  | .message sender text => sender ++ ": " ++ text
  | .closed peer => "Connection closed by " ++ peer ++ "."
  | .decryptionFailed peer => "Decryption failed; closing the session with " ++ peer ++ "."
  | .messageTooLong size =>
    "Message too long (" ++ toString size ++ " bytes, limit " ++ toString Chat.maxMessage ++
      "); not sent."

def leftChat (remote : String) : String := "You left the chat with " ++ remote ++ "."

def encryptionFailed : String := "Encryption failed; the session was closed."

end Texts

namespace Turn

def printPeers (t : Turn) (peers : List Peer) : Turn :=
  if peers.isEmpty then t.printLine Texts.noPeers
  else peers.foldl (fun t p => t.printLine (Texts.peerItem p)) (t.printLine Texts.peersTitle)

def printEvents (t : Turn) (events : List ChatEvent) : Turn :=
  events.foldl (fun t e => t.printLine (Texts.chatEvent e)) t

end Turn

end PeerChat
