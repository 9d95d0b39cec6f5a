import PeerChat.Text.Quoted

/-!
# Wire errors

What can be wrong with a line, a frame or a reply, and how each fault is told.
-/

namespace PeerChat

inductive WireError where
  | empty
  | unknownCommand (word : String)
  | malformed (what : String)
  | invalidName (name : String)
  | invalidPort (text : String)
  | invalidAddress (text : String)
  | lineTooLong (limit : Nat)
  | frameTooLarge (size limit : Nat)
  | unexpectedReply (reply : String)
  deriving DecidableEq, Repr

namespace WireError

def message : WireError → String
  | empty => "empty command"
  | unknownCommand word => "unknown command: " ++ word
  | malformed what => "malformed " ++ what ++ " command"
  | invalidName name => "invalid username: " ++ Text.quoted name
  | invalidPort text => "invalid port: " ++ Text.quoted text
  | invalidAddress text => "invalid address: " ++ Text.quoted text
  | lineTooLong limit => "line exceeds " ++ toString limit ++ " bytes"
  | frameTooLarge size limit =>
    "frame of " ++ toString size ++ " bytes exceeds " ++ toString limit ++ " bytes"
  | unexpectedReply reply => "unexpected reply: " ++ Text.quoted reply

/-- The cause and its data, as shown when it ends the program. -/
def details : WireError → String
  | empty => "Empty"
  | unknownCommand word => "UnknownCommand(" ++ Text.quoted word ++ ")"
  | malformed what => "Malformed \x7b command: " ++ Text.quoted what ++ " \x7d"
  | invalidName name => "InvalidUsername(" ++ Text.quoted name ++ ")"
  | invalidPort text => "InvalidPort(" ++ Text.quoted text ++ ")"
  | invalidAddress text => "InvalidAddress(" ++ Text.quoted text ++ ")"
  | lineTooLong limit => "LineTooLong \x7b limit: " ++ toString limit ++ " \x7d"
  | frameTooLarge size limit =>
    "FrameTooLarge \x7b len: " ++ toString size ++ ", limit: " ++ toString limit ++ " \x7d"
  | unexpectedReply reply => "UnexpectedReply(" ++ Text.quoted reply ++ ")"

end WireError

end PeerChat
