import PeerChat.Server.Basic

/-!
# The operator's console

What the operator of the rendezvous server can type, and what is printed.
-/

namespace PeerChat.Server

def banner (port : String) : String := "Rendezvous server listening on 0.0.0.0:" ++ port ++ "\n"

/-- What one line on the console prints. -/
def consoleLine (s : Server) (line : String) : String :=
  match Text.trim line with
  | "" => ""
  | "showpeer" => s.directory.report
  | _ => "Unknown command.\n"

end PeerChat.Server
