import PeerChat.Client.Basic
import PeerChat.Server.Basic

/-!
# The command line

What the program is asked to do: to be the rendezvous server, or a client, or to say its version.
Options are long words or clusters of letters; each may be given once.
-/

namespace PeerChat

inductive Invocation where
  | version
  | help
  /-- The arguments make no sense. -/
  | misuse
  | server (port : UInt16)
  | client (server : String) (settings : Settings)

namespace CommandLine

def versionText : String := "pqlink 0.1.0\n"

def usage : String :=
  "Usage: pqlink [-v] server [-p PORT]\n" ++
  "       pqlink [-v] client [-s SERVER] [-u USERNAME] [-l LISTEN_PORT] [--static-nonce]\n" ++
  "       pqlink [-v] client [-s SERVER] -a [--static-nonce]\n"

def defaultServer : String := "127.0.0.1:5453"

inductive Flag where
  | verbose
  | help
  | version
  | serverPort
  | serverAddress
  | name
  | listenPort
  | anonymous
  | staticNonces
  deriving DecidableEq, Repr

/-- Whose options are being read. -/
inductive Level where
  | program
  | server
  | client
  deriving DecidableEq, Repr

def Flag.takesValue : Flag → Bool
  | serverPort | serverAddress | name | listenPort => true
  | verbose | help | version | anonymous | staticNonces => false

def flagOfWord? (level : Level) (word : String) : Option Flag :=
  match level, word with
  | _, "verbose" => some .verbose
  | _, "help" => some .help
  | .program, "version" => some .version
  | .server, "port" => some .serverPort
  | .client, "server" => some .serverAddress
  | .client, "username" => some .name
  | .client, "listen-port" => some .listenPort
  | .client, "anonymous" => some .anonymous
  | .client, "static-nonce" => some .staticNonces
  | _, _ => none

def flagOfLetter? (level : Level) (letter : Char) : Option Flag :=
  match level, letter with
  | _, 'v' => some .verbose
  | _, 'h' => some .help
  | .program, 'V' => some .version
  | .server, 'p' => some .serverPort
  | .client, 's' => some .serverAddress
  | .client, 'u' => some .name
  | .client, 'l' => some .listenPort
  | .client, 'a' => some .anonymous
  | _, _ => none

/-- A port on the command line may be zero, even negative zero. -/
def readPort? (s : String) : Option UInt16 :=
  match s.toList with
  | '-' :: digits => (Decimal.readDigits? 1 digits).map UInt16.ofNat
  | _ => (Decimal.read? 65536 s).map UInt16.ofNat

/-- The options read so far, with their values. -/
abbrev Given := List (Flag × String)

def isGiven (given : Given) (flag : Flag) : Bool := given.any (·.1 = flag)

/-- Why reading stops before the end. -/
inductive Stop where
  | version
  | help
  | misuse
  deriving DecidableEq, Repr

def Stop.toInvocation : Stop → Invocation
  | version => .version
  | help => .help
  | misuse => .misuse

def isValue (flag : Flag) (value : String) : Bool :=
  match flag with
  | .serverPort | .listenPort => (readPort? value).isSome
  | _ => true

/-- Takes down one option. -/
def give (given : Given) (flag : Flag) (value : String) : Except Stop Given :=
  match flag with
  | .help => .error .help
  | .version => .error .version
  | _ =>
    if isGiven given flag || !isValue flag value then .error .misuse
    else .ok (given ++ [(flag, value)])

/-- What one argument gives: options, of which the last may still need its value. -/
structure Reading where
  given : Given
  awaiting : Option Flag

def readWord (level : Level) (given : Given) (word : List Char) : Except Stop Reading :=
  let (name, rest) := word.span (· ≠ '=')
  match flagOfWord? level (String.ofList name), rest with
  | none, _ => .error .misuse
  | some flag, [] =>
    if flag.takesValue then .ok ⟨given, some flag⟩
    else do return ⟨← give given flag "", none⟩
  | some flag, _ :: value =>
    if flag.takesValue then do return ⟨← give given flag (String.ofList value), none⟩
    else .error .misuse

/-- Letters without values can stand together; a value may follow its letter at once. -/
def readLetters (level : Level) (given : Given) : List Char → Except Stop Reading
  | [] => .ok ⟨given, none⟩
  | letter :: rest =>
    match flagOfLetter? level letter with
    | none => .error .misuse
    | some flag =>
      if flag.takesValue then
        match rest with
        | [] => .ok ⟨given, some flag⟩
        | '=' :: value => do return ⟨← give given flag (String.ofList value), none⟩
        | value => do return ⟨← give given flag (String.ofList value), none⟩
      else do readLetters level (← give given flag "") rest

/-- Whether an argument would be read as an option. -/
def looksLikeOption (arg : String) : Bool :=
  match arg.toList with
  | '-' :: _ :: _ => true
  | _ => false

def readOption (level : Level) (given : Given) (arg : String) : Except Stop Reading :=
  match arg.toList with
  | '-' :: '-' :: word => readWord level given word
  | _ :: letters => readLetters level given letters
  | [] => .error .misuse

def valueOf? (given : Given) (flag : Flag) : Option String := given.lookup flag

/-- What a complete command line of one level asks for. -/
def conclude (level : Level) (given : Given) : Invocation :=
  match level with
  | .program => .misuse
  | .server =>
    .server (((valueOf? given .serverPort).bind readPort?).getD Server.defaultPort)
  | .client =>
    if isGiven given .anonymous && (isGiven given .name || isGiven given .listenPort) then .misuse
    else .client ((valueOf? given .serverAddress).getD defaultServer)
      { name := valueOf? given .name
        port := (valueOf? given .listenPort).bind readPort?
        anonymous := isGiven given .anonymous
        mode := if isGiven given .staticNonces then .static else .counter }

/-- The arguments behind the word that asks for help: nothing, or what it is asked about. -/
def concludeHelp : List String → Invocation
  | [] | ["server"] | ["client"] | ["help"] => .help
  | _ => .misuse

def read (level : Level) (given : Given) : List String → Invocation
  | [] => conclude level given
  | arg :: rest =>
    if arg = "--" then if rest.isEmpty then conclude level given else .misuse
    else if looksLikeOption arg then
      match readOption level given arg with
      | .error stop => stop.toInvocation
      | .ok ⟨given, none⟩ => read level given rest
      | .ok ⟨given, some flag⟩ =>
        match rest with
        | [] => .misuse
        | value :: rest =>
          if looksLikeOption value then .misuse
          else match give given flag value with
            | .error stop => stop.toInvocation
            | .ok given => read level given rest
    else match level, arg with
      | .program, "server" => read .server [] rest
      | .program, "client" => read .client [] rest
      | .program, "help" => concludeHelp rest
      | _, _ => .misuse

end CommandLine

/-- What the arguments of the program ask for. -/
def Invocation.ofArgs (args : List String) : Invocation := CommandLine.read .program [] args

end PeerChat
