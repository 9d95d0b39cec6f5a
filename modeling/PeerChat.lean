import PeerChat.Bytes
import PeerChat.Cipher.Aead
import PeerChat.Cipher.ChaCha20
import PeerChat.Cipher.Poly1305
import PeerChat.Client.Basic
import PeerChat.Client.Link
import PeerChat.Client.Listener
import PeerChat.Client.Moves
import PeerChat.Client.Reception
import PeerChat.Client.Run
import PeerChat.Client.Status
import PeerChat.Client.Target
import PeerChat.Client.Texts
import PeerChat.Client.Update
import PeerChat.CommandLine
import PeerChat.Directory
import PeerChat.Hash.Keccak
import PeerChat.Hash.Sha256
import PeerChat.Kem.Basic
import PeerChat.Kem.MlKem512
import PeerChat.Kem.MlKem512.Encoding
import PeerChat.Kem.MlKem512.Encryption
import PeerChat.Kem.MlKem512.Poly
import PeerChat.Kem.MlKem512.Sampling
import PeerChat.Main
import PeerChat.Net.Address
import PeerChat.Net.Numbers
import PeerChat.Net.Resolve
import PeerChat.Server.Basic
import PeerChat.Server.Console
import PeerChat.Server.Lines
import PeerChat.Session.Chat
import PeerChat.Session.Error
import PeerChat.Session.Handshake
import PeerChat.Session.Keys
import PeerChat.Session.Negotiation
import PeerChat.Session.Nonces
import PeerChat.Session.Sealed
import PeerChat.Stream.Frame
import PeerChat.Stream.Line
import PeerChat.Terminal
import PeerChat.Text.Blank
import PeerChat.Text.Decimal
import PeerChat.Text.Extending
import PeerChat.Text.Quoted
import PeerChat.Text.Unprintable
import PeerChat.Text.Utf8
import PeerChat.Wire.Announcement
import PeerChat.Wire.CallMessage
import PeerChat.Wire.Command
import PeerChat.Wire.Error
import PeerChat.Wire.Peer
import PeerChat.Wire.ServerMessage
import PeerChat.Proofs.Directory
import PeerChat.Proofs.Server.Roll
import PeerChat.Proofs.Server.Registry
import PeerChat.Proofs.Stream.Line
import PeerChat.Proofs.Cipher.Aead
import PeerChat.Proofs.Session.Negotiation
import PeerChat.Proofs.Stream.Frame
import PeerChat.Proofs.Session.Chat
import PeerChat.Proofs.Session.Handshake
import PeerChat.Session.Dialogue
import PeerChat.Proofs.Session.Talk
import PeerChat.Proofs.Session.Phases
import PeerChat.Proofs.Session.Joining
import PeerChat.Proofs.Kem.Encoding
import PeerChat.Proofs.Session.Dialogue
import PeerChat.Proofs.Net.Address
import PeerChat.Proofs.Wire.Peer
import PeerChat.Proofs.Wire.Command
import PeerChat.Proofs.Wire.Announcement
import PeerChat.Proofs.Client.Listener
import PeerChat.Proofs.Client.Inbox
import PeerChat.Proofs.Client.Turn
import PeerChat.Proofs.Client.Deed
import PeerChat.Proofs.Client.Moves
import PeerChat.Network
import PeerChat.Proofs.Server.Jobs
import PeerChat.Proofs.Network.Knowledge
import PeerChat.Proofs.Network.Stage
import PeerChat.Proofs.Network.Basic
import PeerChat.Proofs.Network.Invariant
import PeerChat.Proofs.Network.Clients
import PeerChat.Proofs.Network.Handlers
import PeerChat.Proofs.Network.Reading
import PeerChat.Proofs.Network.Run
import PeerChat.Proofs.Network.Discovery
import PeerChat.Proofs.Network.Return
import PeerChat.Proofs.Network.Alone
import PeerChat.Proofs.Session.Nonces
import PeerChat.Proofs.Session.Opening
import PeerChat.Proofs.Session.Hearing
import PeerChat.Client.Attendant
import PeerChat.Exchange
import PeerChat.Proofs.Client.Calling
import PeerChat.Proofs.Exchange.Basic
import PeerChat.Proofs.Exchange.Run
import PeerChat.Proofs.Exchange.Waiting
import PeerChat.Proofs.Wire.Transcript
import PeerChat.Session.KeyExchange
import PeerChat.Proofs.Session.KeyExchange
import PeerChat.Client.Course
import PeerChat.Proofs.Client.Course
import PeerChat.Proofs.Client.Lifecycle
import PeerChat.Crowd
import PeerChat.Proofs.Crowd.Losses
import PeerChat.Proofs.Crowd.Terms
import PeerChat.Proofs.Crowd.Invariant
import PeerChat.Proofs.Crowd.Clients
import PeerChat.Proofs.Crowd.Handlers
import PeerChat.Proofs.Crowd.Run
import PeerChat.Directory.Operations
import PeerChat.Proofs.Directory.History
import PeerChat.Proofs.Text.Words
import PeerChat.Proofs.Wire.Language
import PeerChat.Proofs.Server.Steps
import PeerChat.Proofs.Server.Replies
import PeerChat.Proofs.Server.Visitors
import PeerChat.Client.ReadLoop
import PeerChat.Proofs.Client.Folding
import PeerChat.Client.Incidents
import PeerChat.Proofs.Client.Incidents
import PeerChat.Proofs.Client.Speech
import PeerChat.Proofs.Client.Registration
import PeerChat.Proofs.Client.Away
import PeerChat.Proofs.Client.Venture
import PeerChat.Lobby
import PeerChat.Proofs.Client.Hosting
import PeerChat.Proofs.Client.Receiving
import PeerChat.Proofs.Lobby.Standings
import PeerChat.Proofs.Lobby.Basic
import PeerChat.Proofs.Lobby.Run
import PeerChat.Proofs.Lobby.Answers
import PeerChat.Proofs.Outbox.Accounts
import PeerChat.Proofs.Outbox.Veil
import PeerChat.Proofs.Outbox.Notices
import PeerChat.Proofs.Outbox.Handlers
import PeerChat.Proofs.Outbox.Draining
import PeerChat.Proofs.Outbox.Welcome
import PeerChat.Proofs.Outbox.Slow
import PeerChat.Proofs.Client.Listing
import PeerChat.Proofs.Client.Target
import PeerChat.Proofs.Client.Prompt
