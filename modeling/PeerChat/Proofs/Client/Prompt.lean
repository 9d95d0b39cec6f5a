import PeerChat.Proofs.Client.Incidents
import PeerChat.Proofs.Client.Moves
import PeerChat.Proofs.Client.Target

/-!
# Names at the main prompt

A client only knows peers by proper names, whatever it has met with (`Client.Reachable.consistent`).  So
a name that is typed at the main prompt is read as it is listed, and the peer is called at once, unless
the word means something else there: nobody can call a peer whose name is on the menu
(`calls_iff_not_mem_menu`).
-/

namespace PeerChat

/-! ## Every run -/

/-- Nobody takes calls on port zero. -/
def Incident.isPossible : Incident → Bool
  | .act (.event (.listening port)) => port ≠ 0
  | _ => true

/-- Whoever waits for the server to be reached also hears that it cannot be. -/
theorem Task.awaits_serverUnreachable (task : Task) (cause : TransportError) :
    task.awaits (.serverUnreachable cause) = task.awaits .serverConnected := by
  cases task <;> rfl

variable {c : Client} {x : Incident}

/-- To take something down changes nothing about what a client has at its task. -/
theorem Turn.Listens.consistent {t : Turn} (h : t.Listens c x) (hc : c.Consistent) :
    t.client.Consistent := by
  refine ⟨h.peers ▸ hc.peers, fun l hl => ?_, ?_⟩
  · rw [h.link] at hl
    obtain ⟨m, hm, rfl⟩ := Option.map_eq_some_iff.mp hl
    exact (hc.links m hm).meet x
  · have hcore : t.client.core = { c.core with
        inbox := c.inbox.map (·.meet x)
        link := c.link.map (·.meet x)
        serverWritable := t.client.serverWritable } := by
      simp only [Client.core, h.settings, h.port, h.name, h.peers, h.inbox, h.link]
    rw [hcore, h.task, h.status]
    exact (hc.fits.map (·.meet x) fun l => l.name_meet x).of_writable _

namespace Client

theorem does_onDirectFailed (hc : c.Consistent) (cause : TransportError) :
    Does c [] (c.onDirectFailed cause) := by
  have hk := Turn.Keeps.of c
  unfold onDirectFailed
  simp only []
  split
  · rename_i target ht
    exact does_concludeAsking hk hc (hc.courting (.inl ht)) target _
  · rename_i remote key ht
    exact does_failKeyExchange hk hc (hc.engaged (.inl ⟨remote, key, ht⟩)) remote
  · rename_i remote ht
    exact does_failKeyExchange hk hc (hc.engaged (.inr (.inl ⟨remote, ht⟩))) remote
  · rename_i chat ht
    exact does_continueChat (hk.printEvents _) hc (hc.engaged (.inr (.inr ⟨chat, ht⟩))) _
  · exact hk.still hc rfl rfl

theorem stand_of_awaits_connected (h : c.task.awaits .serverConnected = true) : c.stand = .reaching := by
  unfold stand
  cases ht : c.task <;> rw [ht] at h <;> first | rfl | exact absurd h (by simp [Task.awaits])

theorem Consistent.meet (hc : c.Consistent) (hx : x.isPossible = true) :
    (c.meet x).client.Consistent := by
  cases c.meeting x with
  | hears listens => exact listens.consistent hc
  | moves mem move turn =>
    rw [turn]
    exact (does_of_move hc move).consistent
  | loses mem => exact (does_onDirectFailed hc _).consistent
  | @heeds e awaited =>
    cases e with
    | serverConnected => exact (does_onServerConnected hc (stand_of_awaits_connected awaited)).2.consistent
    | serverUnreachable cause =>
      rw [Task.awaits_serverUnreachable] at awaited
      exact (onServerUnreachable_spec hc (stand_of_awaits_connected awaited) cause).1
    | listening port => exact (does_of_event (e := .listening port) hc hx).consistent
    | cannotListen cause | dialed | dialFailed cause => exact (does_of_event hc rfl).consistent
    | serverSent bytes | serverEnded | serverBroken | typed line | inputEnded | callerConnected id address
    | sent party bytes | ended party | broken party =>
      exact absurd awaited (by cases c.task <;> simp [Task.awaits])

/-- Where a client can come to, meeting with one thing after the other. -/
inductive Reachable : Client → Prop
  | start (settings : Settings) (entropy : Entropy) : Reachable (start settings entropy).client
  | meet {c : Client} (h : Reachable c) {x : Incident} (possible : x.isPossible = true) :
      Reachable (c.meet x).client

theorem Reachable.consistent (h : c.Reachable) : c.Consistent := by
  induction h with
  | start settings entropy => exact (start_spec settings entropy).1.toConsistent
  | meet h possible ih => exact ih.meet possible

theorem Reachable.meetAll {t : Turn} (h : t.client.Reachable) {world : List Incident}
    (hworld : ∀ x ∈ world, x.isPossible = true) : (t.meetAll world).client.Reachable := by
  induction world generalizing t with
  | nil => exact h
  | cons x world ih =>
    exact ih (t := t.meet x) (h.meet (hworld x (List.mem_cons_self ..)))
      fun y hy => hworld y (List.mem_cons_of_mem x hy)

/-! ## Words -/

/-- What means something else at the main prompt than the name of a peer. -/
def menu : List String := ["exit", "list", "help"]

/-- The line that is next at the main prompt names a peer, with blanks around the name. -/
structure Names (c : Client) (p : Peer) (later : List String) : Prop where
  task : c.task = .idle
  listed : p ∈ c.peers
  other : p.name ≠ c.name
  typed : ∃ before after : String, c.typed = (before ++ p.name ++ after) :: later ∧
    (∀ ch ∈ before.toList, Text.isBlank ch = true) ∧ ∀ ch ∈ after.toList, Text.isBlank ch = true

end Client

namespace Turn

/-- The endpoints that are called in a turn. -/
def dialed (t : Turn) : List Endpoint :=
  t.effects.filterMap fun
    | .dial endpoint => some endpoint
    | _ => none

/-- All that is done is to call one peer. -/
structure Calls (c : Client) (name : String) (endpoint : Endpoint) (t : Turn) : Prop where
  effects : t.effects = [.dial endpoint]
  client : t.client = { c with status := .negotiating, task := .dialing name }

section Dialed

variable {t : Turn}

theorem dialed_emit {e : Effect} (h : ∀ endpoint, e ≠ .dial endpoint) : (t.emit e).dialed = t.dialed := by
  rw [dialed, emit, List.filterMap_append, dialed]
  cases e with
  | dial endpoint => exact absurd rfl (h endpoint)
  | print text | listen port | connectServer | sendServer bytes | closeServer | send party bytes
  | close party => exact List.append_nil _

theorem dialed_printLine (text : String) : (t.printLine text).dialed = t.dialed := dialed_emit (by simp)

theorem dialed_sendCommand (command : Command) : (t.sendCommand command).dialed = t.dialed := by
  unfold sendCommand
  split
  · exact dialed_emit (by simp)
  · rfl

theorem dialed_withdraw : t.withdraw.dialed = t.dialed := by
  unfold withdraw
  split
  · exact (dialed_emit (by simp)).trans (dialed_sendCommand _)
  · rfl

theorem dialed_loseLink : t.loseLink.dialed = t.dialed :=
  (dialed_emit (by simp)).trans (dialed_printLine _)

theorem dialed_printPeers (peers : List Peer) : (t.printPeers peers).dialed = t.dialed := by
  have hfold : ∀ t : Turn, (peers.foldl (fun t p => t.printLine (Texts.peerItem p)) t).dialed = t.dialed := by
    induction peers with
    | nil => exact fun t => rfl
    | cons p peers ih => exact fun t => (ih _).trans (dialed_printLine _)
  unfold printPeers
  split
  · exact dialed_printLine _
  · exact (hfold _).trans (dialed_printLine _)

theorem dialed_refreshPeers : t.refreshPeers.dialed = t.dialed := by
  unfold refreshPeers
  split
  · split
    · exact dialed_sendCommand _
    · exact dialed_loseLink
  · exact (dialed_printLine _).trans (dialed_printPeers _)

theorem dialed_receive (outcome : Reception × List Reception.Effect) :
    (t.receive outcome).dialed = t.dialed := by
  obtain ⟨reception, effects⟩ := outcome
  unfold receive
  simp only []
  have hstart : (t.update fun c => { c with reception }).dialed = t.dialed := rfl
  rw [← hstart]
  generalize (t.update fun c => { c with reception }) = t
  induction effects generalizing t with
  | nil => rfl
  | cons e effects ih =>
    rw [List.foldl_cons, ih]
    cases e with
    | deny id => exact (dialed_emit (by simp)).trans (dialed_emit (by simp))
    | drop id => exact dialed_emit (by simp)

/-- Nobody is called for a word on the menu. -/
theorem dialed_obey {line : String} (h : Text.trim line ∈ Client.menu) :
    (t.obey line).dialed = t.dialed := by
  unfold obey
  split
  · rfl
  · exact (dialed_receive _).trans ((dialed_printLine _).trans dialed_withdraw)
  · exact dialed_refreshPeers
  · exact dialed_printLine _
  · rename_i hexit hlist hhelp
    simp only [Client.menu, List.mem_cons, List.not_mem_nil, or_false] at h
    rcases h with h | h | h
    · exact absurd h hexit
    · exact absurd h hlist
    · exact absurd h hhelp

/-- Any other word is taken for the name of a peer. -/
theorem obey_eq_dial {line : String} (hne : Text.trim line ≠ "") (h : Text.trim line ∉ Client.menu) :
    t.obey line = t.dial (Text.trim line) := by
  simp only [Client.menu, List.mem_cons, List.not_mem_nil, or_false, not_or] at h
  unfold obey
  split
  · exact absurd ‹_› hne
  · exact absurd ‹_› h.1
  · exact absurd ‹_› h.2.1
  · exact absurd ‹_› h.2.2
  · rfl

theorem calls_dial {c : Client} {target : String} {endpoint : Endpoint}
    (h : resolveTarget c.peers c.name target = .ok endpoint) :
    ((of c).dial target).Calls c target endpoint := by
  unfold dial
  rw [client_of, h]
  exact ⟨rfl, rfl⟩

end Dialed

end Turn

/-! ## Calling by name -/

namespace Client

variable {p : Peer} {later : List String}

theorem Names.keyboard (h : c.Names p later) (hc : c.Consistent) :
    ∃ line, Text.trim line = p.name ∧
      c.move? .keyboard = some ((Turn.of { c with typed := later }).obey line) := by
  obtain ⟨before, after, htyped, hbefore, hafter⟩ := h.typed
  refine ⟨_, Text.trim_padded (isWord_of_isName (hc.peers p h.listed)) hbefore hafter, ?_⟩
  have hwaits : c.awaitsLine = true := by rw [awaitsLine, h.task]
  rw [move?, moveKeyboard, if_pos hwaits, htyped]
  simp only [onLine, h.task]

/-- A name that is typed at the main prompt is called at once, and nothing else is done, if it is not on the
menu; otherwise nobody is called.  It is the listed peer itself that is called wherever the names of the
list are told apart. -/
theorem calls_iff_not_mem_menu (hr : c.Reachable) (h : c.Names p later) :
    ∃ t, c.move? .keyboard = some t ∧
      (p.name ∉ menu → ∃ q : Peer, q.name = p.name ∧ q.FirstIn c.peers ∧
        t.Calls { c with typed := later } p.name q.endpoint) ∧
      (p.name ∈ menu → t.dialed = []) ∧
      ((c.peers.map (·.name)).Nodup →
        (t.Calls { c with typed := later } p.name p.endpoint ↔ p.name ∉ menu)) := by
  have hc := hr.consistent
  obtain ⟨line, htrim, hmove⟩ := h.keyboard hc
  have hword : p.name ≠ "" := (isWord_of_isName (hc.peers p h.listed)).1
  have hnone : p.name ∈ menu → ((Turn.of { c with typed := later }).obey line).dialed = [] := by
    intro hmenu
    rw [← htrim] at hmenu
    exact Turn.dialed_obey hmenu
  have hcalls : ∀ q : Peer, q.name = p.name → q.FirstIn c.peers → p.name ∉ menu →
      ((Turn.of { c with typed := later }).obey line).Calls { c with typed := later } p.name q.endpoint := by
    intro q hname hfirst hmenu
    rw [Turn.obey_eq_dial (htrim ▸ hword) (htrim ▸ hmenu), htrim]
    exact Turn.calls_dial (resolveTarget_eq_ok_iff.mpr ⟨h.other, q, hname, hfirst, rfl⟩)
  refine ⟨_, hmove, fun hmenu => ?_, hnone, fun hnodup => ⟨fun hcall hmenu => ?_, ?_⟩⟩
  · obtain ⟨q, hname, hfirst⟩ := Peer.exists_firstIn h.listed
    exact ⟨q, hname, hfirst, hcalls q hname hfirst hmenu⟩
  · have hdialed := hnone hmenu
    rw [Turn.dialed, hcall.effects] at hdialed
    exact absurd hdialed (by simp)
  · exact hcalls p rfl (Peer.firstIn_of_nodup hnodup h.listed)

/-- Alice signs up, and is told of two peers. -/
def evening : List Incident :=
  [.act (.event (.listening 6001)), .act (.event .serverConnected),
    .act (.event (.serverSent (Utf8.encode "PEER_LIST\nbob 127.0.0.1 6002\nhelp 127.0.0.1 6003\n"))),
    .act (.move .server), .act (.move .own), .act (.move .server)]

def aliceAtPrompt : Turn :=
  (start { name := some "alice", port := some 6001 } []).meetAll evening

/-- She types a line. -/
def alicePrompted (line : String) : Client := (aliceAtPrompt.meet (.act (.event (.typed line)))).client

theorem reachable_alicePrompted (line : String) : (alicePrompted line).Reachable :=
  ((Reachable.start _ _).meetAll (by decide)).meet rfl

theorem alicePrompted_spec (line : String) :
    (alicePrompted line).task = .idle ∧
      (alicePrompted line).peers =
        [⟨"bob", .v4 127 0 0 1, 6002⟩, ⟨"help", .v4 127 0 0 1, 6003⟩] ∧
      (alicePrompted line).name = "alice" ∧ (alicePrompted line).typed = [line] := by
  have hhome : .calls ∈ aliceAtPrompt.client.task.sources ∧
      aliceAtPrompt.client.peers =
        [⟨"bob", .v4 127 0 0 1, 6002⟩, ⟨"help", .v4 127 0 0 1, 6003⟩] ∧
      aliceAtPrompt.client.name = "alice" ∧ aliceAtPrompt.client.typed = [] := by decide +kernel
  obtain ⟨htask, hpeers, hname, htyped⟩ := hhome
  exact ⟨Task.eq_idle htask, hpeers, hname, congrArg (· ++ [line]) htyped⟩

/-- Bob is called by his name; a peer named as a word on the menu is not. -/
theorem calls_iff_not_mem_menu_help :
    (alicePrompted "\tbob ").Reachable ∧
      (alicePrompted "\tbob ").Names ⟨"bob", .v4 127 0 0 1, 6002⟩ [] ∧
      (∃ t, (alicePrompted "\tbob ").move? .keyboard = some t ∧
        t.effects = [.dial ⟨.v4 127 0 0 1, 6002⟩]) ∧
      (alicePrompted "help").Reachable ∧
      (alicePrompted "help").Names ⟨"help", .v4 127 0 0 1, 6003⟩ [] ∧
      ∃ t, (alicePrompted "help").move? .keyboard = some t ∧ t.dialed = [] := by
  have hbob : (alicePrompted "\tbob ").Names ⟨"bob", .v4 127 0 0 1, 6002⟩ [] := by
    obtain ⟨htask, hpeers, hname, htyped⟩ := alicePrompted_spec "\tbob "
    exact ⟨htask, by rw [hpeers]; decide, by rw [hname]; decide, "\t", " ", htyped,
      List.all_eq_true.mp (by decide), List.all_eq_true.mp (by decide)⟩
  have hhelp : (alicePrompted "help").Names ⟨"help", .v4 127 0 0 1, 6003⟩ [] := by
    obtain ⟨htask, hpeers, hname, htyped⟩ := alicePrompted_spec "help"
    exact ⟨htask, by rw [hpeers]; decide, by rw [hname]; decide, "", "", htyped,
      by simp, by simp⟩
  obtain ⟨t, hmove, -, -, hiff⟩ := calls_iff_not_mem_menu (reachable_alicePrompted _) hbob
  obtain ⟨t', hmove', -, hnone, -⟩ := calls_iff_not_mem_menu (reachable_alicePrompted _) hhelp
  have hcalls := (hiff (by rw [(alicePrompted_spec _).2.1]; decide)).mpr (by decide)
  exact ⟨reachable_alicePrompted _, hbob, ⟨t, hmove, hcalls.effects⟩, reachable_alicePrompted _, hhelp, t',
    hmove', hnone (by decide)⟩

end Client

end PeerChat
