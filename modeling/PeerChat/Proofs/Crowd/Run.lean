import PeerChat.Proofs.Crowd.Clients
import PeerChat.Proofs.Crowd.Handlers

/-!
# Clients and server speak the same protocol

In whatever company a client is, and whatever it loses, the server takes all that it says, and it has a
use for all that the server says (`Crowd.same_protocol`).
-/

namespace PeerChat

/-! ## Every step keeps the crowd civil -/

namespace Network

variable {ι : Type} [DecidableEq ι] {n : Network ι} {i : ι}

theorem Civil.step (h : n.Civil) (s : Crowd.Step ι) : (Crowd.step n s).Civil := by
  cases s with
  | event i e =>
    unfold Crowd.step Network.step
    simp only []
    split
    · rename_i he
      exact h.turn (does_of_event (h.clients i) he)
    · exact h
  | move i source =>
    unfold Crowd.step Network.step
    simp only []
    split
    · rename_i t ht
      exact h.turn (does_of_move (h.clients i) ht)
    · exact h
  | connect i =>
    unfold Crowd.step Network.step
    simp only []
    split
    · rename_i hp
      exact h.connect hp
    · exact h
  | unreachable i cause =>
    unfold Crowd.step Network.step
    simp only []
    split
    · rename_i hp
      exact h.unreachable hp cause
    · exact h
  | arrive i count =>
    unfold Crowd.step
    simp only []
    split
    · exact h
    · rename_i he
      exact h.arrive (eq_false_of_ne_true he) count
  | finish i => exact h.finish i
  | fail i => exact h.fail i
  | clog i => exact h.clog i
  | read id => exact h.read id
  | work id => exact h.work id
  | deliver id target => exact h.deliver id target
  | write id => exact h.write id
  | drop id =>
    unfold Crowd.step
    simp only []
    split
    · rename_i hc
      obtain ⟨c, hc⟩ := Option.isSome_iff_exists.mp hc
      exact (h.lost false).drop hc
    · exact h
  | spurn id => exact h.spurn id
  | miss id target => exact h.miss id target
  | enter address => exact h.enter address
  | say id bytes => exact h.onStranger fun ch => rfl
  | hangUp id => exact h.onStranger fun ch => rfl

theorem Civil.run (h : n.Civil) (steps : List (Crowd.Step ι)) : (Crowd.run n steps).Civil := by
  induction steps generalizing n with
  | nil => exact h
  | cons s steps ih => exact ih (h.step s)

omit [DecidableEq ι] in
theorem civil_start (capacity : Nat) (address : ι → IpAddress) (settings : ι → Settings)
    (entropy : ι → Entropy) : (start capacity address settings entropy).Civil where
  ids c hm := absurd hm List.not_mem_nil
  fresh id _ := ⟨rfl, rfl⟩
  jobs id job hm := absurd hm List.not_mem_nil
  peers e he := absurd he List.not_mem_nil
  clients i := (start_spec (settings i) (entropy i)).1.toConsistent
  places i id hp := absurd hp (by simp [start])
  served i id c hh := absurd hh (by simp [start])
  attached i := .apart (start_spec (settings i) (entropy i)).2 rfl

/-! ## What a client says -/

/-- A turn that a client can take next. -/
inductive Turns (n : Network ι) (i : ι) : Turn → Prop
  | event {e : Event} (own : e.isLocal = true) : Turns n i ((n.client i).onEvent e)
  | move {source : Source} {t : Turn} (moves : (n.client i).move? source = some t) : Turns n i t
  | connect (place : n.place i = .reaching) : Turns n i (n.client i).onServerConnected
  | unreachable (place : n.place i = .reaching) (cause : TransportError) :
      Turns n i ((n.client i).onServerUnreachable cause)

/-- What a client has said on a connection: commands, of which the handler can carry out the first when
it is ready to read it, and none of which it finds invalid. -/
structure Understood (n : Network ι) (id : ConnectionId) (c : Connection) : Prop where
  reads : ∃ commands, (n.channel id).up = commands.flatMap (fun command => Line.write command.line) ∧
    (∀ command ∈ commands, Command.parse command.text = .ok command) ∧
    (c.phase ≠ .closed → (n.channel id).jobs = [] → ∀ command later, commands = command :: later →
      Line.read Line.maxSize (n.channel id).upEnded (n.channel id).up =
          .line command.text (later.flatMap fun command => Line.write command.line) ∧
        c.phase.Allows command)
  jobs : .reply .invalidCommand ∉ (n.channel id).jobs
  told : .invalidCommand ∉ (n.channel id).told

end Network

/-- All that a turn writes to the server is commands that the server can parse. -/
theorem Does.writes {c : Client} {t : Turn} (h : Does c [] t) (hc : c.Consistent) {bytes : Bytes}
    (hm : .sendServer bytes ∈ t.toServer) : ∃ command : Command, command.Valid ∧ bytes = command.bytes := by
  have hone : ∀ command : Command, command.Valid → .sendServer bytes ∈ [Effect.sendServer command.bytes] →
      ∃ command : Command, command.Valid ∧ bytes = command.bytes := by
    intro command hv hmem
    exact ⟨command, hv, Effect.sendServer.inj (List.mem_singleton.mp hmem)⟩
  have hsent : ∀ (commands : List Command) (rest : List Effect), (∀ command ∈ commands, command.Valid) →
      .sendServer bytes ∉ rest → .sendServer bytes ∈ c.face.sends commands ++ rest →
        ∃ command : Command, command.Valid ∧ bytes = command.bytes := by
    intro commands rest hv hrest hmem
    obtain ⟨sent, hsub, hsends⟩ := c.face.exists_sends commands
    rw [hsends] at hmem
    obtain ⟨command, hcommand, hbytes⟩ :=
      List.mem_map.mp ((List.mem_append.mp hmem).resolve_right hrest)
    exact ⟨command, hv command (hsub hcommand), (Effect.sendServer.inj hbytes).symm⟩
  obtain ⟨done, hdone, hdeed⟩ := h.deed
  rw [hdone, List.nil_append] at hm
  cases hdeed with
  | still stand name peers => exact absurd hm List.not_mem_nil
  | connects before after name => exact absurd hm (by simp)
  | @offers inbox name port before writable valid named after =>
    exact hone (.register name port) ⟨valid, named⟩ hm
  | leaves before after => exact absurd hm (by simp)
  | waits before reply after peers => exact absurd hm List.not_mem_nil
  | admitted before reply after peers => exact absurd hm List.not_mem_nil
  | refused before reply after => exact absurd hm List.not_mem_nil
  | rejected before reply failed after => exact absurd hm (by simp)
  | asks before writable after peers name => exact hone .listPeers trivial hm
  | attends before next able after peers name =>
    obtain ⟨name, -, hbytes⟩ := List.mem_map.mp hm
    exact ⟨.listPeers, trivial, (Effect.sendServer.inj hbytes).symm⟩
  | @reports l target before valid after peers name =>
    refine hsent [.reportGone target, .listPeers] [] (fun command hcommand => ?_) List.not_mem_nil
      (List.mem_append_left [] hm)
    rcases List.mem_cons.mp hcommand with rfl | hcommand
    · exact valid
    · rw [List.mem_singleton.mp hcommand]
      trivial
  | @withdraws l before after name =>
    refine hsent [.remove l.name] _ (fun command hcommand => ?_) (by simp) hm
    rw [List.mem_singleton.mp hcommand]
    exact (hc.of_link (Client.link_of_stand before)).2
  | @returns l before after name =>
    refine hsent [.remove l.name] _ (fun command hcommand => ?_) (by simp) hm
    rw [List.mem_singleton.mp hcommand]
    exact (hc.of_link (Client.link_of_stand before)).2
  | loses before finished after => exact absurd hm (by simp)

namespace Network

variable {ι : Type} {n : Network ι} {i : ι}

theorem Civil.writes (h : n.Civil) {t : Turn} (ht : n.Turns i t) {bytes : Bytes}
    (hm : .sendServer bytes ∈ t.effects) : ∃ command : Command, command.Valid ∧ bytes = command.bytes := by
  have hm : .sendServer bytes ∈ t.toServer := List.mem_filter.mpr ⟨hm, rfl⟩
  cases ht with
  | event own => exact (does_of_event (h.clients i) own).writes (h.clients i) hm
  | move moves => exact (does_of_move (h.clients i) moves).writes (h.clients i) hm
  | connect place =>
    obtain ⟨hcons, hdoes⟩ :=
      does_onServerConnected (h.clients i) ((h.attached i).stand_of_reaching place)
    exact hdoes.writes hcons hm
  | unreachable place cause =>
    obtain ⟨-, -, -, hto⟩ :=
      onServerUnreachable_spec (h.clients i) ((h.attached i).stand_of_reaching place) cause
    rw [hto] at hm
    exact absurd hm List.not_mem_nil

theorem Civil.understood (h : n.Civil) {id : ConnectionId} {c : Connection} (hh : n.holder id = some i)
    (hc : n.server.connection? id = some c) : n.Understood id c := by
  have hserved := h.served i id c hh hc
  obtain ⟨commands, hup, hvalid, htakes⟩ := hserved.sent
  refine ⟨⟨commands, hup, fun command hm => Command.parse_text (hvalid command hm), ?_⟩, fun hm => ?_,
    hserved.answered⟩
  · rintro hopen hidle command later rfl
    obtain ⟨hv, -⟩ := List.forall_mem_cons.mp hvalid
    rw [hidle] at htakes
    obtain ⟨hallows, -⟩ := List.forall_mem_cons.mp (htakes.resolve_left (not_doomed_nil hopen)).1
    refine ⟨?_, hallows⟩
    rw [hup]
    exact Command.read_bytes hv _ _
  · exact hserved.pending (List.mem_filterMap.mpr ⟨_, hm, rfl⟩)

end Network

/-! ## What a client is told -/

/-- The client has a use for what it finds: a reply is one that a registration can get, or there is none
any more, and a link tells of nothing but lists and newcomers. -/
structure Client.Understands (c : Client) : Prop where
  replies : ∀ name inbox outcome later, c.stand = .signing name inbox →
    inbox.awaitReply = (some outcome, later) →
      outcome = .registered ∨ outcome = .nameTaken ∨ outcome = .rejected .serverFull ∨
        outcome = .failed .peerClosed
  updates : ∀ l, c.link = some l → ∀ u ∈ l.updates, u.Ordinary

theorem Network.Civil.understands {ι : Type} {n : Network ι} (h : n.Civil) (i : ι) :
    (n.client i).Understands where
  replies name inbox outcome later hs hr := by
    obtain ⟨id, c, -, -, ht⟩ := (h.attached i).exists_terms hs (by simp) (by simp)
    rcases ht.replied hr with ⟨ho, -⟩ | ⟨ho, -⟩ | ho | ho
    · exact .inl ho
    · exact .inr (.inl ho)
    · exact .inr (.inr (.inl ho))
    · exact .inr (.inr (.inr ho))
  updates l hl := by
    obtain ⟨hs, -⟩ := (h.clients i).of_link hl
    obtain ⟨id, c, -, -, ht⟩ := (h.attached i).exists_terms hs (by simp) (by simp)
    exact ht.hears.updates

/-- **Clients and server speak the same protocol.**  Whoever else is there, and whatever is lost, all that
a client writes is commands, the server parses each to the command that was meant, in a phase that allows
it, and has never to answer that it is invalid; and whatever the client is told, it is a reply to its
registration, or a list or a notice once it is registered. -/
theorem Crowd.same_protocol {ι : Type} [DecidableEq ι] (capacity : Nat) (address : ι → IpAddress)
    (settings : ι → Settings) (entropy : ι → Entropy) (steps : List (Crowd.Step ι)) (i : ι) :
    let n := Crowd.run (Network.start capacity address settings entropy) steps
    (∀ t bytes, n.Turns i t → .sendServer bytes ∈ t.effects → ∃ command : Command,
      bytes = Line.write command.line ∧ Command.parse command.text = .ok command) ∧
    (∀ id c, n.holder id = some i → n.server.connection? id = some c → n.Understood id c) ∧
    (n.client i).Understands := by
  have h := (Network.civil_start capacity address settings entropy).run steps
  refine ⟨fun t bytes ht hm => ?_, fun id c hh hc => h.understood hh hc, h.understands i⟩
  obtain ⟨command, hv, rfl⟩ := h.writes ht hm
  exact ⟨command, rfl, Command.parse_text hv⟩

/-- Beside a client that registers, someone else who asks for the list at once is told that this is
invalid. -/
example :
    let n := Crowd.run
      (Network.start 2 (fun _ : Unit => .v4 127 0 0 1)
        (fun _ => ⟨some "alice", some 6001, false, .counter, MlKem512.kem⟩) fun _ => [])
      [.event () (.listening 6001), .connect (), .enter (.v4 127 0 0 1),
        .say 2 (Utf8.encode "LIST_PEERS\n"), .read 1, .work 1, .read 2, .work 2]
    (n.channel 1).told = [.peerList []] ∧ (n.channel 2).told = [.invalidCommand] := by
  decide +kernel

end PeerChat
