import PeerChat.Proofs.Network.Run

/-!
# Clients that come back

A client that comes back registers on a new connection, and nothing says that the server reads that
before the end of the old one.  The answer is a list unless the client's own former entry is still
there (`answer_to_return`).
-/

namespace PeerChat

theorem Client.stand_of_rejoining {c : Client} (h : c.Consistent) (ht : c.task = .rejoining) :
    ∃ inbox, c.stand = .signing c.name inbox := by
  have hfits := h.fits
  rw [ht] at hfits
  obtain ⟨inbox, hinbox⟩ := Option.isSome_iff_exists.mp hfits.2.1
  have hi : c.inbox = some inbox := hinbox
  refine ⟨inbox, ?_⟩
  unfold stand
  rw [ht, hi]
  rfl

theorem Client.task_eq_rejoining {c : Client}
    (h : (match c.task with | .rejoining => true | _ => false) = true) : c.task = .rejoining := by
  split at h
  · assumption
  · exact absurd h (by simp)

namespace Server

variable {s : Server} {c : Connection} {name : String} {port : UInt16}

theorem beginRegister_of_taken (h : ∃ e ∈ s.directory.entries, e.peer.name = name) :
    s.beginRegister c name port = (s, [.reply .nameTaken]) := by
  have hins : s.directory.insert ⟨name, c.address, port⟩ (some c.id) = .error (.nameTaken name) :=
    Directory.insert_eq_nameTaken_iff.mpr h
  rw [beginRegister, hins]

theorem beginRegister_of_free (c : Connection) (port : UInt16)
    (hfree : ∀ e ∈ s.directory.entries, e.peer.name ≠ name)
    (hroom : s.directory.size < s.directory.capacity) :
    ∃ directory others, s.directory.insert ⟨name, c.address, port⟩ (some c.id) =
        .ok (directory, others) ∧ s.beginRegister c name port =
          (({ s with directory } : Server).update c.id fun c => { c with phase := .registered name },
            [.reply (.peerList others), .announce (.newcomer name)]) := by
  obtain ⟨⟨directory, others⟩, hins⟩ :=
    Directory.exists_insert ⟨name, c.address, port⟩ (some c.id) hfree hroom
  refine ⟨directory, others, hins, ?_⟩
  rw [beginRegister, hins]

end Server

namespace Network

variable {ι : Type} {n : Network ι} {i : ι} {id : ConnectionId}

/-- A former connection of the client's still has an entry under the client's name: what the client
sent on it last, that it be removed, has not been read. -/
def Lingers (n : Network ι) (i : ι) (id : ConnectionId) : Prop :=
  ∃ j, j ≠ id ∧ n.holder j = some i ∧
    (∃ e ∈ n.entries, e.peer.name = (n.client i).name ∧ e.owner = some j) ∧
      ∃ sent, (n.channel j).up = Command.bytesAll (sent ++ [.remove (n.client i).name])

/-- An entry of a former connection is there because the server has not read on. -/
theorem Sound.lingers (h : n.Sound) (hp : n.place i = .connected id)
    {c : Connection} (hc : n.server.connection? id = some c) (hphase : c.phase = .registering)
    {e : Entry} (he : e ∈ n.entries) (hname : e.peer.name = (n.client i).name) {j : ConnectionId}
    (ho : e.owner = some j) (hj : n.holder j = some i) : n.Lingers i id := by
  have hne : j ≠ id := by
    rintro rfl
    exact h.not_owner hc hphase e he ho
  refine ⟨j, hne, hj, ⟨e, he, hname, ho⟩, ?_⟩
  have hplace : n.place i ≠ .connected j := by
    rw [hp]
    exact fun heq => hne (Place.connected.inj heq).symm
  cases h.former i j hj hplace with
  | free ended up none => exact absurd ho (none e he)
  | @leaving d own commands ended connection phase valid up sent goesOn =>
    obtain ⟨d', hd', hp'⟩ := h.owners e he j ho
    obtain rfl := Option.some.inj (connection.symm.trans hd')
    have hown : own = e.peer.name := by
      rcases hp' with hp' | hp'
      · exact Phase.registered.inj (phase.symm.trans hp')
      · exact absurd (phase.symm.trans hp') (by simp)
    refine ⟨commands, ?_⟩
    rw [up, hown, hname, Command.bytesAll_append]
    exact congrArg _ (List.append_nil _).symm

variable [DecidableEq ι]

/-- The registration of a client that comes back, read when there is room and nobody else has its name:
it is refused if a former entry of the client's own lingers, and is answered with a list otherwise. -/
theorem answer_to_return (hr : n.Reachable) (hi : n.intact = true)
    (ht : (n.client i).task = .rejoining) (hp : n.place i = .connected id)
    (hup : (n.channel id).up ≠ []) (hroom : n.server.directory.size < n.server.directory.capacity)
    (hown : ∀ e ∈ n.entries, e.peer.name = (n.client i).name →
      ∃ j, e.owner = some j ∧ n.holder j = some i) :
    (n.Lingers i id → ((n.step (.read id)).channel id).jobs = [.reply .nameTaken]) ∧
      (¬ n.Lingers i id →
        (∃ others, ((n.step (.read id)).channel id).jobs =
          [.reply (.peerList others), .announce (.newcomer (n.client i).name)]) ∧
        ∃ e ∈ (n.step (.read id)).entries, e.peer.name = (n.client i).name ∧ e.owner = some id) := by
  have h := hr.sound hi
  obtain ⟨c, hc, -, held⟩ := (h.tied i).held hp
  obtain ⟨inbox, hstand⟩ := Client.stand_of_rejoining (h.clients i) ht
  rw [Held, hstand] at held
  obtain ⟨hphase, hidle, port, hv, hbytes⟩ := held.of_signing hup
  have hread : n.step (.read id) =
      n.readTo id [] (n.server.beginRegister c (n.client i).name port) := by
    have hbegin : n.server.beginCommand c (.register (n.client i).name port) =
        n.server.beginRegister c (n.client i).name port := by
      simp only [Server.beginCommand, hphase]
    rw [← hbegin]
    exact read_command hc (by simp [hphase]) hidle hv (hbytes.trans (List.append_nil _).symm)
  rw [hread, channel_readTo]
  constructor
  · rintro ⟨-, -, -, ⟨e, he, hname, -⟩, -⟩
    rw [Server.beginRegister_of_taken ⟨e, he, hname⟩]
  · intro hnot
    have hfree : ∀ e ∈ n.server.directory.entries, e.peer.name ≠ (n.client i).name := by
      intro e he hname
      obtain ⟨j, ho, hj⟩ := hown e he hname
      exact hnot (h.lingers hp hc hphase he hname ho hj)
    obtain ⟨directory, others, hins, hb⟩ := Server.beginRegister_of_free c port hfree hroom
    obtain ⟨-, -, hd, -⟩ := Directory.insert_eq_ok hins
    rw [hb]
    refine ⟨⟨others, rfl⟩, ⟨⟨(n.client i).name, c.address, port⟩, some c.id⟩, ?_, rfl, ?_⟩
    · show _ ∈ directory.entries
      rw [hd]
      exact Directory.mem_place.mpr (.inl rfl)
    · exact congrArg some (Server.connection?_id hc)

/-! ## A client that comes back at once -/

/-- A client alone with its server. -/
def single : Network Unit :=
  start 2 (fun _ => .v4 127 0 0 1)
    (fun _ => ⟨some "alice", some 6001, false, .counter, MlKem512.kem⟩) fun _ => []

/-- The client accepts a call, the caller hangs up, and the client comes back before the server has
read that it left. -/
def hasty : List (Step Unit) :=
  [.event () (.listening 6001), .connect (), .read 1, .work 1, .work 1, .work 1, .write 1,
    .arrive () 64, .move () .server, .move () .own, .move () .server, .move () .reception,
    .event () (.callerConnected 0 (.v4 127 0 0 1)),
    .event () (.sent (.caller 0) (Utf8.encode "CONNECT_REQUEST bob\n")), .move () .calls,
    .event () (.typed "y\n"), .move () .keyboard, .event () (.ended (.caller 0)),
    .move () .direct, .connect ()]

theorem answer_to_return_hasty :
    (single.run hasty).intact = true ∧ ((single.run hasty).client ()).task = .rejoining ∧
      (single.run hasty).place () = .connected 2 ∧ (single.run hasty).Lingers () 2 ∧
        (((single.run hasty).step (.read 2)).channel 2).jobs = [.reply .nameTaken] := by
  have hintact : (single.run hasty).intact = true := by decide +kernel
  have htask : ((single.run hasty).client ()).task = .rejoining :=
    Client.task_eq_rejoining (by decide +kernel)
  have hplace : (single.run hasty).place () = .connected 2 := by decide +kernel
  have hup : ((single.run hasty).channel 2).up ≠ [] := by decide +kernel
  have hroom : (single.run hasty).server.directory.size <
      (single.run hasty).server.directory.capacity := by decide +kernel
  have howners : ∀ e ∈ (single.run hasty).entries,
      e.owner = some 1 ∧ (single.run hasty).holder 1 = some () := by decide +kernel
  have hlingers : (single.run hasty).Lingers () 2 :=
    ⟨1, by decide, by decide +kernel, by decide +kernel, [], by decide +kernel⟩
  have hanswer := answer_to_return ⟨_, _, _, _, hasty, rfl⟩ hintact htask hplace hup hroom
    fun e he _ => ⟨1, howners e he⟩
  exact ⟨hintact, htask, hplace, hlingers, hanswer.1 hlingers⟩

end Network

end PeerChat
