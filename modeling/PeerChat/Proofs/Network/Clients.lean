import PeerChat.Proofs.Network.Invariant

/-!
# What clients do

Whatever a client does, the network stays sound (`Sound.turn`): each of its deeds leads from one stage
of its connection to another.
-/

namespace PeerChat.Network

variable {ι : Type} [DecidableEq ι] {n : Network ι} {i : ι} {id : ConnectionId} {c : Connection}
  {client : Client}

/-- The client keeps its connection, and has maybe sent something. -/
theorem Sound.stays (h : n.Sound) (hp : n.place i = .connected id)
    (hc : n.server.connection? id = some c) (hg : (n.channel id).upEnded = false)
    (hready : client.Ready) {f : Channel → Channel}
    (hf : ∀ ch, (f ch).down = ch.down ∧ (f ch).told = ch.told ∧ (f ch).jobs = ch.jobs)
    (hup : (f (n.channel id)).upEnded = (n.channel id).upEnded)
    (hs : Stage n.entries (n.Awaited id) client.stand client.peers c.phase (f (n.channel id)).up
      (n.channel id).jobs (n.channel id).told (n.coming c)) :
    ((n.setClient i client).onChannel id f).Sound := by
  have hp' : ((n.setClient i client).onChannel id f).place i = .connected id := hp
  have hacts : Acts i (n.setClient i client) ((n.setClient i client).onChannel id f) :=
    .onChannel (n := n.setClient i client) hp fun ch => (hf ch).2.2
  refine h.acts ((Acts.setClient n client).trans hacts) ?_ ?_ ?_
  · rw [client_onChannel, client_setClient]
    exact hready
  · refine .connected hp' hc ?_ (.of_client (Server.connection?_id hc) hf rfl hs)
    rw [channel_onChannel, channel_setClient, hup]
    exact hg
  · intro j hj hn
    rw [hp] at hj
    rw [hp', ← hj] at hn
    exact absurd rfl hn

/-- The client leaves its connection, and what was registered on it will be removed. -/
theorem Sound.leaves (h : n.Sound) (hp : n.place i = .connected id)
    (hc : n.server.connection? id = some c) (hready : client.Ready) {f : Channel → Channel}
    {place : Place} (hf : ∀ ch, (f ch).upEnded = true ∧ (f ch).jobs = ch.jobs)
    (hplace : client.stand = .apart ∧ place = .none ∨ client.stand = .reaching ∧ place = .reaching)
    (hs : (c.phase = .registering ∧ (f (n.channel id)).up = []) ∨
      ∃ name commands, c.phase = .registered name ∧ isName name = true ∧
        (f (n.channel id)).up = Command.bytesAll commands ++ (Command.remove name).bytes ∧
        (∀ c ∈ commands, c.GoesOn) ∧ ∀ job ∈ (n.channel id).jobs, job.GoesOn) :
    (((n.setClient i client).onChannel id f).setPlace i place).Sound := by
  have hne : ∀ id, place ≠ .connected id := by
    rcases hplace with ⟨-, rfl⟩ | ⟨-, rfl⟩
    · simp
    · simp
  have hclient : (((n.setClient i client).onChannel id f).setPlace i place).client i = client :=
    client_setClient n client
  have hchannel : (((n.setClient i client).onChannel id f).setPlace i place).channel id =
      f (n.channel id) := channel_onChannel _ f
  have hacts : Acts i (n.setClient i client) ((n.setClient i client).onChannel id f) :=
    .onChannel (n := n.setClient i client) hp fun ch => (hf ch).2
  refine h.acts (((Acts.setClient n client).trans hacts).trans (.setPlace _ hne))
    (by rw [hclient]; exact hready) ?_ fun j hj _ => ?_
  · have hplace' : (((n.setClient i client).onChannel id f).setPlace i place).place i = place :=
      place_setPlace _ place
    rcases hplace with ⟨hs, rfl⟩ | ⟨hs, rfl⟩
    · exact .apart (by rw [hclient]; exact hs) hplace'
    · exact .reaching (by rw [hclient]; exact hs) hplace'
  · obtain rfl : id = j := Place.connected.inj (hp.symm.trans hj)
    rcases hs with ⟨hphase, hup⟩ | ⟨name, commands, hphase, hv, hup, hsent, hjobs⟩
    · exact .free (by rw [hchannel]; exact (hf _).1) (by rw [hchannel]; exact hup)
        (h.not_owner hc hphase)
    · refine .leaving (by rw [hchannel]; exact (hf _).1) hc hphase hv (by rw [hchannel]; exact hup)
        hsent ?_
      rw [hchannel, (hf _).2]
      exact hjobs

theorem Sound.sends (h : n.Sound) (hp : n.place i = .connected id)
    (hc : n.server.connection? id = some c) (hg : (n.channel id).upEnded = false)
    (hready : client.Ready) {bytes : Bytes}
    (hs : Stage n.entries (n.Awaited id) client.stand client.peers c.phase
      ((n.channel id).up ++ bytes) (n.channel id).jobs (n.channel id).told (n.coming c)) :
    ((n.setClient i client).send id bytes).Sound :=
  h.stays hp hc hg hready (fun _ => ⟨rfl, rfl, rfl⟩) rfl hs

/-- The client has moved on at its connection, and sent nothing. -/
theorem Sound.stays_quiet (h : n.Sound) (hp : n.place i = .connected id)
    (hc : n.server.connection? id = some c) (hg : (n.channel id).upEnded = false)
    (hready : client.Ready)
    (hs : Stage n.entries (n.Awaited id) client.stand client.peers c.phase (n.channel id).up
      (n.channel id).jobs (n.channel id).told (n.coming c)) :
    (n.setClient i client).Sound := by
  have hstays := h.stays hp hc hg hready (f := fun ch => ch) (fun ch => ⟨rfl, rfl, rfl⟩) rfl hs
  rwa [onChannel_self] at hstays

theorem Sound.hangsUp (h : n.Sound) (hp : n.place i = .connected id)
    (hc : n.server.connection? id = some c) (hready : client.Ready)
    (hstand : client.stand = .apart) (hphase : c.phase = .registering)
    (hup : (n.channel id).up = []) : ((n.setClient i client).hangUp i id).Sound :=
  h.leaves hp hc hready (fun _ => ⟨rfl, rfl⟩) (.inl ⟨hstand, rfl⟩) (.inl ⟨hphase, hup⟩)

omit [DecidableEq ι] in
/-- A client at its connection. -/
theorem Sound.exists_stage (h : n.Sound) {stand : Stand} (hs : (n.client i).stand = stand)
    (ha : stand ≠ .apart) (hr : stand ≠ .reaching) :
    ∃ id c, n.place i = .connected id ∧ n.server.connection? id = some c ∧
      (n.channel id).upEnded = false ∧
      Stage n.entries (n.Awaited id) stand (n.client i).peers c.phase (n.channel id).up
        (n.channel id).jobs (n.channel id).told (n.coming c) := by
  subst hs
  exact (h.tied i).exists_held ha hr

/-! ## Deed by deed -/

variable (h : n.Sound) (hready : client.Ready)
include h hready

theorem Sound.still (hs : client.stand = (n.client i).stand)
    (hpeers : (n.client i).stand = .apart ∨ client.peers = (n.client i).peers) :
    (n.setClient i client).Sound := by
  have hclient : (n.setClient i client).client i = client := client_setClient n client
  refine h.acts (.setClient n client) (by rw [hclient]; exact hready) ?_
    fun id hp hn => absurd hp hn
  cases h.tied i with
  | apart stand place => exact .apart (by rw [hclient, hs]; exact stand) place
  | reaching stand place => exact .reaching (by rw [hclient, hs]; exact stand) place
  | @connected id c place connection goesOn held =>
    refine .connected place connection goesOn
      (.of_client (f := fun ch => ch) (Server.connection?_id connection)
        (fun ch => ⟨rfl, rfl, rfl⟩) (onChannel_self _ id).symm ?_)
    rw [hs, hpeers.resolve_left (Stage.stand_ne held).1]
    exact held

theorem Sound.connects (before : (n.client i).stand = .apart) (after : client.stand = .reaching) :
    ((n.setClient i client).setPlace i .reaching).Sound := by
  have hplace := (h.tied i).place_of_apart before
  have hclient : ((n.setClient i client).setPlace i .reaching).client i = client :=
    client_setClient n client
  refine h.acts ((Acts.setClient n client).trans (.setPlace _ (by simp))) ?_ ?_ ?_
  · rw [hclient]
    exact hready
  · exact .reaching (by rw [hclient]; exact after) (place_setPlace _ _)
  · exact fun id hp _ => absurd (hplace.symm.trans hp) (by simp)

theorem Sound.offers {inbox : Inbox} {name : String} {port : UInt16}
    (before : (n.client i).stand = .choosing inbox) (valid : (Command.register name port).Valid)
    (after : client.stand = .signing name inbox) :
    ((n.setClient i client).routeAll i [.sendServer (Command.register name port).bytes]).Sound := by
  obtain ⟨id, c, hp, hc, hg, hs⟩ := h.exists_stage before (by simp) (by simp)
  have hroute : (n.setClient i client).routeAll i [.sendServer (Command.register name port).bytes] =
      (n.setClient i client).send id (Command.register name port).bytes :=
    route_sendServer (n := n.setClient i client) hp _
  rw [hroute]
  refine h.sends hp hc hg hready ?_
  obtain ⟨hphase, hearly, hup, hjobs, names, hreads⟩ := hs.of_choosing
  rw [after, hup, hjobs, List.nil_append]
  exact .unregistered hphase hearly (.asked valid hreads)

theorem Sound.gives_up {inbox : Inbox} (before : (n.client i).stand = .choosing inbox)
    (after : client.stand = .apart) : ((n.setClient i client).routeAll i [.closeServer]).Sound := by
  obtain ⟨id, c, hp, hc, hg, hs⟩ := h.exists_stage before (by simp) (by simp)
  have hroute : (n.setClient i client).routeAll i [.closeServer] =
      (n.setClient i client).hangUp i id := route_closeServer (n := n.setClient i client) hp
  rw [hroute]
  obtain ⟨hphase, -, hup, -⟩ := hs.of_choosing
  exact h.hangsUp hp hc hready after hphase hup

theorem Sound.waits {inbox later : Inbox} {name : String}
    (before : (n.client i).stand = .signing name inbox)
    (reply : inbox.awaitReply = (none, later)) (after : client.stand = .signing name later)
    (peers : client.peers = (n.client i).peers) : (n.setClient i client).Sound := by
  obtain ⟨id, c, hp, hc, hg, hs⟩ := h.exists_stage before (by simp) (by simp)
  refine h.stays_quiet hp hc hg hready ?_
  rw [after, peers]
  cases hs with
  | unregistered phase early stage => exact .unregistered phase early (stage.waits reply)
  | registered phase valid informed => exact .registered phase valid (informed.waits reply)

theorem Sound.admitted {inbox later : Inbox} {name : String}
    (before : (n.client i).stand = .signing name inbox)
    (reply : inbox.awaitReply = (some .registered, later))
    (after : client.stand = .linked (.ofInbox name later))
    (peers : client.peers = (n.client i).peers) : (n.setClient i client).Sound := by
  obtain ⟨id, c, hp, hc, hg, hs⟩ := h.exists_stage before (by simp) (by simp)
  refine h.stays_quiet hp hc hg hready ?_
  rw [after, peers]
  cases hs with
  | unregistered phase early stage => exact absurd rfl (stage.replied reply).1
  | registered phase valid informed => exact .registered phase valid (informed.replied reply).2

theorem Sound.refused {inbox later : Inbox} {name : String}
    (before : (n.client i).stand = .signing name inbox)
    (reply : inbox.awaitReply = (some .nameTaken, later)) (after : client.stand = .choosing later) :
    (n.setClient i client).Sound := by
  obtain ⟨id, c, hp, hc, hg, hs⟩ := h.exists_stage before (by simp) (by simp)
  refine h.stays_quiet hp hc hg hready ?_
  rw [after]
  cases hs with
  | unregistered phase early stage => exact .unregistered phase early (stage.replied reply).2.2
  | registered phase valid informed => exact absurd (informed.replied reply).1 (by simp)

theorem Sound.rejected {inbox later : Inbox} {name : String} {outcome : SignUp}
    (before : (n.client i).stand = .signing name inbox)
    (reply : inbox.awaitReply = (some outcome, later)) (failed : outcome ≠ .registered)
    (after : client.stand = .apart) : ((n.setClient i client).routeAll i [.closeServer]).Sound := by
  obtain ⟨id, c, hp, hc, hg, hs⟩ := h.exists_stage before (by simp) (by simp)
  have hroute : (n.setClient i client).routeAll i [.closeServer] =
      (n.setClient i client).hangUp i id := route_closeServer (n := n.setClient i client) hp
  rw [hroute]
  cases hs with
  | unregistered phase early stage => exact h.hangsUp hp hc hready after phase (stage.replied reply).2.1
  | registered phase valid informed => exact absurd (informed.replied reply).1 failed

omit hready [DecidableEq ι] in
/-- The connection of a linked client. -/
theorem Sound.exists_linked {l : Link} (before : (n.client i).stand = .linked l) :
    ∃ id c, n.place i = .connected id ∧ n.server.connection? id = some c ∧
      (n.channel id).upEnded = false ∧ c.phase = .registered l.name ∧ isName l.name = true ∧
        Informed n.entries (n.Awaited id) (.linked l) (n.client i).peers l.name (n.channel id).up
          (n.channel id).jobs (n.channel id).told (n.coming c) := by
  obtain ⟨id, c, hp, hc, hg, hs⟩ := h.exists_stage before (by simp) (by simp)
  exact ⟨id, c, hp, hc, hg, hs.of_linked⟩

/-- A linked client sends commands, and goes on. -/
theorem Sound.speaks {l l' : Link} (commands : List Command)
    (before : (n.client i).stand = .linked l) (after : client.stand = .linked l')
    (hi : ∀ {awaited : String → Prop} {up : Bytes} {jobs : List Job} {told : List ServerMessage}
      {coming : Bytes},
      Informed n.entries awaited (.linked l) (n.client i).peers l.name up jobs told coming →
      Informed n.entries awaited (.linked l') client.peers l.name (up ++ Command.bytesAll commands)
        jobs told coming) :
    ((n.setClient i client).routeAll i (commands.map fun c => .sendServer c.bytes)).Sound := by
  obtain ⟨id, c, hp, hc, hg, hphase, hv, hinformed⟩ := h.exists_linked before
  rw [routeAll_commands (n := n.setClient i client) hp]
  refine h.sends hp hc hg hready (.registered hphase hv ?_)
  rw [after]
  exact hi hinformed

theorem Sound.withdraws {l : Link} (before : (n.client i).stand = .linked l)
    (after : client.stand = .apart) :
    ((n.setClient i client).routeAll i
      [.sendServer (Command.remove l.name).bytes, .closeServer]).Sound := by
  obtain ⟨id, c, hp, hc, hg, hphase, hv, hinformed⟩ := h.exists_linked before
  obtain ⟨-, -, hjobs, commands, hup, hsent⟩ := hinformed.linked
  rw [routeAll_withdraw (n := n.setClient i client) hp]
  refine h.leaves hp hc hready (fun ch => ⟨rfl, rfl⟩) (.inl ⟨after, rfl⟩) ?_
  exact .inr ⟨_, commands, hphase, hv, congrArg (· ++ _) hup, hsent, hjobs⟩

theorem Sound.returns {l : Link} (before : (n.client i).stand = .linked l)
    (after : client.stand = .reaching) :
    ((n.setClient i client).routeAll i
      [.sendServer (Command.remove l.name).bytes, .closeServer, .connectServer]).Sound := by
  obtain ⟨id, c, hp, hc, hg, hphase, hv, hinformed⟩ := h.exists_linked before
  obtain ⟨-, -, hjobs, commands, hup, hsent⟩ := hinformed.linked
  rw [routeAll_return (n := n.setClient i client) hp]
  refine h.leaves hp hc hready (fun ch => ⟨rfl, rfl⟩) (.inr ⟨after, rfl⟩) ?_
  exact .inr ⟨_, commands, hphase, hv, congrArg (· ++ _) hup, hsent, hjobs⟩

omit hready in
/-- Whatever a client does, the network stays sound. -/
theorem Sound.turn {t : Turn} (hd : Does (n.client i) [] t) : (n.turn i t).Sound := by
  obtain ⟨hreadyistent, hwritable, done, hdone, hdeed⟩ := hd
  have hready : t.client.Ready := ⟨hreadyistent, hwritable.trans (h.writable i)⟩
  have hsends := Face.sends_of_writable (f := (n.client i).face) (h.writable i)
  rw [turn_eq, hdone, List.nil_append]
  cases hdeed with
  | still stand name peers => exact h.still hready stand peers
  | connects before after name => exact h.connects hready before after
  | offers before writable valid named after => exact h.offers hready before ⟨valid, named⟩ after
  | leaves before after => exact h.gives_up hready before after
  | waits before reply after peers => exact h.waits hready before reply after peers
  | admitted before reply after peers => exact h.admitted hready before reply after peers
  | refused before reply after => exact h.refused hready before reply after
  | rejected before reply failed after => exact h.rejected hready before reply failed after
  | @asks l before writable after peers name =>
    refine h.speaks hready [.listPeers] before after fun hinformed => ?_
    rw [show t.client.peers = (n.client i).peers from peers]
    exact hinformed.asks
  | @attends l update updates before next able after peers name =>
    have hmap : ((alerts [update]).map fun _ => Effect.sendServer Command.listPeers.bytes) =
        ((alerts [update]).map fun _ => Command.listPeers).map fun c => .sendServer c.bytes := by
      rw [List.map_map]
      rfl
    rw [hmap]
    refine h.speaks hready _ before after fun hinformed => ?_
    rw [show t.client.peers = latest (n.client i).peers [update] from peers]
    exact hinformed.attends next
  | @reports l target before valid after peers name =>
    rw [hsends]
    exact h.speaks hready [.reportGone target, .listPeers] before after
      fun hinformed => hinformed.reports valid
  | withdraws before after name =>
    rw [hsends]
    exact h.withdraws hready before after
  | returns before after name =>
    rw [hsends]
    exact h.returns hready before after
  | @loses l before finished after =>
    obtain ⟨id, c, hp, hc, hg, hphase, hv, hinformed⟩ := h.exists_linked before
    rcases finished with hover | hbroken
    · rw [Link.isOver, hinformed.linked.2.1] at hover
      exact absurd hover (by simp)
    · exact absurd ((h.writable i).symm.trans hbroken) (by simp)

/-! ## What happens to a client -/

omit h hready

/-- Bytes from the server arrive, or the client has no connection. -/
theorem arrive_cases (n : Network ι) (i : ι) (count : Nat) :
    n.arrive i count = n ∨ ∃ id, n.place i = .connected id ∧ Acts i n (n.arrive i count) ∧
      (n.arrive i count).place i = .connected id ∧
        (n.arrive i count).client i = (n.client i).onServerSent ((n.channel id).down.take count) ∧
          (n.arrive i count).channel id =
            { n.channel id with down := (n.channel id).down.drop count } := by
  unfold Network.arrive
  split
  · rename_i id hp
    refine .inr ⟨id, hp, ?_, hp, client_setClient n _, ?_⟩
    · exact (Acts.setClient n _).trans (.onChannel (n := n.setClient i _) hp fun ch => rfl)
    · rw [channel_onChannel, channel_setClient]
  · exact .inl rfl

omit [DecidableEq ι] in
/-- What was coming has partly arrived. -/
theorem coming_of_arrived {n' : Network ι} {count : Nat} (hc : n.server.connection? id = some c)
    (hch : n'.channel id = { n.channel id with down := (n.channel id).down.drop count }) :
    n.coming c = (n.channel id).down.take count ++ n'.coming c := by
  rw [coming, coming, Server.connection?_id hc, hch, ← List.append_assoc, List.take_append_drop]

theorem Sound.arrive (h : n.Sound) (i : ι) (count : Nat) : (n.arrive i count).Sound := by
  rcases n.arrive_cases i count with hn | ⟨id, hp, hacts, hp', hclient, hchannel⟩
  · rw [hn]
    exact h
  · generalize n.arrive i count = n' at hacts hp' hclient hchannel
    refine h.acts hacts ?_ ?_ fun j hj hne => absurd (hp'.trans (hp.symm.trans hj)) hne
    · rw [hclient]
      exact ⟨(h.clients i).onServerSent _, h.writable i⟩
    · obtain ⟨c, connection, goesOn, held⟩ := (h.tied i).held hp
      have hcoming := coming_of_arrived connection hchannel
      have hentries : n'.entries = n.entries := by rw [entries, entries, hacts.server]
      refine .connected hp' (by rw [hacts.server]; exact connection) (by rw [hchannel]; exact goesOn) ?_
      rw [Held, hcoming] at held
      rw [Held, hclient, Client.stand_onServerSent, hchannel, hentries]
      exact held.receive.mono (fun e he => .inl he) fun name => Awaited.congr hacts.jobs

/-- A turn that does nothing about the server. -/
theorem turn_of_silent {t : Turn} (h : t.toServer = []) (n : Network ι) (i : ι) :
    n.turn i t = n.setClient i t.client := by
  rw [turn_eq, h]
  rfl

/-- The server is out of reach. -/
theorem Sound.unreachable (h : n.Sound) (hp : n.place i = .reaching) (cause : TransportError) :
    ((n.setPlace i .none).turn i ((n.client i).onServerUnreachable cause)).Sound := by
  have hstand := (h.tied i).stand_of_reaching hp
  obtain ⟨hcons, hwritable, hs, hto⟩ := onServerUnreachable_spec (h.clients i) hstand cause
  generalize (n.client i).onServerUnreachable cause = t at hcons hwritable hs hto
  rw [turn_of_silent hto]
  have hclient : ((n.setPlace i .none).setClient i t.client).client i = t.client :=
    client_setClient _ _
  refine h.acts ((Acts.setPlace n (by simp)).trans (.setClient _ _)) ?_ ?_ ?_
  · rw [hclient]
    exact ⟨hcons, hwritable.trans (h.writable i)⟩
  · exact .apart (by rw [hclient]; exact hs) (place_setPlace n _)
  · exact fun id hid => absurd (hp.symm.trans hid) (by simp)

/-! ## A new connection -/

/-- Client `i` has taken the connection and become `client`; the others are as they were. -/
structure Claims (i : ι) (id : ConnectionId) (client : Client) (n n' : Network ι) : Prop where
  channel : n'.channel = n.channel
  holder : n'.holder id = some i
  holder_of_ne : ∀ other, other ≠ id → n'.holder other = n.holder other
  client : n'.client i = client
  client_of_ne : ∀ j, j ≠ i → n'.client j = n.client j
  place : n'.place i = .connected id
  place_of_ne : ∀ j, j ≠ i → n'.place j = n.place j

theorem Claims.intro (n : Network ι) (server : Server) (i : ι) (id : ConnectionId) (client : Client) :
    Claims i id client n ((({ n with
      server := server
      holder := fun j => if j = id then some i else n.holder j } : Network ι).setPlace i
        (.connected id)).setClient i client) where
  channel := rfl
  holder := if_pos rfl
  holder_of_ne _ hne := if_neg hne
  client := client_setClient _ client
  client_of_ne _ hne := client_setClient_of_ne _ client hne
  place := place_setPlace _ _
  place_of_ne _ hne := place_setPlace_of_ne _ _ hne

theorem Claims.forall_client {n' : Network ι} (h : Claims i id client n n') {P : Client → Prop}
    (hclient : P client) (hP : ∀ j, P (n.client j)) (j : ι) : P (n'.client j) := by
  by_cases hj : j = i
  · rw [hj, h.client]
    exact hclient
  · rw [h.client_of_ne j hj]
    exact hP j

/-- Who is at a connection holds it, also after a client has taken one that was nobody's. -/
theorem Claims.places {n' : Network ι} (h : Claims i id client n n') (hnone : n.holder id = none)
    (hplaces : ∀ j other, n.place j = .connected other → n.holder other = some j) (j : ι)
    (other : ConnectionId) (hj : n'.place j = .connected other) : n'.holder other = some j := by
  by_cases hji : j = i
  · rw [hji] at hj ⊢
    rw [← Place.connected.inj (h.place.symm.trans hj)]
    exact h.holder
  · rw [h.place_of_ne j hji] at hj
    have hheld := hplaces j other hj
    rw [h.holder_of_ne other ?_]
    · exact hheld
    · rintro rfl
      exact absurd (hnone.symm.trans hheld) (by simp)

/-- Client `i` has got a connection, and has not done anything about it. -/
def welcome (n : Network ι) (i : ι) : Network ι :=
  ({ n with
      server := n.server.accept (n.address i)
      holder := fun j => if j = n.server.nextId then some i else n.holder j }.setPlace i
        (.connected n.server.nextId)).setClient i (n.client i).arriving

theorem connect_eq (n : Network ι) (i : ι) :
    n.connect i = (n.welcome i).turn i (n.client i).onServerConnected := by
  rw [turn_eq, welcome, setClient_setClient, ← turn_eq]
  rfl

theorem claims_welcome (n : Network ι) (i : ι) :
    Claims i n.server.nextId (n.client i).arriving n (n.welcome i) :=
  .intro n (n.server.accept (n.address i)) i n.server.nextId (n.client i).arriving

theorem connection?_welcome (h : n.Sound) (i : ι) (id : ConnectionId) :
    (n.welcome i).server.connection? id = if id = n.server.nextId then
      some ⟨n.server.nextId, n.address i, .registering, [], [], true⟩ else n.server.connection? id :=
  Server.connection?_accept h.ids _

theorem connection?_welcome_of_ne (h : n.Sound) (i : ι) (hne : id ≠ n.server.nextId) :
    (n.welcome i).server.connection? id = n.server.connection? id :=
  (connection?_welcome h i id).trans (if_neg hne)

/-- Nothing has happened on the connection that a client has just got. -/
theorem Sound.tied_welcome (h : n.Sound) (i : ι) : (n.welcome i).Tied i := by
  obtain ⟨hchannel, -⟩ := h.fresh _ (Server.connection?_nextId h.ids)
  have hclaims := n.claims_welcome i
  rw [← hclaims.channel] at hchannel
  refine .connected hclaims.place ((connection?_welcome h i _).trans (if_pos rfl)) ?_ ?_
  · rw [hchannel]
  · have hcoming : (n.welcome i).coming
        ⟨n.server.nextId, n.address i, .registering, [], [], true⟩ = [] := by
      rw [coming, hchannel]
      rfl
    have hempty : Inbox.empty.Reads (notices []) [] := .empty
    rw [Held, hclaims.client, hcoming, hchannel]
    exact .unregistered rfl (fun m hm => absurd hm List.not_mem_nil) (.choosing hempty)

theorem Sound.welcome (h : n.Sound) (hp : n.place i = .reaching)
    (hc : (n.client i).arriving.Consistent) : (n.welcome i).Sound := by
  have hclaims := n.claims_welcome i
  obtain ⟨-, hnone⟩ := h.fresh _ (Server.connection?_nextId h.ids)
  have hused : ∀ j id, n.place j = .connected id → id ≠ n.server.nextId := by
    rintro j _ hj rfl
    exact absurd (hnone.symm.trans (h.places j _ hj)) (by simp)
  refine ⟨?_, ?_, ?_, h.jobs, h.peers, ?_, hclaims.forall_client hc h.clients,
    hclaims.forall_client (P := (·.serverWritable = true)) rfl h.writable,
    hclaims.places hnone h.places, ?_, ?_⟩
  · intro c hm
    rcases List.mem_append.mp hm with hm | hm
    · exact Nat.lt_succ_of_lt (h.ids c hm)
    · rw [List.mem_singleton.mp hm]
      exact Nat.lt_succ_self _
  · intro id hid
    have hne : id ≠ n.server.nextId := by
      intro he
      rw [connection?_welcome h, if_pos he] at hid
      exact absurd hid (by simp)
    obtain ⟨hch, hh⟩ := h.fresh id ((connection?_welcome_of_ne h i hne).symm.trans hid)
    exact ⟨hch, (hclaims.holder_of_ne id hne).trans hh⟩
  · intro c hm
    rcases List.mem_append.mp hm with hm | hm
    · rw [hclaims.holder_of_ne c.id (Nat.ne_of_lt (h.ids c hm))]
      exact h.holders c hm
    · rw [List.mem_singleton.mp hm]
      exact ⟨i, hclaims.holder⟩
  · intro e he id ho
    obtain ⟨c, hc, hphase⟩ := h.owners e he id ho
    refine ⟨c, (connection?_welcome_of_ne h i fun hid => ?_).trans hc, hphase⟩
    obtain ⟨hm, hcid⟩ := Server.connection?_mem hc
    exact absurd (hcid.trans hid) (Nat.ne_of_lt (h.ids c hm))
  · intro j
    by_cases hj : j = i
    · rw [hj]
      exact h.tied_welcome i
    · refine (h.tied j).frame (hclaims.client_of_ne j hj) (hclaims.place_of_ne j hj) fun id hid => ?_
      exact ⟨connection?_welcome_of_ne h i (hused j id hid), rfl, fun e he => .inl he,
        fun name ha => ha⟩
  · intro j id hh hp'
    have hid : id ≠ n.server.nextId := by
      rintro rfl
      obtain rfl := Option.some.inj (hclaims.holder.symm.trans hh)
      exact hp' hclaims.place
    rw [hclaims.holder_of_ne id hid] at hh
    have hn : n.place j ≠ .connected id := by
      intro hn
      by_cases hj : j = i
      · rw [hj, hp] at hn
        exact absurd hn (by simp)
      · exact hp' ((hclaims.place_of_ne j hj).trans hn)
    exact (h.former j id hh hn).frame (connection?_welcome_of_ne h i hid) rfl fun e he _ => he

theorem Sound.connect (h : n.Sound) (hp : n.place i = .reaching) : (n.connect i).Sound := by
  have hstand := (h.tied i).stand_of_reaching hp
  obtain ⟨hcons, hdoes⟩ := does_onServerConnected (h.clients i) hstand
  rw [connect_eq]
  refine (h.welcome hp hcons).turn ?_
  rw [Network.welcome, client_setClient]
  exact hdoes

end PeerChat.Network
