import PeerChat.Proofs.Client.Incidents
import PeerChat.Proofs.Crowd.Invariant
import PeerChat.Proofs.Network.Clients

/-!
# What the clients of a crowd do

Whatever a client does, and whatever becomes of its connection, it stays on its terms with the handler
(`Civil.turn`), also where its own view of the connection ends before the server's.
-/

namespace PeerChat

theorem Client.Consistent.map {c : Client} (hc : c.Consistent) (f : Inbox → Inbox) {g : Link → Link}
    (hname : ∀ l, (g l).name = l.name) (hproper : ∀ l, l.Proper → (g l).Proper) :
    ({ c with inbox := c.inbox.map f, link := c.link.map g } : Client).Consistent := by
  refine ⟨hc.peers, fun l hl => ?_, hc.fits.map f hname⟩
  obtain ⟨m, hm, rfl⟩ := Option.map_eq_some_iff.mp hl
  exact hproper m (hc.links m hm)

theorem Client.Consistent.clog {c : Client} (hc : c.Consistent) :
    ({ c with serverWritable := false } : Client).Consistent :=
  ⟨hc.peers, hc.links, hc.fits.of_writable false⟩

namespace Network

variable {ι : Type} [DecidableEq ι] {n : Network ι} {i : ι} {id : ConnectionId} {c : Connection}
  {client : Client} {commands : List Command}

theorem routeAll_append (n : Network ι) (i : ι) (effects later : List Effect) :
    n.routeAll i (effects ++ later) = (n.routeAll i effects).routeAll i later := List.foldl_append

/-- A client at its connection has moved on, and said something. -/
theorem exists_said (hp : n.place i = .connected id) (client : Client) (commands : List Command) :
    ∃ m, (n.setClient i client).routeAll i (commands.map fun c => .sendServer c.bytes) = m ∧
      Acts i n m ∧ m.client i = client ∧ m.place i = .connected id ∧
        m.channel id = { n.channel id with up := (n.channel id).up ++ Command.bytesAll commands } := by
  refine ⟨_, routeAll_commands (n := n.setClient i client) hp commands, ?_, client_setClient n client,
    hp, ?_⟩
  · exact (Acts.setClient n client).trans (.onChannel (n := n.setClient i client) hp fun ch => rfl)
  · rw [send, channel_onChannel, channel_setClient]

/-- The client goes on at its connection, and has maybe sent something. -/
theorem Civil.stays (h : n.Civil) (hcons : client.Consistent) (hp : n.place i = .connected id)
    (hc : n.server.connection? id = some c)
    (hserved : Served c.phase ((n.channel id).up ++ Command.bytesAll commands) (n.channel id).jobs
      (n.channel id).told)
    (hterms : Terms c.phase ((n.channel id).up ++ Command.bytesAll commands) (n.channel id).jobs
      (n.coming c) client.stand) :
    ((n.setClient i client).routeAll i (commands.map fun c => .sendServer c.bytes)).Civil := by
  obtain ⟨m, hm, hacts, hclient, hplace, hchannel⟩ := exists_said hp client commands
  have hcoming : m.coming c = n.coming c := by
    rw [coming, coming, Server.connection?_id hc, hchannel]
  rw [hm]
  refine h.acts hacts (by rw [hclient]; exact hcons) ?_ fun j d hj hd => ?_
  · refine .connected hplace (by rw [hacts.server]; exact hc) ?_
    rw [hclient, hchannel, hcoming]
    exact hterms
  · obtain rfl := Place.connected.inj (hp.symm.trans hj)
    obtain rfl := Option.some.inj (hc.symm.trans hd)
    rw [hchannel]
    exact hserved

/-- The client leaves its connection, and has maybe sent something before. -/
theorem Civil.goes (h : n.Civil) (hcons : client.Consistent) (hp : n.place i = .connected id)
    (hc : n.server.connection? id = some c) {place : Place}
    (hplace : client.stand = .apart ∧ place = .none ∨ client.stand = .reaching ∧ place = .reaching)
    (hserved : Served c.phase ((n.channel id).up ++ Command.bytesAll commands) (n.channel id).jobs
      (n.channel id).told) :
    ((((n.setClient i client).routeAll i (commands.map fun c => .sendServer c.bytes)).hangUp i
      id).setPlace i place).Civil := by
  have hne : ∀ id, place ≠ .connected id := by
    rcases hplace with ⟨-, rfl⟩ | ⟨-, rfl⟩
    · simp
    · simp
  obtain ⟨m, hm, hsent, hclient, hplaced, hchannel⟩ := exists_said hp client commands
  rw [hm]
  have hleft : Acts i m ((m.hangUp i id).setPlace i place) := by
    have hended : Acts i m (m.onChannel id fun ch => { ch with upEnded := true }) :=
      .onChannel hplaced fun ch => rfl
    exact (hended.trans (.setPlace _ (by simp))).trans (.setPlace _ hne)
  have hclient' : ((m.hangUp i id).setPlace i place).client i = client := hclient
  refine h.acts (hsent.trans hleft) (by rw [hclient']; exact hcons) ?_ fun j d hj hd => ?_
  · have hplace' : ((m.hangUp i id).setPlace i place).place i = place := place_setPlace _ place
    rcases hplace with ⟨hs, rfl⟩ | ⟨hs, rfl⟩
    · exact .apart (by rw [hclient']; exact hs) hplace'
    · exact .reaching (by rw [hclient']; exact hs) hplace'
  · obtain rfl := Place.connected.inj (hp.symm.trans hj)
    obtain rfl := Option.some.inj (hc.symm.trans hd)
    have hlast : ((m.hangUp i id).setPlace i place).channel id =
        { m.channel id with upEnded := true } :=
      channel_onChannel m fun ch => { ch with upEnded := true }
    rw [hlast, hchannel]
    exact hserved

/-! ## Deed by deed -/

section Deeds

variable (h : n.Civil) (hcons : client.Consistent)
include h hcons

theorem Civil.still (hs : client.stand = (n.client i).stand) : (n.setClient i client).Civil := by
  have hclient : (n.setClient i client).client i = client := client_setClient n client
  refine h.acts (.setClient n client) (by rw [hclient]; exact hcons) ?_ fun id c hp hc => ?_
  · cases h.attached i with
    | apart stand place => exact .apart (by rw [hclient, hs]; exact stand) place
    | reaching stand place => exact .reaching (by rw [hclient, hs]; exact stand) place
    | connected place connection terms =>
      exact .connected place connection (by rw [hclient, hs]; exact terms)
  · exact h.served i id c (h.places i id hp) hc

theorem Civil.connects (before : (n.client i).stand = .apart) (after : client.stand = .reaching) :
    ((n.setClient i client).routeAll i [.connectServer]).Civil := by
  have hplace := (h.attached i).place_of_apart before
  have hroute : (n.setClient i client).routeAll i [.connectServer] =
      (n.setClient i client).setPlace i .reaching := rfl
  rw [hroute]
  have hclient : ((n.setClient i client).setPlace i .reaching).client i = client :=
    client_setClient n client
  refine h.acts ((Acts.setClient n client).trans (.setPlace _ (by simp))) (by rw [hclient]; exact hcons) ?_ ?_
  · exact .reaching (by rw [hclient]; exact after) (place_setPlace _ _)
  · exact fun id c hp _ => absurd (hplace.symm.trans hp) (by simp)

/-- The client goes on at its connection, and sends nothing. -/
theorem Civil.moves_on {stand : Stand} (before : (n.client i).stand = stand) (ha : stand ≠ .apart)
    (hr : stand ≠ .reaching)
    (hterms : ∀ {phase : Phase} {up : Bytes} {jobs : List Job} {coming : Bytes},
      Terms phase up jobs coming stand → Terms phase up jobs coming client.stand) :
    (n.setClient i client).Civil := by
  obtain ⟨id, c, hp, hc, ht⟩ := (h.attached i).exists_terms before ha hr
  have hnone : (n.channel id).up ++ Command.bytesAll [] = (n.channel id).up := List.append_nil _
  have hserved := h.served i id c (h.places i id hp) hc
  rw [← hnone] at hserved ht
  exact h.stays hcons hp hc hserved (hterms ht)

/-- The client gives its connection up without a word. -/
theorem Civil.gives_up {stand : Stand} (before : (n.client i).stand = stand) (ha : stand ≠ .apart)
    (hr : stand ≠ .reaching) (after : client.stand = .apart) :
    ((n.setClient i client).routeAll i [.closeServer]).Civil := by
  obtain ⟨id, c, hp, hc, -⟩ := (h.attached i).exists_terms before ha hr
  have hserved := h.served i id c (h.places i id hp) hc
  have hnone : (n.channel id).up ++ Command.bytesAll [] = (n.channel id).up := List.append_nil _
  rw [← hnone] at hserved
  have hgoes := h.goes hcons hp hc (.inl ⟨after, rfl⟩) hserved
  have hroute : (n.setClient i client).routeAll i [.closeServer] =
      (n.setClient i client).hangUp i id := route_closeServer (n := n.setClient i client) hp
  rw [hroute]
  unfold hangUp at hgoes ⊢
  rwa [setPlace_setPlace] at hgoes

theorem Civil.offers {inbox : Inbox} {name : String} {port : UInt16}
    (before : (n.client i).stand = .choosing inbox) (valid : (Command.register name port).Valid)
    (after : client.stand = .signing name inbox) :
    ((n.setClient i client).routeAll i [.sendServer (Command.register name port).bytes]).Civil := by
  obtain ⟨id, c, hp, hc, ht⟩ := (h.attached i).exists_terms before (by simp) (by simp)
  have hserved := h.served i id c (h.places i id hp) hc
  refine h.stays hcons hp hc (hserved.registers valid ht.handler_of_choosing) ?_
  rw [after]
  exact ht.offers name port

omit hcons [DecidableEq ι] in
/-- What a linked client can say. -/
theorem Civil.exists_linked {l : Link} (before : (n.client i).stand = .linked l)
    (hsent : ∀ c ∈ commands, c.Valid ∧ ∀ own, (Phase.registered own).Allows c) :
    ∃ id c, n.place i = .connected id ∧ n.server.connection? id = some c ∧
      Served c.phase ((n.channel id).up ++ Command.bytesAll commands) (n.channel id).jobs
        (n.channel id).told ∧
      Terms c.phase (n.channel id).up (n.channel id).jobs (n.coming c) (.linked l) := by
  obtain ⟨id, c, hp, hc, ht⟩ := (h.attached i).exists_terms before (by simp) (by simp)
  refine ⟨id, c, hp, hc, ?_, ht⟩
  refine (h.served i id c (h.places i id hp) hc).sends (fun c hm => (hsent c hm).1) ?_
  refine ht.handler_of_linked.imp_right fun ⟨own, hown⟩ => ⟨own, hown, fun c hm => ?_⟩
  rw [hown]
  exact (hsent c hm).2 own

theorem Civil.speaks {l l' : Link} (before : (n.client i).stand = .linked l)
    (after : client.stand = .linked l')
    (hsent : ∀ c ∈ commands, c.Valid ∧ ∀ own, (Phase.registered own).Allows c)
    (hears : ∀ {coming : Bytes}, l.Hears coming → l'.Hears coming) :
    ((n.setClient i client).routeAll i (commands.map fun c => .sendServer c.bytes)).Civil := by
  obtain ⟨id, c, hp, hc, hserved, ht⟩ := h.exists_linked before hsent
  refine h.stays hcons hp hc hserved ?_
  rw [after]
  exact ht.speaks hears

/-- A linked client takes its leave. -/
theorem Civil.takes_leave {l : Link} (before : (n.client i).stand = .linked l)
    (hsent : ∀ c ∈ commands, c.Valid ∧ ∀ own, (Phase.registered own).Allows c) :
    (client.stand = .apart →
      ((n.setClient i client).routeAll i
        ((commands.map fun c => .sendServer c.bytes) ++ [.closeServer])).Civil) ∧
    (client.stand = .reaching →
      ((n.setClient i client).routeAll i
        ((commands.map fun c => .sendServer c.bytes) ++ [.closeServer, .connectServer])).Civil) := by
  obtain ⟨id, c, hp, hc, hserved, -⟩ := h.exists_linked before hsent
  obtain ⟨m, hm, -, -, hplace, -⟩ := exists_said hp client commands
  rw [← hm] at hplace
  have hclose : ((n.setClient i client).routeAll i
      (commands.map fun c => .sendServer c.bytes)).routeAll i [.closeServer] = _ :=
    route_closeServer hplace
  refine ⟨fun after => ?_, fun after => ?_⟩
  · have hgoes := h.goes hcons hp hc (.inl ⟨after, rfl⟩) hserved
    rw [routeAll_append, hclose]
    unfold hangUp at hgoes ⊢
    rwa [setPlace_setPlace] at hgoes
  · have hgoes := h.goes hcons hp hc (.inr ⟨after, rfl⟩) hserved
    rw [show [Effect.closeServer, .connectServer] = [.closeServer] ++ [.connectServer] from rfl,
      ← List.append_assoc, routeAll_append, routeAll_append, hclose]
    exact hgoes

end Deeds

/-- Whatever a client does, the crowd stays civil. -/
theorem Civil.turn (h : n.Civil) {t : Turn} (hd : Does (n.client i) [] t) : (n.turn i t).Civil := by
  obtain ⟨hcons, -, done, hdone, hdeed⟩ := hd
  rw [turn_eq, hdone, List.nil_append]
  cases hdeed with
  | still stand name peers => exact h.still hcons stand
  | connects before after name => exact h.connects hcons before after
  | offers before writable valid named after => exact h.offers hcons before ⟨valid, named⟩ after
  | leaves before after => exact h.gives_up hcons before (by simp) (by simp) after
  | waits before reply after peers =>
    refine h.moves_on hcons before (by simp) (by simp) fun ht => ?_
    rw [show t.client.stand = _ from after]
    exact ht.waits reply
  | admitted before reply after peers =>
    refine h.moves_on hcons before (by simp) (by simp) fun ht => ?_
    rw [show t.client.stand = _ from after]
    rcases ht.replied reply with ⟨-, hl⟩ | ⟨hne, -⟩ | hne | hne
    · exact hl
    all_goals exact absurd hne (by simp)
  | refused before reply after =>
    refine h.moves_on hcons before (by simp) (by simp) fun ht => ?_
    rw [show t.client.stand = _ from after]
    rcases ht.replied reply with ⟨hne, -⟩ | ⟨-, hl⟩ | hne | hne
    · exact absurd hne (by simp)
    · exact hl
    all_goals exact absurd hne (by simp)
  | rejected before reply failed after => exact h.gives_up hcons before (by simp) (by simp) after
  | asks before writable after peers name =>
    have hsent : ∀ c ∈ [Command.listPeers], c.Valid ∧ ∀ own, (Phase.registered own).Allows c := by
      intro c hc
      rw [List.mem_singleton.mp hc]
      exact ⟨trivial, fun own => trivial⟩
    exact h.speaks hcons before after hsent fun hears => hears
  | @attends l update updates before next able after peers name =>
    have hmap : ((alerts [update]).map fun _ => Effect.sendServer Command.listPeers.bytes) =
        ((alerts [update]).map fun _ => Command.listPeers).map fun c => .sendServer c.bytes := by
      rw [List.map_map]
      rfl
    rw [hmap]
    refine h.speaks hcons before after ?_ fun hears => hears.attend next
    intro c hc
    obtain ⟨name, -, rfl⟩ := List.mem_map.mp hc
    exact ⟨trivial, fun own => trivial⟩
  | @reports l target before valid after peers name =>
    obtain ⟨sent, hsub, hsent⟩ := (n.client i).face.exists_sends [.reportGone target, .listPeers]
    rw [hsent]
    refine h.speaks hcons before after ?_ fun hears => hears
    intro c hc
    rcases List.mem_cons.mp (hsub hc) with rfl | hc
    · exact ⟨valid, fun own => trivial⟩
    · rw [List.mem_singleton.mp hc]
      exact ⟨trivial, fun own => trivial⟩
  | @withdraws l before after name =>
    obtain ⟨sent, hsub, hsent⟩ := (n.client i).face.exists_sends [.remove l.name]
    have hname := ((h.clients i).of_link (Client.link_of_stand before)).2
    rw [hsent]
    refine (h.takes_leave hcons before fun c hc => ?_).1 after
    rw [List.mem_singleton.mp (hsub hc)]
    exact ⟨hname, fun own => trivial⟩
  | @returns l before after name =>
    obtain ⟨sent, hsub, hsent⟩ := (n.client i).face.exists_sends [.remove l.name]
    have hname := ((h.clients i).of_link (Client.link_of_stand before)).2
    rw [hsent]
    refine (h.takes_leave hcons before fun c hc => ?_).2 after
    rw [List.mem_singleton.mp (hsub hc)]
    exact ⟨hname, fun own => trivial⟩
  | loses before finished after => exact h.gives_up hcons before (by simp) (by simp) after

/-! ## What becomes of a connection -/

/-- Something has become of what a client can read, which is nothing new to the server. -/
theorem Civil.finds (h : n.Civil) (f : Inbox → Inbox) {g : Link → Link}
    (hname : ∀ l, (g l).name = l.name) (hproper : ∀ l, l.Proper → (g l).Proper)
    (hterms : ∀ id c, n.place i = .connected id → n.server.connection? id = some c →
      Terms c.phase (n.channel id).up (n.channel id).jobs (n.coming c) (n.client i).stand →
      Terms c.phase (n.channel id).up (n.channel id).jobs (n.coming c)
        ((n.client i).stand.map f g)) :
    (n.setClient i { n.client i with
      inbox := (n.client i).inbox.map f, link := (n.client i).link.map g }).Civil := by
  have hstand := (n.client i).stand_map f g
  have hcons := (h.clients i).map f hname hproper
  generalize ({ n.client i with inbox := (n.client i).inbox.map f, link := (n.client i).link.map g } :
    Client) = client at hstand hcons
  have hclient : (n.setClient i client).client i = client := client_setClient n client
  refine h.acts (.setClient n client) (by rw [hclient]; exact hcons) ?_ fun id c hp hc => ?_
  · cases h.attached i with
    | apart stand place => exact .apart (by rw [hclient, hstand, stand]; rfl) place
    | reaching stand place => exact .reaching (by rw [hclient, hstand, stand]; rfl) place
    | @connected id c place connection terms =>
      refine .connected place connection ?_
      rw [hclient, hstand]
      exact hterms id c place connection terms
  · exact h.served i id c (h.places i id hp) hc

theorem Civil.fail (h : n.Civil) (i : ι) : (n.setClient i (n.client i).onServerFailed).Civil := by
  exact h.finds Inbox.fail (fun l => rfl) (fun l hl => hl.fail) fun id c _ _ ht => ht.fail

theorem Civil.finish (h : n.Civil) (i : ι) : (n.finish i).Civil := by
  unfold Network.finish
  split
  · rename_i id hp
    split
    · rename_i c hc
      split
      · rename_i hend
        obtain ⟨-, hout, hdown⟩ := hend
        refine h.finds Inbox.serverEnded (fun l => rfl) (fun l hl => hl.serverEnded) ?_
        intro j d hj hd ht
        obtain rfl := Place.connected.inj (hp.symm.trans hj)
        obtain rfl := Option.some.inj (hc.symm.trans hd)
        have hcoming : n.coming c = [] := by
          rw [coming, Server.connection?_id hc, hdown, hout]
          rfl
        rw [hcoming] at ht ⊢
        exact ht.finish
      · exact h
    · exact h
  · exact h

theorem Civil.clog (h : n.Civil) (i : ι) :
    (n.setClient i { n.client i with serverWritable := false }).Civil :=
  h.still (h.clients i).clog rfl

/-- Bytes from the server arrive. -/
theorem Civil.arrive (h : n.Civil) {i : ι} (he : (n.client i).hasEnd = false) (count : Nat) :
    (n.arrive i count).Civil := by
  rcases n.arrive_cases i count with hn | ⟨id, hp, hacts, hp', hclient, hchannel⟩
  · rw [hn]
    exact h
  · generalize n.arrive i count = n' at hacts hp' hclient hchannel
    refine h.acts hacts ?_ ?_ fun j d hj hd => ?_
    · rw [hclient]
      exact (h.clients i).onServerSent _
    · obtain ⟨c, hc, ht⟩ := (h.attached i).terms hp
      refine .connected hp' (by rw [hacts.server]; exact hc) ?_
      rw [hclient, Client.stand_onServerSent, hchannel]
      rw [coming_of_arrived hc hchannel] at ht
      exact ht.receive (Client.hasEnd_stand he)
    · obtain rfl := Place.connected.inj (hp.symm.trans hj)
      rw [hchannel]
      exact h.served i id d (h.places i id hp) hd

/-- The server is out of reach. -/
theorem Civil.unreachable (h : n.Civil) (hp : n.place i = .reaching) (cause : TransportError) :
    ((n.setPlace i .none).turn i ((n.client i).onServerUnreachable cause)).Civil := by
  have hstand := (h.attached i).stand_of_reaching hp
  obtain ⟨hcons, -, hs, hto⟩ := onServerUnreachable_spec (h.clients i) hstand cause
  generalize (n.client i).onServerUnreachable cause = t at hcons hs hto
  rw [turn_of_silent hto]
  have hclient : ((n.setPlace i .none).setClient i t.client).client i = t.client :=
    client_setClient _ _
  refine h.acts ((Acts.setPlace n (by simp)).trans (.setClient _ _)) (by rw [hclient]; exact hcons) ?_ ?_
  · exact .apart (by rw [hclient]; exact hs) (place_setPlace n _)
  · exact fun id c hid _ => absurd (hp.symm.trans hid) (by simp)

/-- A client takes a connection that is nobody's, and on which nothing has happened. -/
theorem Civil.claim (h : n.Civil) (hc : n.server.connection? id = some c) (hh : n.holder id = none)
    (hch : n.channel id = {}) (hphase : c.phase = .registering) (hout : c.outbox = [])
    (hcons : client.Consistent) (hs : client.stand = .choosing .empty) :
    ((({ n with holder := fun j => if j = id then some i else n.holder j } : Network ι).setPlace i
      (.connected id)).setClient i client).Civil := by
  have hclaims := Claims.intro n n.server i id client
  generalize hn : ((({ n with holder := _ } : Network ι).setPlace i _).setClient i client) = n'
    at hclaims
  have hserver : n'.server = n.server := by rw [← hn]; rfl
  have hchannel := hclaims.channel
  refine ⟨hserver ▸ h.ids, fun j hj => ?_, fun j job hm => ?_, fun e he => ?_,
    hclaims.forall_client hcons h.clients, hclaims.places hh h.places, fun j k d hk hd => ?_,
    fun j => ?_⟩
  · rw [hserver] at hj
    rw [hchannel, hclaims.holder_of_ne j ?_]
    · exact h.fresh j hj
    · rintro rfl
      exact absurd (hc.symm.trans hj) (by simp)
  · rw [hchannel] at hm
    exact h.jobs j job hm
  · rw [entries, hserver] at he
    exact h.peers e he
  · rw [hserver] at hd
    rw [hchannel]
    by_cases hid : k = id
    · rw [hid] at hd ⊢
      obtain rfl := Option.some.inj (hc.symm.trans hd)
      rw [hch]
      exact .of_nil (by simp [Job.replies]) (by simp)
    · exact h.served j k d ((hclaims.holder_of_ne k hid).symm.trans hk) hd
  · by_cases hj : j = i
    · rw [hj]
      refine .connected hclaims.place (by rw [hserver]; exact hc) ?_
      have hcoming : n'.coming c = [] := by
        rw [coming, hchannel, Server.connection?_id hc, hch, hout]
        rfl
      have hempty : Inbox.empty.Sees (notices []) [] := .empty
      rw [hclaims.client, hs, hcoming, hchannel, hch, hphase]
      exact .choosing hempty rfl (.inr ⟨rfl, rfl, rfl⟩)
    · exact (h.attached j).frame (hclaims.client_of_ne j hj) (hclaims.place_of_ne j hj) fun k _ =>
        ⟨by rw [hserver], by rw [hchannel]⟩

theorem Civil.connect (h : n.Civil) (hp : n.place i = .reaching) : (n.connect i).Civil := by
  have hstand := (h.attached i).stand_of_reaching hp
  obtain ⟨hcons, hdoes⟩ := does_onServerConnected (h.clients i) hstand
  obtain ⟨hchannel, hholder⟩ := h.fresh _ (Server.connection?_nextId h.ids)
  have hconn : (n.server.accept (n.address i)).connection? n.server.nextId =
      some ⟨n.server.nextId, n.address i, .registering, [], [], true⟩ :=
    (Server.connection?_accept h.ids _).trans (if_pos rfl)
  have hwelcome : (n.welcome i).Civil :=
    (h.enter (n.address i)).claim hconn hholder hchannel rfl rfl hcons rfl
  rw [connect_eq]
  refine hwelcome.turn ?_
  rw [welcome, client_setClient]
  exact hdoes

end Network

end PeerChat
