import PeerChat.Proofs.Network.Handlers

/-!
# What the server's handlers read

What a handler reads is a command that its client has sent, or the end of what the client has sent
(`Sound.read`).
-/

namespace PeerChat

theorem Command.read_bytes {command : Command} (h : command.Valid) (ended : Bool) (rest : Bytes) :
    Line.read Line.maxSize ended (command.bytes ++ rest) = .line command.text rest := by
  rw [bytes, line, Line.write_line]
  exact Line.read_encode (fits_text h) rest

namespace Network

variable {ι : Type} {n n' : Network ι} {i : ι} {id : ConnectionId} {c : Connection} {s : Server}
  {jobs : List Job} {rest : Bytes}

/-- The handler of a connection has read on, up to `rest`, and made the first step. -/
def readTo (n : Network ι) (id : ConnectionId) (rest : Bytes) (step : Server × List Job) :
    Network ι :=
  { n with server := step.1 }.onChannel id fun ch => { ch with up := rest, jobs := step.2 }

theorem read_of_idle (hc : n.server.connection? id = some c)
    (h : Line.read Line.maxSize (n.channel id).upEnded (n.channel id).up = .incomplete) :
    n.read id = n := by
  unfold Network.read
  rw [hc]
  simp only [h, ite_self]

theorem read_of_busy (h : (n.channel id).jobs ≠ []) : n.read id = n := by
  unfold Network.read
  split
  · exact if_pos (.inr h)
  · rfl

theorem read_of_closed (hc : n.server.connection? id = some c) (h : c.phase = .closed) :
    n.read id = n := by
  unfold Network.read
  rw [hc]
  exact if_pos (.inl h)

section

variable (hc : n.server.connection? id = some c) (hopen : c.phase ≠ .closed)
  (hidle : (n.channel id).jobs = [])
include hc hopen hidle

theorem read_command {command : Command} (hv : command.Valid)
    (hup : (n.channel id).up = command.bytes ++ rest) :
    n.read id = n.readTo id rest (n.server.beginCommand c command) := by
  obtain rfl := Server.connection?_id hc
  unfold Network.read
  rw [hc]
  simp only [hup, Command.read_bytes hv, hopen, hidle, ne_eq, not_true_eq_false, or_self, if_false]
  rw [take, Server.begin_text hv]
  rfl

theorem read_end (hended : (n.channel id).upEnded = true) (hup : (n.channel id).up = []) :
    n.read id = n.readTo id [] (n.server, Server.closing) := by
  obtain rfl := Server.connection?_id hc
  have hread : Line.read Line.maxSize true [] = .ended := by decide
  unfold Network.read
  rw [hc]
  simp only [hup, hended, hread, hopen, hidle, ne_eq, not_true_eq_false, or_self, if_false]
  rfl

end

theorem channel_readTo (step : Server × List Job) :
    (n.readTo id rest step).channel id = { n.channel id with up := rest, jobs := step.2 } :=
  channel_onChannel _ _

/-- What the first step about a line does to the server: it changes one connection, and enters
nobody but the peer of that connection, whom it is then about to announce. -/
structure Begins (n : Network ι) (c : Connection) (step : Server × List Job) (c' : Connection) :
    Prop where
  nextId : step.1.nextId = n.server.nextId
  known : step.1.connections.map (·.id) = n.server.connections.map (·.id)
  others : ∀ j, j ≠ c.id → step.1.connection? j = n.server.connection? j
  connection : step.1.connection? c.id = some c'
  phase : c.phase = .registering ∨ c'.phase = c.phase
  jobs : ∀ job ∈ step.2, job.Valid
  entries : ∀ e ∈ step.1.directory.entries, e ∈ n.entries ∨ e.peer.Valid ∧ e.owner = some c.id ∧
    c'.phase = .registered e.peer.name ∧ .announce (.newcomer e.peer.name) ∈ step.2

theorem Sound.readTo (h : n.Sound) {step : Server × List Job} {c' : Connection}
    (hc : n.server.connection? id = some c) (hidle : (n.channel id).jobs = [])
    (hb : n.Begins c step c')
    (hheld : ∀ i, n.place i = .connected id → n.Held i id c →
      (n.readTo id rest step).Held i id c')
    (hformer : n.Former id → (n.readTo id rest step).Former id) : (n.readTo id rest step).Sound := by
  obtain rfl := Server.connection?_id hc
  have hserves : Serves [c.id] n (n.readTo c.id rest step) :=
    (Serves.setServer n (List.mem_singleton.mpr rfl) hb.nextId hb.known hb.others).trans
      (.onChannel _ (List.mem_singleton.mpr rfl) fun ch => rfl)
  refine h.serves_one hserves ⟨c, hc⟩ ?_ (fun e he => ?_) ?_ (fun d hd => ?_) hformer
  · rw [channel_readTo]
    exact hb.jobs
  · rcases hb.entries e he with hm | ⟨hv, ho, hp, hj⟩
    · exact .inl hm
    · refine .inr ⟨hv, ho, ⟨c', hb.connection, hp⟩, fun j hj' => ?_⟩
      exact ⟨c.id, fun he => hj' he.symm, _, by rw [channel_readTo]; exact hj, .inl rfl⟩
  · rintro j - d - - name ⟨k, hne, job, hm, ht⟩
    have hk : k ≠ c.id := by
      rintro rfl
      rw [hidle] at hm
      exact absurd hm List.not_mem_nil
    exact ⟨k, hne, job, by rwa [hserves.channel k (by simpa using hk)], ht⟩
  · obtain rfl := Option.some.inj (hc.symm.trans hd)
    exact ⟨c', hb.connection, hb.phase.elim .inl fun hp => .inr (.inl hp), hheld⟩

/-- A connection is held by its client, or the client has left it. -/
theorem Sound.held_or_former (h : n.Sound) (hc : n.server.connection? id = some c) :
    (∃ i, n.place i = .connected id ∧ (n.channel id).upEnded = false ∧ n.Held i id c) ∨
      n.Former id := by
  obtain ⟨hm, hid⟩ := Server.connection?_mem hc
  obtain ⟨i, hi⟩ := h.holders c hm
  by_cases hp : n.place i = .connected id
  · obtain ⟨d, hd, hg, held⟩ := (h.tied i).held hp
    obtain rfl := Option.some.inj (hc.symm.trans hd)
    exact .inl ⟨i, hp, hg, held⟩
  · exact .inr (h.former i id (hid ▸ hi) hp)

theorem Former.ended (h : n.Former id) : (n.channel id).upEnded = true := by
  cases h with
  | free ended up none => exact ended
  | leaving ended connection phase valid up sent goesOn => exact ended

section

variable {step : Server × List Job} {c' : Connection} (h : n.Sound)
  (hc : n.server.connection? id = some c) (hidle : (n.channel id).jobs = [])
  (hb : n.Begins c step c')
include h hc hidle hb

/-- The client holds the connection. -/
theorem Sound.readTo_held (hp : n.place i = .connected id) (hid : c'.id = c.id)
    (hout : c'.outbox = c.outbox)
    (hs : Stage step.1.directory.entries (n.Awaited id) (n.client i).stand (n.client i).peers c'.phase
      rest step.2 (n.channel id).told (n.coming c)) : (n.readTo id rest step).Sound := by
  refine h.readTo hc hidle hb (fun j hj _ => ?_) fun hf => ?_
  · obtain rfl : i = j := Option.some.inj ((h.places i id hp).symm.trans (h.places j id hj))
    have hcoming : (n.readTo id rest step).coming c' = n.coming c := by
      rw [coming, coming, hid, Server.connection?_id hc, channel_readTo, hout]
    rw [Held, channel_readTo, hcoming]
    refine hs.mono (fun e he => .inl he) fun name hawaited => ?_
    obtain ⟨k, hne, job, hm, ht⟩ := hawaited
    exact ⟨k, hne, job, by rwa [Network.readTo, channel_onChannel_of_ne _ _ hne], ht⟩
  · obtain ⟨d, -, hg, -⟩ := (h.tied i).held hp
    rw [hf.ended] at hg
    exact absurd hg (by simp)

/-- The client has left the connection. -/
theorem Sound.readTo_former (hf : n.Former id) (hf' : (n.readTo id rest step).Former id) :
    (n.readTo id rest step).Sound := by
  refine h.readTo hc hidle hb (fun i hp _ => ?_) fun _ => hf'
  obtain ⟨d, -, hg, -⟩ := (h.tied i).held hp
  rw [hf.ended] at hg
  exact absurd hg (by simp)

end

/-! ## Commands -/

/-- A first step that only leaves jobs. -/
theorem Begins.stay (hc : n.server.connection? id = some c) {jobs : List Job}
    (hv : ∀ job ∈ jobs, job.Valid) : n.Begins c (n.server, jobs) c :=
  ⟨rfl, rfl, fun _ _ => rfl, Server.connection?_id hc ▸ hc, .inr rfl, hv, fun _ he => .inl he⟩

/-- A first step that takes an entry out of the directory. -/
theorem Begins.erase (hc : n.server.connection? id = some c) (name : String) {jobs : List Job}
    (hv : ∀ job ∈ jobs, job.Valid) :
    n.Begins c ({ n.server with directory := n.server.directory.erase name }, jobs) c :=
  ⟨rfl, rfl, fun _ _ => rfl, Server.connection?_id hc ▸ hc, .inr rfl, hv,
    fun _ he => .inl (Directory.mem_erase.mp he).1⟩

/-- A registration enters a peer of the connection's. -/
theorem Begins.register (hc : n.server.connection? id = some c) (hp : c.phase = .registering)
    {name : String} {port : UInt16} (hv : (Command.register name port).Valid) {d : Directory}
    {others : List Peer}
    (hins : n.server.directory.insert ⟨name, c.address, port⟩ (some c.id) = .ok (d, others))
    (ho : ∀ p ∈ others, p.Valid) :
    n.Begins c (({ n.server with directory := d } : Server).update c.id fun c =>
      { c with phase := .registered name }, [.reply (.peerList others), .announce (.newcomer name)])
      { c with phase := .registered name } := by
  obtain ⟨-, -, hd, -⟩ := Directory.insert_eq_ok hins
  have hentries : d.entries = Directory.place ⟨⟨name, c.address, port⟩, some c.id⟩ n.entries := by
    rw [hd]
    rfl
  refine ⟨rfl, ?_, fun j hj => ?_, ?_, .inl hp, ?_, fun e he => ?_⟩
  · exact Server.ids_update fun c => rfl
  · exact (Server.connection?_update (by exact fun c => rfl)).trans (if_neg hj)
  · have hself : ({ n.server with directory := d } : Server).connection? c.id = some c :=
      Server.connection?_id hc ▸ hc
    exact Server.connection?_update_self (by exact fun c => rfl) hself
  · intro job hm
    rcases List.mem_cons.mp hm with rfl | hm
    · exact ServerMessage.valid_peerList ho
    · rw [List.mem_singleton.mp hm]
      exact ⟨name, rfl, hv.1⟩
  · have he : e ∈ d.entries := he
    rw [hentries, Directory.mem_place] at he
    rcases he with rfl | he
    · exact .inr ⟨⟨hv.1, hv.2⟩, rfl, rfl, by simp⟩
    · exact .inl he

section

variable (hpeers : ∀ e ∈ n.entries, e.peer.Valid)
include hpeers

theorem valid_peers (except : Option String) : ∀ p ∈ n.server.directory.peers except, p.Valid := by
  intro p hp
  obtain ⟨⟨e, he, rfl⟩, -⟩ := Directory.mem_peers.mp hp
  exact hpeers e he

/-- A peer that registers is told of valid peers. -/
theorem valid_inserted {name : String} {port : UInt16} (hv : (Command.register name port).Valid)
    {d : Directory} {others : List Peer}
    (hins : n.server.directory.insert ⟨name, c.address, port⟩ (some c.id) = .ok (d, others)) :
    ∀ p ∈ others, p.Valid := by
  intro p hp
  obtain ⟨-, -, hd, ho⟩ := Directory.insert_eq_ok hins
  rw [ho, hd] at hp
  obtain ⟨⟨e, he, rfl⟩, -⟩ := Directory.mem_peers.mp hp
  rcases Directory.mem_place.mp he with rfl | he
  · exact ⟨hv.1, hv.2⟩
  · exact hpeers e he

end

section

variable (h : n.Sound) (hc : n.server.connection? id = some c) (hidle : (n.channel id).jobs = [])
include h hc hidle

/-- A connection that is not registered, and is still its client's. -/
theorem Sound.read_registering (hp : n.place i = .connected id) (hphase : c.phase = .registering)
    (held : n.Held i id c) : (n.read id).Sound := by
  have hopen : c.phase ≠ .closed := by simp [hphase]
  obtain ⟨d, -, hg, -⟩ := (h.tied i).held hp
  rw [Held, hidle] at held
  rcases held.registers hphase with hup | ⟨name, port, hv, hup, hrefused, hentered⟩
  · rw [read_of_idle hc (by rw [hup, hg]; decide)]
    exact h
  · rw [read_command hc hopen hidle hv (hup.trans (List.append_nil _).symm)]
    have hbegin : n.server.beginCommand c (.register name port) =
        n.server.beginRegister c name port := by simp only [Server.beginCommand, hphase]
    rw [hbegin]
    rcases Server.beginRegister_cases n.server c name port with ⟨d, others, hins, hb⟩ | ⟨m, hm, hb⟩
    · obtain ⟨-, -, hd, ho⟩ := Directory.insert_eq_ok hins
      have hvalid := valid_inserted h.peers hv hins
      rw [hb]
      refine h.readTo_held hc hidle (.register hc hphase hv hins hvalid) hp
        rfl rfl ?_
      refine hentered d.entries _ others hvalid fun e he hne => ?_
      rw [ho]
      exact Directory.mem_peers.mpr ⟨⟨e, he, rfl⟩, by simpa using hne⟩
    · rw [hb]
      have hjobs : ∀ job ∈ [Job.reply m], job.Valid := by
        intro job hj
        rw [List.mem_singleton.mp hj]
        exact ServerMessage.Refuses.valid hm
      exact h.readTo_held hc hidle (.stay hc hjobs) hp rfl rfl (hrefused m hm)

/-- A registered connection that is still its client's. -/
theorem Sound.read_registered (hp : n.place i = .connected id) {own : String}
    (hphase : c.phase = .registered own) (held : n.Held i id c) : (n.read id).Sound := by
  have hopen : c.phase ≠ .closed := by simp [hphase]
  obtain ⟨d, -, hg, -⟩ := (h.tied i).held hp
  rw [Held, hidle] at held
  rcases held.reads hphase with hup | ⟨rest, hup, hlist⟩ | ⟨gone, rest, hgone, hup, hrest⟩
  · rw [read_of_idle hc (by rw [hup, hg]; decide)]
    exact h
  · have hbegin : n.server.beginCommand c .listPeers =
        (n.server, [.reply (.peerList (n.server.directory.peers (some own)))]) := by
      simp only [Server.beginCommand, hphase]
    have hv : Command.listPeers.Valid := trivial
    rw [read_command hc hopen hidle hv hup, hbegin]
    have hvalid := valid_peers h.peers (some own)
    have hjobs : ∀ job ∈ [Job.reply (.peerList (n.server.directory.peers (some own)))],
        job.Valid := by
      intro job hj
      rw [List.mem_singleton.mp hj]
      exact ServerMessage.valid_peerList hvalid
    refine h.readTo_held hc hidle (.stay hc hjobs) hp rfl rfl
      (hlist _ hvalid fun e he hne => ?_)
    exact Directory.mem_peers.mpr ⟨⟨e, he, rfl⟩, by simpa using hne⟩
  · have hbegin : n.server.beginCommand c (.reportGone gone) =
        ({ n.server with directory := n.server.directory.erase gone }, []) := by
      simp only [Server.beginCommand, hphase]
    have hv : (Command.reportGone gone).Valid := hgone
    have hb : n.Begins c ({ n.server with directory := n.server.directory.erase gone }, []) c :=
      .erase hc gone (by simp)
    rw [read_command hc hopen hidle hv hup, hbegin]
    refine h.readTo_held hc hidle hb hp rfl rfl ?_
    exact hrest.mono (fun e he => .inl (Directory.mem_erase.mp he).1) fun name ha => ha

/-- A connection that its client has left. -/
theorem Sound.read_former (hopen : c.phase ≠ .closed) (hf : n.Former id) : (n.read id).Sound := by
  cases hf with
  | free ended up none =>
    rw [read_end hc hopen hidle ended up]
    refine h.readTo_former hc hidle (.stay hc Job.valid_closing) (.free ended up none) ?_
    exact .free (by rw [channel_readTo]; exact ended) (by rw [channel_readTo]) none
  | @leaving d own commands ended connection phase valid up sent goesOn =>
    obtain rfl := Option.some.inj (hc.symm.trans connection)
    have hf : n.Former id := .leaving ended connection phase valid up sent goesOn
    cases commands with
    | nil =>
      have hv : (Command.remove own).Valid := valid
      have hbegin : n.server.beginCommand c (.remove own) =
          ({ n.server with directory := n.server.directory.erase own }, Server.closing) := by
        simp only [Server.beginCommand, phase]
      rw [read_command hc hopen hidle hv (up.trans (List.append_nil _).symm), hbegin]
      refine h.readTo_former hc hidle (.erase hc own Job.valid_closing) hf ?_
      refine .free (by rw [channel_readTo]; exact ended) (by rw [channel_readTo]) fun e he ho => ?_
      obtain ⟨he, hne⟩ := Directory.mem_erase.mp he
      obtain ⟨d, hd, hp⟩ := h.owners e he id ho
      obtain rfl := Option.some.inj (hc.symm.trans hd)
      rw [phase] at hp
      rcases hp with hp | hp
      · exact hne (Phase.registered.inj hp).symm
      · exact absurd hp (by simp)
    | cons command later =>
      have hlater : ∀ d ∈ later, d.GoesOn := fun d hd => sent d (List.mem_cons_of_mem _ hd)
      have hup : (n.channel id).up =
          command.bytes ++ (Command.bytesAll later ++ (Command.remove own).bytes) := by
        rw [up, Command.bytesAll, List.flatMap_cons, List.append_assoc]
        rfl
      cases command with
      | register name port => exact (sent _ (List.mem_cons_self ..)).elim
      | remove name => exact (sent _ (List.mem_cons_self ..)).elim
      | listPeers =>
        have hv : Command.listPeers.Valid := trivial
        have hbegin : n.server.beginCommand c .listPeers =
            (n.server, [.reply (.peerList (n.server.directory.peers (some own)))]) := by
          simp only [Server.beginCommand, phase]
        have hreply := ServerMessage.valid_peerList (valid_peers h.peers (some own))
        rw [read_command hc hopen hidle hv hup, hbegin]
        refine h.readTo_former hc hidle (.stay hc fun job hj => ?_) hf ?_
        · rw [List.mem_singleton.mp hj]
          exact hreply
        · refine .leaving (by rw [channel_readTo]; exact ended) hc phase valid
            (by rw [channel_readTo]) hlater fun job hj => ?_
          rw [channel_readTo] at hj
          rw [List.mem_singleton.mp hj]
          exact ⟨rfl, hreply⟩
      | reportGone gone =>
        have hv : (Command.reportGone gone).Valid := sent _ (List.mem_cons_self ..)
        have hbegin : n.server.beginCommand c (.reportGone gone) =
            ({ n.server with directory := n.server.directory.erase gone }, []) := by
          simp only [Server.beginCommand, phase]
        rw [read_command hc hopen hidle hv hup, hbegin]
        refine h.readTo_former hc hidle (.erase hc gone (by simp)) hf ?_
        refine .leaving (by rw [channel_readTo]; exact ended) hc phase valid
          (by rw [channel_readTo]) hlater fun job hj => ?_
        rw [channel_readTo] at hj
        exact absurd hj List.not_mem_nil

end

theorem Sound.read (h : n.Sound) (id : ConnectionId) : (n.read id).Sound := by
  by_cases hidle : (n.channel id).jobs = []
  · cases hc : n.server.connection? id with
    | none =>
      have hnone : n.read id = n := by
        unfold Network.read
        rw [hc]
      rw [hnone]
      exact h
    | some c =>
      by_cases hopen : c.phase = .closed
      · rw [read_of_closed hc hopen]
        exact h
      · rcases h.held_or_former hc with ⟨i, hp, -, held⟩ | hf
        · cases hphase : c.phase with
          | registering => exact h.read_registering hc hidle hp hphase held
          | registered own => exact h.read_registered hc hidle hp hphase held
          | closed => exact absurd hphase hopen
        · exact h.read_former hc hidle hopen hf
  · rw [read_of_busy hidle]
    exact h

end Network

end PeerChat
