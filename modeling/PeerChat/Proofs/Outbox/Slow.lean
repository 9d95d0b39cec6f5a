import PeerChat.Proofs.Outbox.Draining
import PeerChat.Proofs.Outbox.Notices
import PeerChat.Proofs.Outbox.Welcome

/-!
# A slow client harms only itself

What a client that does not read can do to others, and to itself (`Crowd.slow_harms_itself`).
-/

namespace PeerChat

namespace Network

variable {n n' : Network Empty} {id : ConnectionId} {m : ServerMessage} {later : List Job}

/-! ## Direct replies -/

/-- A direct reply is queued behind everything else. -/
structure Queued (n n' : Network Empty) (id : ConnectionId) (m : ServerMessage) (later : List Job) :
    Prop where
  outbox : ∀ c, n.server.connection? id = some c →
    n'.server.connection? id = some { c with outbox := c.outbox ++ [m] }
  told : (n'.channel id).told = (n.channel id).told ++ [m]
  jobs : (n'.channel id).jobs = later
  directory : n'.server.directory = n.server.directory

/-- The connection is closed: it owns no entry, and no notice will be meant for it. -/
structure Gone (n : Network Empty) (id : ConnectionId) : Prop where
  closed : ∃ c, n.server.connection? id = some c ∧ c.phase = .closed
  owns : ∀ e ∈ n.entries, e.owner ≠ some id
  audience : ∀ k, id ∉ n.server.audience k

/-- A direct reply is lost, and nothing else is; whatever happens then, the handler does no more than
close the connection, and it is gone when the handler has done all. -/
structure Lost (n n' : Network Empty) (id : ConnectionId) : Prop where
  server : n'.server = n.server
  told : (n'.channel id).told = (n.channel id).told
  ends : ∀ steps, (Crowd.run n' steps).Ending id ∧
    (((Crowd.run n' steps).channel id).jobs = [] → (Crowd.run n' steps).Gone id)

theorem Proper.gone (hp : n.Proper) {c : Connection} (hc : n.server.connection? id = some c)
    (hphase : c.phase = .closed) : n.Gone id :=
  ⟨⟨c, hc, hphase⟩, (hp.of_closed hc hphase).1, (hp.of_closed hc hphase).2⟩

theorem queued_of_hasRoom (hjobs : (n.channel id).jobs = .reply m :: later)
    (hr : n.server.hasRoom id = true) : Queued n (Crowd.step n (.work id)) id m later := by
  have hwork : Crowd.step n (.work id) = (n.setJobs id later).queue id m := by
    simp only [Crowd.step, Network.work, hjobs, hr, if_true]
  obtain ⟨-, hchannel, hconn, hentries⟩ := replies_spec hr m later
  rw [hwork]
  refine ⟨hconn, by rw [hchannel], by rw [hchannel], ?_⟩
  rw [server_queue, (Server.Frame.queue _ _ _).directory]
  rfl

/-- The handler gives up a reply. -/
theorem lost_of_closing (hp : n.Proper) (hn : n.Civil) (hjobs : (n.channel id).jobs = .reply m :: later)
    {f : Crowd.Step Empty} (intact : Bool) (hf : Crowd.step n f =
      ({ n with intact } : Network Empty).setJobs id (later ++ Server.closing)) :
    Lost n (Crowd.step n f) id := by
  obtain ⟨c, hc⟩ := hn.exists_of_busy hjobs
  have hending : (Crowd.step n f).Ending id := by
    rw [hf]
    refine ⟨c, hc, ?_⟩
    rw [jobs_setJobs, if_pos rfl]
    exact doomed_closing _ _
  have hp' := hp.evolves hn (evolves_step n f)
  have hn' := hn.step f
  refine ⟨by rw [hf]; rfl, by rw [hf, channel_setJobs], fun steps => ?_⟩
  have hend := hending.run hp' hn' steps
  refine ⟨hend, fun hj => ?_⟩
  obtain ⟨d, hd, hphase⟩ := hend.closed hj
  exact (hp'.run hn' steps).gone hd hphase

theorem lost_of_full (hp : n.Proper) (hn : n.Civil) (hjobs : (n.channel id).jobs = .reply m :: later)
    (hr : n.server.hasRoom id = false) : Lost n (Crowd.step n (.work id)) id := by
  refine lost_of_closing hp hn hjobs false ?_
  simp only [Crowd.step, Network.work, hjobs, hr]
  rfl

theorem lost_of_spurn (hp : n.Proper) (hn : n.Civil)
    (hjobs : (n.channel id).jobs = .reply m :: later) : Lost n (Crowd.step n (.spurn id)) id := by
  refine lost_of_closing hp hn hjobs n.intact ?_
  simp only [Crowd.step, Network.spurn, hjobs]

end Network

/-! ## All together -/

namespace Crowd

open Network

/-- **A slow client harms only itself.**  In whatever state the server has come to:

Whether slow clients have read or not makes no difference to what is seen of the server and of everybody
else, as long as they are given no direct reply, and to them none but that they miss notices.

When a registration is handled at once, everybody who has room in its outbox gets what is for it, and
who has none is left as it was.

A direct reply is queued behind all else if there is room for it; if there is none, or nobody will ever
write it, the connection is closed.

What is written is all that was queued, in order: the rest is in the outbox, and what is queued is never
taken back.  For a client that reads on, whoever else does, it comes to where all is written; and if its
connection is closed, that was the end of the stream.  The server does what it still has to do in a
limited number of steps. -/
theorem slow_harms_itself (capacity : Nat) (steps : List (Crowd.Step Empty)) :
    let n := Crowd.run (strangers capacity) steps
    (∀ (slow relief : List ConnectionId) (later : List (Crowd.Step Empty)),
      (∀ id ∈ relief, id ∈ slow) → n.Unanswered slow later →
        (Crowd.run n (relief.map .write ++ later)).veil slow = (Crowd.run n later).veil slow ∧
          ∀ id ∈ slow, ∃ few all, ((Crowd.run n later).channel id).told = (n.channel id).told ++ few ∧
            ((Crowd.run n (relief.map .write ++ later)).channel id).told = (n.channel id).told ++ all ∧
              Misses few all) ∧
    (∀ c name directory others targets, n.Registers c name directory others →
      targets.Perm (n.server.audience c.id) →
        n.Welcomed (Crowd.run n (registration c.id targets)) c name directory others) ∧
    (∀ id m later, (n.channel id).jobs = .reply m :: later →
      (n.server.hasRoom id = true → n.Queued (Crowd.step n (.work id)) id m later) ∧
        (n.server.hasRoom id = false → n.Lost (Crowd.step n (.work id)) id) ∧
          n.Lost (Crowd.step n (.spurn id)) id) ∧
    (∀ id, n.Told id ∧
      (∀ later, (n.channel id).told <+: ((Crowd.run n later).channel id).told ∧
        (n.channel id).down <+: ((Crowd.run n later).channel id).down) ∧
      (∃ later : List (Crowd.Step Empty), (∀ f ∈ later, f.Attends id) ∧ (Crowd.run n later).Rests id) ∧
      (n.Rests id → (n.channel id).down = ServerMessage.transcript (n.channel id).told ∧
        ∀ c, n.server.connection? id = some c → c.phase = .closed → ∀ later,
          ((Crowd.run n later).channel id).told = (n.channel id).told ∧
            ((Crowd.run n later).channel id).down = (n.channel id).down)) ∧
    ∀ later, Toils n later → later.length ≤ n.toil := by
  intro n
  have hn : n.Civil := civil_strangers capacity steps
  have hp : n.Proper := (Proper.strangers capacity).run (civil_start ..) steps
  have htold : ∀ id, n.Told id := fun id =>
    Told.run (n := strangers capacity) rfl (civil_start ..) steps
  refine ⟨fun slow relief later hslow hq => hn.relieved hslow hq,
    fun c name directory others targets h hperm => welcomed_registration h hp hperm,
    fun id m later hjobs => ⟨queued_of_hasRoom hjobs, lost_of_full hp hn hjobs,
      lost_of_spurn hp hn hjobs⟩,
    fun id => ⟨htold id, fun later => grows_run hn later id,
      exists_rests hp hn id, fun hrests => ⟨hrests.down hn (htold id), fun c hc hphase later => ?_⟩⟩,
    fun later h => length_le_toil hp hn h⟩
  exact (Spent.of_rests hrests hn hc hphase).run hp hn later

/-- Alice has registered, and then said what is not understood until her outbox was full, and once more;
Bob is about to register. -/
def besetting : List (Crowd.Step Empty) :=
  [.enter (.v4 127 0 0 1), .enter (.v4 127 0 0 2),
    .say 1 (Utf8.encode "REGISTER alice 6001\n" ++ (List.replicate 64 [88, 10]).flatten),
    .say 2 (Utf8.encode "REGISTER bob 6002\n"), .read 1, .work 1, .work 1, .deliver 1 2, .work 1] ++
  (List.replicate 63 [.read 1, .work 1]).flatten ++ [.read 1]

/-- Bob's connection then. -/
def bob : Connection := ⟨2, .v4 127 0 0 2, .registering, [], [.newcomer "alice"], true⟩

def entryOfAlice : Entry := ⟨⟨"alice", .v4 127 0 0 1, 6001⟩, some 1⟩

def entryOfBob : Entry := ⟨⟨"bob", .v4 127 0 0 2, 6002⟩, some 2⟩

/-- Bob registers whether Alice reads or not; that she does not is the end of her own connection. -/
theorem slow_harms_itself_besetting :
    let n := Crowd.run (strangers 3) besetting
    n.server.hasRoom 1 = false ∧
      (Crowd.run n ([1].map .write ++ registration 2 [1])).veil [1] =
        (Crowd.run n (registration 2 [1])).veil [1] ∧
      n.Welcomed (Crowd.run n (registration 2 [1])) bob "bob" ⟨3, [entryOfAlice, entryOfBob]⟩
        [entryOfAlice.peer] ∧
      n.Lost (Crowd.step n (.work 1)) 1 := by
  have hfull : (Crowd.run (strangers 3) besetting).server.hasRoom 1 = false := by decide +kernel
  have hjobs : ((Crowd.run (strangers 3) besetting).channel 1).jobs = [.reply .invalidCommand] := by
    decide +kernel
  have hothers : [1].Perm ((Crowd.run (strangers 3) besetting).server.audience 2) := by decide +kernel
  have hregisters : (Crowd.run (strangers 3) besetting).Registers bob "bob"
      ⟨3, [entryOfAlice, entryOfBob]⟩ [entryOfAlice.peer] := by
    refine ⟨?_, rfl, ?_, "REGISTER bob 6002", [], 6002, ?_, ?_, ?_, ?_⟩
    all_goals decide +kernel
  obtain ⟨hveil, hwelcome, hreply, -⟩ := slow_harms_itself 3 besetting
  generalize Crowd.run (strangers 3) besetting = n at *
  have hquiet : n.Unanswered [1] (registration 2 [1]) := by simp [Unanswered, Quiet, registration]
  exact ⟨hfull, (hveil [1] [1] (registration 2 [1]) (by simp) hquiet).1,
    hwelcome bob "bob" ⟨3, [entryOfAlice, entryOfBob]⟩ [entryOfAlice.peer] [1] hregisters hothers,
    (hreply 1 .invalidCommand [] hjobs).2.1 hfull⟩

end Crowd

end PeerChat
