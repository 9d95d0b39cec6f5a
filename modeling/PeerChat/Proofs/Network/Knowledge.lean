import PeerChat.Directory
import PeerChat.Proofs.Client.Listener

/-!
# What a registered client has been told

A connection's history is all that was ever queued for it, with the replies that its handler is about
to queue.  A client is `Alerted` while a newcomer's notice or its own question is on the way, and
`Settled` when it will come to the last list of the history and that list has everybody who is not
about to be announced to it.  The only ones who can be missing are those that `Overtaken` tells of:
the notice was queued before the one list that the client was ever sent, and the list lacks them.
-/

namespace PeerChat

namespace ServerMessage

/-- What a message comes to for a client that reads all of it. -/
def update : ServerMessage → Update
  | peerList peers => .peerList peers
  | nameTaken => .nameTaken
  | invalidCommand => .invalidCommand
  | serverFull => .serverFull
  | newcomer name => .newcomer name
  | remark text => .remark text

def isList : ServerMessage → Bool
  | peerList _ => true
  | _ => false

theorem exists_of_isList {m : ServerMessage} (h : m.isList = true) : ∃ peers, m = .peerList peers := by
  cases m with
  | peerList peers => exact ⟨peers, rfl⟩
  | nameTaken => exact absurd h (by simp [isList])
  | invalidCommand => exact absurd h (by simp [isList])
  | serverFull => exact absurd h (by simp [isList])
  | newcomer name => exact absurd h (by simp [isList])
  | remark text => exact absurd h (by simp [isList])

end ServerMessage

/-! ## Messages as they are read -/

theorem Listing.pushAll_peers (peers more : List Peer) :
    Alike (.peerList peers :: (Listing.pushAll ⟨some peers⟩ (more.map .peer)).2)
      [.peerList (peers ++ more)] := by
  induction more generalizing peers with
  | nil =>
    rw [List.append_nil]
    exact .refl _
  | cons p more ih =>
    have hrest := ih (peers ++ [p])
    rw [List.append_assoc] at hrest
    exact (Folded.peerList peers (peers ++ [p]) _).toAlike.trans hrest

/-- Whatever list is open, a list is read as a list, and a notice as a notice. -/
theorem Listing.pushAll_announcements (l : Listing) {m : ServerMessage}
    (h : m.isList = true ∨ ∃ name, m = .newcomer name) :
    Alike (l.pushAll m.announcements).2 [m.update] := by
  rcases h with h | ⟨name, rfl⟩
  · obtain ⟨peers, rfl⟩ := ServerMessage.exists_of_isList h
    exact Listing.pushAll_peers [] peers
  · exact .refl _

theorem Link.ahead_append (l : Link) (as : List Announcement) {m : ServerMessage}
    (h : m.isList = true ∨ ∃ name, m = .newcomer name) :
    Alike (l.ahead as ++ [m.update]) (l.ahead (as ++ m.announcements)) := by
  have hpush := Listing.pushAll_announcements (l.listener.listing.pushAll as).1 h
  have hahead : l.ahead (as ++ m.announcements) =
      l.ahead as ++ ((l.listener.listing.pushAll as).1.pushAll m.announcements).2 := by
    rw [Link.ahead, Link.ahead, Listener.ahead, Listener.ahead, Listing.pushAll_append]
    simp only [List.append_assoc]
  rw [hahead]
  exact hpush.symm.append_left _

/-! ## Knowing of a peer -/

/-- The last list of a history has the peer. -/
def Listed (history : List ServerMessage) (p : Peer) : Prop :=
  p ∈ latest [] (history.map ServerMessage.update)

/-- The peer was announced before the only list was queued, and is not on that list. -/
def Overtaken (history : List ServerMessage) (p : Peer) : Prop :=
  ∃ before others after, history = before ++ .peerList others :: after ∧
    .newcomer p.name ∈ before ∧ p ∉ others ∧ ∀ m ∈ before ++ after, m.isList = false

theorem latest_of_noList {ms : List ServerMessage} (h : ∀ m ∈ ms, m.isList = false)
    (peers : List Peer) : latest peers (ms.map ServerMessage.update) = peers := by
  induction ms with
  | nil => rfl
  | cons m ms ih =>
    have hrest := ih fun n hn => h n (List.mem_cons_of_mem m hn)
    have hm := h m (List.mem_cons_self ..)
    cases m with
    | peerList list => exact absurd hm (by simp [ServerMessage.isList])
    | nameTaken => exact hrest
    | invalidCommand => exact hrest
    | serverFull => exact hrest
    | newcomer name => exact hrest
    | remark text => exact hrest

/-- Who was overtaken is not listed. -/
theorem Overtaken.not_listed {history : List ServerMessage} {p : Peer} (h : Overtaken history p) :
    ¬ Listed history p := by
  obtain ⟨before, others, after, rfl, -, hp, hnone⟩ := h
  have hafter := latest_of_noList (fun m hm => hnone m (List.mem_append_right _ hm)) others
  rw [Listed, List.map_append, latest_append, List.map_cons]
  show p ∉ latest others (after.map ServerMessage.update)
  rw [hafter]
  exact hp

/-- A client that is to ask for the list, or has asked. -/
def Alerted (ahead : List Update) (commands : List Command) : Prop :=
  alerts ahead ≠ [] ∨ Command.listPeers ∈ commands

/-- Nothing that the client, who goes by `own`, should ask about is on the way. -/
structure Settled (entries : List Entry) (awaited : String → Prop) (own : String)
    (told replies : List ServerMessage) (peers : List Peer) (ahead : List Update) : Prop where
  same : latest peers (ahead ++ replies.map ServerMessage.update) =
    latest [] ((told ++ replies).map ServerMessage.update)
  known : ∀ e ∈ entries, e.peer.name ≠ own →
    awaited e.peer.name ∨ Listed (told ++ replies) e.peer ∨ Overtaken (told ++ replies) e.peer

def Knows (entries : List Entry) (awaited : String → Prop) (own : String)
    (told replies : List ServerMessage) (peers : List Peer) (ahead : List Update)
    (commands : List Command) : Prop :=
  Alerted ahead commands ∨ Settled entries awaited own told replies peers ahead

namespace Knows

variable {entries entries' : List Entry} {awaited awaited' : String → Prop} {own : String}
  {told replies : List ServerMessage} {peers peers' : List Peer} {ahead ahead' : List Update}
  {commands commands' : List Command}

/-- Entries go, and those that come are about to be announced. -/
theorem mono (h : Knows entries awaited own told replies peers ahead commands)
    (he : ∀ e ∈ entries', e ∈ entries ∨ e.peer.name = own ∨ awaited' e.peer.name)
    (ha : ∀ name, awaited name → awaited' name) :
    Knows entries' awaited' own told replies peers ahead commands := by
  rcases h with h | h
  · exact .inl h
  · refine .inr ⟨h.same, fun e hm hne => ?_⟩
    rcases he e hm with hold | hown | hnew
    · rcases h.known e hold hne with hw | hrest
      · exact .inl (ha _ hw)
      · exact .inr hrest
    · exact absurd hown hne
    · exact .inl hnew

theorem alike (h : Knows entries awaited own told replies peers ahead commands)
    (hl : Alike ahead ahead') : Knows entries awaited own told replies peers ahead' commands := by
  rcases h with (h | h) | h
  · exact .inl (.inl (hl.alerts_eq ▸ h))
  · exact .inl (.inr h)
  · refine .inr ⟨?_, h.known⟩
    rw [← (hl.append_right _).latest_eq]
    exact h.same

/-- A reply is queued that was to be queued. -/
theorem answer {m : ServerMessage} (hm : m.isList = true)
    (h : Knows entries awaited own told (m :: replies) peers ahead commands)
    (hl : Alike (ahead ++ [m.update]) ahead') :
    Knows entries awaited own (told ++ [m]) replies peers ahead' commands := by
  obtain ⟨list, rfl⟩ := ServerMessage.exists_of_isList hm
  have hhistory : told ++ [.peerList list] ++ replies = told ++ .peerList list :: replies :=
    List.append_assoc ..
  have hsame : Knows entries awaited own (told ++ [.peerList list]) replies peers
      (ahead ++ [.peerList list]) commands := by
    rcases h with (h | h) | h
    · refine .inl (.inl ?_)
      rw [alerts_append]
      exact fun hn => h (List.append_eq_nil_iff.mp hn).1
    · exact .inl (.inr h)
    · refine .inr ⟨?_, ?_⟩
      · rw [hhistory, List.append_assoc]
        exact h.same
      · rw [hhistory]
        exact h.known
  exact hsame.alike hl

/-- A notice that comes behind the first list alerts the client. -/
theorem notice {name : String} (hl : Alike (ahead ++ [.newcomer name]) ahead') :
    Knows entries awaited own told replies peers ahead' commands := by
  refine .inl (.inl ?_)
  rw [← hl.alerts_eq, alerts_append]
  exact fun hn => absurd (List.append_eq_nil_iff.mp hn).2 (by simp [alerts])

/-- A notice that comes before the first list is lost on the client. -/
theorem notice_early {name : String} {others : List Peer} (hnone : ∀ m ∈ told, m.isList = false)
    (h : Knows entries awaited own told [.peerList others] peers [] [])
    (ha : ∀ other, awaited other → other = name ∨ awaited' other) :
    Knows entries awaited' own (told ++ [.newcomer name]) [.peerList others] peers [] [] := by
  have hlatest : ∀ ms : List ServerMessage,
      latest [] ((ms ++ [ServerMessage.peerList others]).map ServerMessage.update) = others := by
    intro ms
    rw [List.map_append, latest_append]
    rfl
  have hnone' : ∀ m ∈ told ++ [.newcomer name], m.isList = false := by
    intro m hm
    rcases List.mem_append.mp hm with hm | hm
    · exact hnone m hm
    · rw [List.mem_singleton.mp hm]
      rfl
  rcases h with (h | h) | h
  · exact absurd rfl h
  · exact absurd h List.not_mem_nil
  · refine .inr ⟨(hlatest _).symm, fun e hm hne => ?_⟩
    rw [Listed, hlatest]
    have hmissed : ServerMessage.newcomer e.peer.name ∈ told ++ [.newcomer name] → e.peer ∉ others →
        Overtaken (told ++ [ServerMessage.newcomer name] ++ [.peerList others]) e.peer :=
      fun hnotice hnot => ⟨_, others, [], rfl, hnotice, hnot, by rwa [List.append_nil]⟩
    rcases h.known e hm hne with hw | hlisted | hover
    · rcases ha _ hw with heq | hw'
      · by_cases hin : e.peer ∈ others
        · exact .inr (.inl hin)
        · exact .inr (.inr (hmissed (by rw [heq]; simp) hin))
      · exact .inl hw'
    · rw [Listed, hlatest] at hlisted
      exact .inr (.inl hlisted)
    · obtain ⟨before, list, after, heq, hnotice, hnot, hno⟩ := hover
      have hafter : after = [] ∧ before = told ∧ list = others := by
        rcases List.eq_nil_or_concat after with rfl | ⟨init, last, rfl⟩
        · obtain ⟨hb, hl⟩ := List.append_inj' heq rfl
          exact ⟨rfl, hb.symm, (ServerMessage.peerList.inj (List.singleton_inj.mp hl)).symm⟩
        · rw [List.concat_eq_append, ← List.cons_append, ← List.append_assoc] at heq
          obtain ⟨hb, hl⟩ := List.append_inj' heq rfl
          have hlast := hno last (by simp)
          rw [← List.singleton_inj.mp hl] at hlast
          exact absurd hlast (by simp [ServerMessage.isList])
      obtain ⟨-, rfl, rfl⟩ := hafter
      exact .inr (.inr (hmissed (List.mem_append_left _ hnotice) hnot))

/-- A list that has everybody settles everything. -/
theorem snapshot {list : List Peer} (ahead : List Update) (commands : List Command)
    (he : ∀ e ∈ entries, e.peer.name ≠ own → e.peer ∈ list) :
    Knows entries awaited own told [ServerMessage.peerList list] peers ahead
      commands := by
  have hlatest : ∀ (peers : List Peer) (us : List Update),
      latest peers (us ++ [.peerList list]) = list := by
    intro peers us
    rw [latest_append]
    rfl
  refine .inr ⟨?_, fun e hm hne => .inr (.inl ?_)⟩
  · rw [List.map_append]
    exact (hlatest _ _).trans (hlatest _ _).symm
  · rw [Listed, List.map_append]
    exact (hlatest _ _).symm ▸ he e hm hne

/-- The next update is attended to. -/
theorem attend {update : Update} {updates : List Update}
    (h : Knows entries awaited own told replies peers (update :: updates) commands) :
    Knows entries awaited own told replies (latest peers [update]) updates
      (commands ++ (alerts [update]).map fun _ => .listPeers) := by
  have halerts : alerts (update :: updates) = alerts [update] ++ alerts updates :=
    alerts_append [update] updates
  rcases h with (h | h) | h
  · rw [halerts] at h
    by_cases hu : alerts [update] = []
    · rw [hu] at h
      exact .inl (.inl h)
    · refine .inl (.inr (List.mem_append_right _ ?_))
      obtain ⟨name, hname⟩ := List.exists_mem_of_ne_nil _ hu
      exact List.mem_map.mpr ⟨name, hname, rfl⟩
  · exact .inl (.inr (List.mem_append_left _ h))
  · refine .inr ⟨?_, h.known⟩
    have hsame := h.same
    rw [List.cons_append, ← List.singleton_append, latest_append] at hsame
    exact hsame

/-- A client that asks is alerted. -/
theorem ask (h : Command.listPeers ∈ commands) :
    Knows entries awaited own told replies peers ahead commands := .inl (.inr h)

end Knows

end PeerChat
