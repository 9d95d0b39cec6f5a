import PeerChat.Crowd
import PeerChat.Proofs.Network.Stage

/-!
# What is left of a connection that fails

Of what the server has sent, a client still reads the lines that have come whole, whichever way its
connection ends: an inbox comes to the first announcements of those that were on the way
(`Inbox.Sees.fail`), and a link goes on to tell of lists and newcomers only (`Link.Hears`).
-/

namespace PeerChat

/-! ## Inboxes -/

namespace Inbox.Sees

variable {i : Inbox} {as : List Announcement} {coming coming' : Bytes}

/-- Nothing comes any more for an inbox whose stream has ended. -/
theorem of_ended (h : i.Sees as coming) (he : i.ended = true) : i.Sees as coming' := by
  refine ⟨h.1, ?_⟩
  have hu := h.2
  rw [Awaits, due_of_ended he] at hu
  rw [Awaits, due_of_ended he]
  exact hu

theorem serverEnded (h : i.Sees as []) : i.serverEnded.Sees as coming := by
  have hdue : i.due [] = [] := by
    rw [due]
    split <;> rfl
  have hu := h.2
  rw [Awaits, hdue] at hu
  refine ⟨h.1, ?_⟩
  rw [Awaits, due_of_ended (i := i.serverEnded) rfl]
  exact hu

/-- The announcements that have arrived are still there. -/
theorem fail (h : i.Sees as coming) : ∃ done, done <+: as ∧ i.fail.Sees done coming' := by
  obtain ⟨lines, left, hlines, -, hleft, -⟩ := Line.items_of_beginning h.fits h.2
  obtain ⟨done, later, rfl, rfl, rfl⟩ := List.map_eq_append_iff.mp hlines
  refine ⟨done, List.prefix_append done later, fun a ha => h.1 a (List.mem_append_left later ha), ?_⟩
  have hdata := h.2
  rw [Awaits, List.map_append, Line.writeAll_append, ← hleft, ← List.append_assoc] at hdata
  have hwhole := List.append_cancel_right hdata
  have hsize : i.size - (Line.items Line.maxSize false (i.buffer ++ i.arrived)).2.length =
      (Line.writeAll (done.map Announcement.line)).length := by
    have hlength := congrArg List.length hwhole
    rw [List.length_append, List.length_append] at hlength
    rw [size, hlength, Nat.add_sub_cancel]
  rw [Awaits, due_of_ended (i := i.fail) rfl, List.append_nil]
  show i.buffer.take _ ++ i.arrived.take _ = _
  rw [hsize, ← List.take_append, hwhole, List.take_left]

end Inbox.Sees

/-! ## Links -/

/-- What a link is there to tell. -/
def Update.Ordinary : Update → Prop
  | .peerList _ | .newcomer _ => True
  | _ => False

/-- A list or a notice is nothing else to any listener. -/
theorem Listing.ordinary_announcements (l : Listing) {m : ServerMessage}
    (hm : m.isList = true ∨ ∃ name, m = .newcomer name) :
    ∀ u ∈ (l.pushAll m.announcements).2, u.Ordinary := by
  have hpeers : ∀ peers known : List Peer,
      ∀ u ∈ (Listing.pushAll ⟨some known⟩ (peers.map .peer)).2, u.Ordinary := by
    intro peers
    induction peers with
    | nil => exact fun known u hu => absurd hu List.not_mem_nil
    | cons p peers ih =>
      intro known u hu
      rcases List.mem_cons.mp hu with rfl | hu
      · trivial
      · exact ih (known ++ [p]) u hu
  rcases hm with hm | ⟨name, rfl⟩
  · obtain ⟨peers, rfl⟩ := ServerMessage.exists_of_isList hm
    intro u hu
    rcases List.mem_cons.mp hu with rfl | hu
    · trivial
    · exact hpeers peers [] u hu
  · intro u hu
    rw [List.mem_singleton.mp hu]
    trivial

namespace Link

/-- The end of the stream, behind whole lines. -/
theorem serverEnded_eq {l : Link}
    (h : l.listener.finished = true ∨ l.listener.pending = none ∧ l.listener.unread = []) :
    l.serverEnded = { l with listener := { l.listener with finished := true } } := by
  obtain ⟨name, ⟨unread, listing, pending, finished⟩, updates⟩ := l
  cases finished with
  | true => rw [serverEnded, Listener.read, if_pos rfl, hear, List.append_nil]
  | false =>
    obtain ⟨rfl, rfl⟩ := h.resolve_left (by simp)
    have hnone : ∀ s ∈ ([] : List String), Line.Fits Line.maxSize s := by simp
    have hitems : Line.items Line.maxSize true [] = ([.ended], []) := Line.items_writeAll hnone
    rw [serverEnded, Listener.read, if_neg (by simp)]
    simp only [List.append_nil, hitems]
    simp [hear, Listener.takeItems, Listener.takeItem, Listener.flush]

/-- The link has told of lists and newcomers only, and will not tell of anything else. -/
inductive Hears (l : Link) (coming : Bytes) : Prop
  | ended (finished : l.listener.finished = true) (ordinary : ∀ u ∈ l.updates, u.Ordinary)
  | goesOn {as : List Announcement} (valid : ValidAll as) (awaits : l.listener.Awaits as coming)
      (ordinary : ∀ u ∈ l.ahead as, u.Ordinary)

namespace Hears

variable {l : Link} {coming coming' : Bytes}

theorem updates (h : l.Hears coming) : ∀ u ∈ l.updates, u.Ordinary := by
  cases h with
  | ended finished ordinary => exact ordinary
  | goesOn valid awaits ordinary => exact fun u hu => ordinary u (List.mem_append_left _ hu)

theorem receive {bytes rest : Bytes} (h : l.Hears (bytes ++ rest))
    (hf : l.listener.finished = false) : (l.receive bytes).Hears rest := by
  cases h with
  | ended finished ordinary => exact absurd (hf.symm.trans finished) (by simp)
  | goesOn valid awaits ordinary =>
    obtain ⟨left, hleft, hlast, hfold⟩ := receive_spec valid awaits
    exact .goesOn (fun a ha => valid a (hleft.subset ha)) hlast
      fun u hu => ordinary u (hfold.subset hu)

/-- A list or a notice is queued. -/
theorem extend (h : l.Hears coming) {m : ServerMessage} (hv : m.Valid)
    (hm : m.isList = true ∨ ∃ name, m = .newcomer name) :
    l.Hears (coming ++ Utf8.encode m.text) := by
  cases h with
  | ended finished ordinary => exact .ended finished ordinary
  | @goesOn as valid awaits ordinary =>
    refine .goesOn (valid.append hv) (awaits.extend hv) ?_
    rw [ahead, Listener.ahead, Listing.pushAll_append]
    intro u hu
    rw [← List.append_assoc, ← List.append_assoc, List.append_assoc l.updates] at hu
    rcases List.mem_append.mp hu with hu | hu
    · exact ordinary u hu
    · exact Listing.ordinary_announcements _ hm u hu

/-- The next update is attended to. -/
theorem attend (h : l.Hears coming) {update : Update} {updates : List Update}
    (hu : l.updates = update :: updates) : Hears { l with updates } coming := by
  have hsubset : updates ⊆ l.updates := by
    rw [hu]
    exact List.subset_cons_self _ _
  cases h with
  | ended finished ordinary => exact .ended finished fun u hm => ordinary u (hsubset hm)
  | goesOn valid awaits ordinary =>
    refine .goesOn valid awaits fun u hm => ?_
    rcases List.mem_append.mp hm with hm | hm
    · exact ordinary u (List.mem_append_left _ (hsubset hm))
    · exact ordinary u (List.mem_append_right _ hm)

/-- The link has come to its end, for one reason or the other. -/
theorem fail (h : l.Hears coming) : l.fail.Hears coming' := by
  have hheld : l.listener.finished = true ∨ l.listener.pending = none := by
    cases h with
    | ended finished ordinary => exact .inl finished
    | goesOn valid awaits ordinary => exact .inr awaits.pending
  have hfail : l.fail = { l with listener := { l.listener with unread := [], finished := true } } :=
    serverEnded_eq (hheld.imp_right fun hp => ⟨hp, rfl⟩)
  rw [hfail]
  exact .ended rfl h.updates

/-- Where all has arrived, the end of the stream cuts nothing off. -/
theorem serverEnded (h : l.Hears []) : l.serverEnded.Hears coming := by
  have hheld : l.listener.finished = true ∨ l.listener.pending = none ∧ l.listener.unread = [] := by
    cases h with
    | ended finished ordinary => exact .inl finished
    | goesOn valid awaits ordinary =>
      obtain rfl := awaits.eq_nil valid
      exact .inr ⟨awaits.pending, (List.append_eq_nil_iff.mp awaits.unread).1⟩
  rw [serverEnded_eq hheld]
  exact .ended rfl h.updates

/-- A link that begins with what an inbox has left. -/
theorem ofInbox (name : String) {i : Inbox} {as : List Announcement} (h : i.Sees as coming)
    (ho : ∀ u ∈ (Listing.opened.pushAll as).2, u.Ordinary) : (ofInbox name i).Hears coming := by
  have hopen : ∀ {i : Inbox} {coming : Bytes}, i.ended = false → i.Sees as coming →
      (Link.ofInbox name i).Hears coming := by
    intro i coming he h
    have hu := h.2
    rw [Inbox.Awaits, Inbox.due_of_open he] at hu
    obtain ⟨left, hleft, hlast, hfold⟩ := ofInbox_spec name he h.1 hu
    refine .goesOn (fun a ha => h.1 a (hleft.subset ha)) hlast fun u hm => ?_
    rcases List.mem_cons.mp (hfold.subset hm) with rfl | hm
    · trivial
    · exact ho u hm
  rcases Bool.eq_false_or_eq_true i.ended with he | he
  · have hlink : Link.ofInbox name i = (Link.ofInbox name { i with ended := false }).serverEnded := by
      unfold Link.ofInbox
      simp only [he]
      rfl
    have hsees : Inbox.Sees { i with ended := false } as [] := by
      refine ⟨h.1, ?_⟩
      have hu := h.2
      rw [Inbox.Awaits, Inbox.due_of_ended he] at hu
      rw [Inbox.Awaits, Inbox.due_of_open (i := { i with ended := false }) rfl]
      exact hu
    rw [hlink]
    exact (hopen rfl hsees).serverEnded
  · exact hopen he h

end Hears

end Link

/-! ## Clients -/

/-- Whether a client has come to the end of what it can read, where it stands. -/
def Stand.hasEnd : Stand → Bool
  | .choosing inbox => inbox.ended
  | .signing _ inbox => inbox.ended
  | .linked link => link.listener.finished
  | _ => false

theorem Client.hasEnd_stand {c : Client} (h : c.hasEnd = false) : c.stand.hasEnd = false := by
  obtain ⟨hinbox, hlink⟩ := Bool.or_eq_false_iff.mp h
  have hat : ∀ k : Inbox → Stand, (∀ i, (k i).hasEnd = i.ended) →
      (c.inbox.elim .apart k).hasEnd = false := by
    intro k hk
    cases hi : c.inbox with
    | none => rfl
    | some i =>
      rw [hi] at hinbox
      exact (hk i).trans hinbox
  unfold Client.stand
  split
  · rfl
  · rfl
  · exact hat _ fun i => rfl
  · exact hat _ fun i => rfl
  · exact hat _ fun i => rfl
  · cases hl : c.link with
    | none => rfl
    | some l =>
      rw [hl] at hlink
      exact hlink

end PeerChat
