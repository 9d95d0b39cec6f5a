import Mathlib.Data.List.Infix
import PeerChat.Proofs.Client.Listener

/-!
# Transcripts of the server

What the server has sent on a connection, one message behind the other, says no more and no less than
these messages (`transcript_read_back`).  Its lines are read one by one, each as the announcement that
it was written for; put together again they are the messages, so that two transcripts differ where
their messages do.  Every list is told as it grows, and at last as it was sent.
-/

namespace PeerChat.ServerMessage

/-- The bytes of messages, one behind the other. -/
def transcript (messages : List ServerMessage) : Bytes :=
  messages.flatMap fun m => Utf8.encode m.text

/-- What a listing tells of a message, line by line. -/
def updates : ServerMessage → List Update
  | peerList peers => peers.inits.map .peerList
  | nameTaken => [.nameTaken]
  | invalidCommand => [.invalidCommand]
  | serverFull => [.serverFull]
  | newcomer name => [.newcomer name]
  | remark text => [.remark text]

/-- The messages of which announcements are the lines.  Peers at the front belong to a list whose
header has come before. -/
def gather : List Announcement → List Peer × List ServerMessage
  | [] => ([], [])
  | .peer p :: later => (p :: (gather later).1, (gather later).2)
  | .listHeader :: later => ([], .peerList (gather later).1 :: (gather later).2)
  | .nameTaken :: later => ([], .nameTaken :: (gather later).2)
  | .invalidCommand :: later => ([], .invalidCommand :: (gather later).2)
  | .serverFull :: later => ([], .serverFull :: (gather later).2)
  | .newcomer name :: later => ([], .newcomer name :: (gather later).2)
  | .other text :: later => ([], .remark text :: (gather later).2)

/-! ## Lines -/

theorem transcript_eq_writeAll {messages : List ServerMessage} (h : ∀ m ∈ messages, m.Valid) :
    transcript messages =
      Line.writeAll ((messages.flatMap announcements).map Announcement.line) := by
  induction messages with
  | nil => rfl
  | cons m messages ih =>
    have hlater := ih fun m' hm => h m' (List.mem_cons_of_mem m hm)
    rw [transcript] at hlater ⊢
    rw [List.flatMap_cons, List.flatMap_cons, List.map_append, Line.writeAll_append, ← hlater,
      encode_text (h m (List.mem_cons_self ..))]

theorem valid_of_mem {messages : List ServerMessage} (h : ∀ m ∈ messages, m.Valid)
    {a : Announcement} (ha : a ∈ messages.flatMap announcements) : a.Valid := by
  obtain ⟨m, hm, ham⟩ := List.mem_flatMap.mp ha
  exact h m hm a ham

/-! ## Messages -/

theorem gather_peers (peers : List Peer) (later : List Announcement) :
    gather (peers.map .peer ++ later) = (peers ++ (gather later).1, (gather later).2) := by
  induction peers with
  | nil => rfl
  | cons p peers ih => rw [List.map_cons, List.cons_append, gather, ih, List.cons_append]

/-- Where no peer is left over, no peer can be taken for one of the list before. -/
theorem gather_announcements (m : ServerMessage) {later : List Announcement}
    (h : (gather later).1 = []) :
    gather (m.announcements ++ later) = ([], m :: (gather later).2) := by
  cases m with
  | peerList peers =>
    rw [announcements, List.cons_append, gather, gather_peers, h, List.append_nil]
  | nameTaken => rfl
  | invalidCommand => rfl
  | serverFull => rfl
  | newcomer name => rfl
  | remark text => rfl

theorem gather_flatMap (messages : List ServerMessage) :
    gather (messages.flatMap announcements) = ([], messages) := by
  induction messages with
  | nil => rfl
  | cons m messages ih => rw [List.flatMap_cons, gather_announcements m (by rw [ih]), ih]

/-! ## Updates -/

/-- A list that is open is told again with each peer. -/
theorem pushAll_map_peer (peers more : List Peer) :
    .peerList peers :: (Listing.pushAll ⟨some peers⟩ (more.map .peer)).2 =
      more.inits.map fun front => .peerList (peers ++ front) := by
  induction more generalizing peers with
  | nil => simp [Listing.pushAll]
  | cons p more ih =>
    have hrest := ih (peers ++ [p])
    simp only [List.append_assoc, List.singleton_append] at hrest
    rw [List.inits_cons]
    simp only [List.map_cons, List.map_map, List.append_nil]
    exact congrArg (Update.peerList peers :: ·) hrest

theorem pushAll_announcements (l : Listing) {m : ServerMessage} (h : m.Valid) :
    (l.pushAll m.announcements).2 = m.updates := by
  cases m with
  | peerList peers => exact pushAll_map_peer [] peers
  | nameTaken => rfl
  | invalidCommand => rfl
  | serverFull => rfl
  | newcomer name => rfl
  | remark text => exact (h _ (List.mem_cons_self ..)).elim

theorem pushAll_flatMap (l : Listing) {messages : List ServerMessage}
    (h : ∀ m ∈ messages, m.Valid) :
    (l.pushAll (messages.flatMap announcements)).2 = messages.flatMap updates := by
  induction messages generalizing l with
  | nil => rfl
  | cons m messages ih =>
    rw [List.flatMap_cons, List.flatMap_cons, Listing.pushAll_append,
      pushAll_announcements l (h m (List.mem_cons_self ..)),
      ih _ fun m' hm => h m' (List.mem_cons_of_mem m hm)]

theorem getLast?_updates_peerList (peers : List Peer) :
    (peerList peers).updates.getLast? = some (.peerList peers) := by
  induction peers using List.reverseRecOn with
  | nil => rfl
  | append_singleton peers p ih => simp [updates, List.inits_append]

/-! ## Reading back -/

/-- Whatever names and addresses are in the messages, every line is read for what it is, and nothing
is left of the stream but its end. -/
theorem transcript_read_back {messages : List ServerMessage} (h : ∀ m ∈ messages, m.Valid) :
    ∃ lines : List String,
      Line.items Line.maxSize true (transcript messages) = (lines.map .text ++ [.ended], []) ∧
      lines.map Announcement.parse = messages.flatMap announcements ∧
      gather (lines.map Announcement.parse) = ([], messages) ∧
      (Listing.closed.pushAll (lines.map Announcement.parse)).2 = messages.flatMap updates ∧
      ∀ peers, (peerList peers).updates.getLast? = some (.peerList peers) := by
  have hparse : ((messages.flatMap announcements).map Announcement.line).map Announcement.parse =
      messages.flatMap announcements := by
    rw [List.map_map]
    exact (List.map_congr_left fun a ha => Announcement.parse_line (valid_of_mem h ha)).trans
      (List.map_id _)
  refine ⟨(messages.flatMap announcements).map Announcement.line, ?_, hparse, ?_, ?_,
    getLast?_updates_peerList⟩
  · rw [transcript_eq_writeAll h]
    refine Line.items_writeAll fun s hs => ?_
    obtain ⟨a, ha, rfl⟩ := List.mem_map.mp hs
    exact Announcement.fits_line (valid_of_mem h ha)
  · rw [hparse, gather_flatMap]
  · rw [hparse, pushAll_flatMap _ h]

/-- Peers and a newcomer that are called like words of the server's own. -/
def misleading : List ServerMessage :=
  [.peerList [⟨"PEER_LIST", .v6 #v[0, 0, 0, 0, 0, 0xffff, 0x7f00, 1], 6001⟩,
      ⟨"New", .v6 #v[0, 0, 1, 0, 0, 0, 0, 0], 65535⟩],
    .newcomer "SERVER_FULL", .nameTaken, .peerList [], .serverFull]

theorem valid_misleading : ∀ m ∈ misleading, m.Valid := by
  intro m hm
  simp only [misleading, List.mem_cons, List.not_mem_nil, or_false] at hm
  rcases hm with rfl | rfl | rfl | rfl | rfl
  · refine valid_peerList fun p hp => ?_
    simp only [List.mem_cons, List.not_mem_nil, or_false] at hp
    rcases hp with rfl | rfl
    · exact ⟨by decide, by decide⟩
    · exact ⟨by decide, by decide⟩
  · exact valid_newcomer (by decide)
  · exact fun a ha => List.mem_singleton.mp ha ▸ trivial
  · exact valid_peerList fun p hp => absurd hp List.not_mem_nil
  · exact fun a ha => List.mem_singleton.mp ha ▸ trivial

theorem transcript_read_back_misleading :
    (∀ m ∈ misleading, m.Valid) ∧ ∃ lines : List String,
      Line.items Line.maxSize true (transcript misleading) = (lines.map .text ++ [.ended], []) ∧
      lines.map Announcement.parse = misleading.flatMap announcements ∧
      gather (lines.map Announcement.parse) = ([], misleading) ∧
      (Listing.closed.pushAll (lines.map Announcement.parse)).2 = misleading.flatMap updates ∧
      ∀ peers, (peerList peers).updates.getLast? = some (.peerList peers) :=
  ⟨valid_misleading, transcript_read_back valid_misleading⟩

end PeerChat.ServerMessage
