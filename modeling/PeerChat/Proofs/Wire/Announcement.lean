import PeerChat.Proofs.Wire.Peer
import PeerChat.Wire.Announcement

/-!
# Announcements are understood

A server message is a row of announcements (`ServerMessage.encode_text`), and each of them is read
from its line as it was meant (`Announcement.parse_line`).
-/

namespace PeerChat

namespace Announcement

/-- The line that an announcement is read from. -/
def line : Announcement → String
  | listHeader => ServerMessage.listHeader
  | peer p => p.line
  | nameTaken => "USERNAME_TAKEN"
  | invalidCommand => "INVALID_COMMAND"
  | serverFull => "SERVER_FULL"
  | newcomer name => ServerMessage.newcomerStart ++ name
  | other text => text

/-- Its line can be read back. -/
def Valid : Announcement → Prop
  | listHeader | nameTaken | invalidCommand | serverFull => True
  | peer p => p.Valid
  | newcomer name => isName name = true
  | other _ => False

/-- A line with a blank in it is none of the fixed words. -/
theorem parse_of_blank {line : String} (ht : Text.trimLineEnd line = line) (hb : ' ' ∈ line.toList) :
    parse line =
      match Text.after? ServerMessage.newcomerStart line with
      | some name => .newcomer (Text.trim name)
      | none =>
        match Peer.parse line with
        | .ok p => .peer p
        | .error _ => .other line := by
  unfold parse
  rw [ht]
  split
  · exact absurd hb (by decide)
  · exact absurd hb (by decide)
  · exact absurd hb (by decide)
  · exact absurd hb (by decide)
  · rfl

theorem trimLineEnd_append {start word : String} (h : Text.IsWord word) :
    Text.trimLineEnd (start ++ word) = start ++ word := by
  refine Text.trimLineEnd_eq_self fun c hc => ?_
  rw [String.toList_append, List.getLast?_append_of_ne_nil _ h.toList_ne_nil] at hc
  exact Text.isLineEnd_eq_false (h.2 c (List.mem_of_getLast? hc))

theorem parse_newcomer {name : String} (h : isName name = true) :
    parse (line (.newcomer name)) = .newcomer name := by
  have hblank : ' ' ∈ (ServerMessage.newcomerStart ++ name).toList := by
    rw [String.toList_append]
    exact List.mem_append_left _ (by decide)
  rw [line, parse_of_blank (trimLineEnd_append (isWord_of_isName h)) hblank, Text.after?_append]
  simp only [Text.trim_word (isWord_of_isName h)]

/-- A peer called `New` is none that is announced: what follows is an address. -/
theorem after?_line {p : Peer} (h : p.Valid) :
    Text.after? ServerMessage.newcomerStart p.line = none := by
  cases hr : Text.after? ServerMessage.newcomerStart p.line with
  | none => rfl
  | some rest =>
    exfalso
    have hwords := Peer.words_line h
    have hstart : ServerMessage.newcomerStart ++ rest =
        "New" ++ " " ++ ("peer" ++ " " ++ ("connected: " ++ rest)) := by
      rw [show ServerMessage.newcomerStart = "New" ++ " " ++ ("peer" ++ " " ++ "connected: ") from rfl]
      simp only [String.append_assoc]
    rw [Text.eq_append_of_after? hr, hstart, Text.words_append (by decide),
      Text.words_append (by decide)] at hwords
    have haddress : "peer" = p.address.text := (List.cons.inj (List.cons.inj hwords).2).1
    have hread := IpAddress.read?_text p.address
    rw [← haddress] at hread
    exact absurd hread (by simp [show IpAddress.read? "peer" = none from rfl])

theorem parse_peer {p : Peer} (h : p.Valid) : parse (line (.peer p)) = .peer p := by
  have hblank : ' ' ∈ p.line.toList := by
    rw [Peer.line, String.toList_append, String.toList_append]
    exact List.mem_append_left _ (List.mem_append_right _ (by decide))
  have htrim : Text.trimLineEnd p.line = p.line := trimLineEnd_append (Decimal.isWord_toString _)
  rw [line, parse_of_blank htrim hblank, after?_line h, Peer.parse_line h]

theorem parse_line {a : Announcement} (h : a.Valid) : parse a.line = a := by
  cases a with
  | listHeader => decide
  | peer p => exact parse_peer h
  | nameTaken => decide
  | invalidCommand => decide
  | serverFull => decide
  | newcomer name => exact parse_newcomer h
  | other text => exact h.elim

theorem fits_line {a : Announcement} (h : a.Valid) : Line.Fits Line.maxSize a.line := by
  cases a with
  | listHeader => exact ⟨by decide, by decide, by decide⟩
  | peer p => exact p.fits_line h
  | nameTaken => exact ⟨by decide, by decide, by decide⟩
  | invalidCommand => exact ⟨by decide, by decide, by decide⟩
  | serverFull => exact ⟨by decide, by decide, by decide⟩
  | newcomer name => exact Line.fits_append_name (by decide) h (by decide)
  | other text => exact h.elim

end Announcement

namespace ServerMessage

/-- What a client reads of a message, line by line. -/
def announcements : ServerMessage → List Announcement
  | peerList peers => .listHeader :: peers.map .peer
  | nameTaken => [.nameTaken]
  | invalidCommand => [.invalidCommand]
  | serverFull => [.serverFull]
  | newcomer name => [.newcomer name]
  | remark text => [.other text]

/-- All that it tells can be read back. -/
def Valid (m : ServerMessage) : Prop := ∀ a ∈ m.announcements, a.Valid

theorem valid_newcomer {name : String} (h : isName name = true) : (newcomer name).Valid :=
  fun _ hm => List.mem_singleton.mp hm ▸ h

theorem valid_peerList {peers : List Peer} (h : ∀ p ∈ peers, p.Valid) : (peerList peers).Valid := by
  intro a hm
  rcases List.mem_cons.mp hm with rfl | hm
  · trivial
  · obtain ⟨p, hp, rfl⟩ := List.mem_map.mp hm
    exact h p hp

theorem encode_peerLines (peers : List Peer) :
    Utf8.encode (peerLines peers) =
      Line.writeAll ((peers.map Announcement.peer).map Announcement.line) := by
  induction peers with
  | nil => rfl
  | cons p peers ih =>
    rw [peerLines, Utf8.encode_append, ih]
    rfl

theorem encode_text {m : ServerMessage} (h : m.Valid) :
    Utf8.encode m.text = Line.writeAll (m.announcements.map Announcement.line) := by
  cases m with
  | peerList peers =>
    rw [text, Utf8.encode_append, encode_peerLines]
    rfl
  | nameTaken => rfl
  | invalidCommand => rfl
  | serverFull => rfl
  | newcomer name => exact (List.append_nil _).symm
  | remark text => exact (h _ (List.mem_cons_self ..)).elim

end ServerMessage

end PeerChat
