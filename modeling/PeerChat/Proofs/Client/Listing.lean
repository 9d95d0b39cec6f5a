import Mathlib.Data.List.Induction
import PeerChat.Proofs.Client.Listener

/-!
# The list that is open

A listing tells one update or none of each line (`Listing.told`).  It tells a list exactly where the lines
so far end in a header and the peers of that list (`Listing.EndsIn`), and after a line of which it tells
no list it is as good as new (`told_exactly`).
-/

namespace PeerChat

/-- What a line says by itself, where it belongs to no list; a blank one says nothing. -/
inductive Announcement.Tells : Announcement → Option Update → Prop
  | stray (p : Peer) : Tells (.peer p) (some (.remark p.line))
  | newcomer (name : String) : Tells (.newcomer name) (some (.newcomer name))
  | nameTaken : Tells .nameTaken (some .nameTaken)
  | invalidCommand : Tells .invalidCommand (some .invalidCommand)
  | serverFull : Tells .serverFull (some .serverFull)
  | remark {text : String} {c : Char} (mem : c ∈ text.toList) (seen : Text.isBlank c = false) :
      Tells (.other text) (some (.remark text))
  | blank {text : String} (blank : ∀ c ∈ text.toList, Text.isBlank c = true) : Tells (.other text) none

namespace Listing

/-- The lines end in a header and these peers. -/
def EndsIn (lines : List Announcement) (peers : List Peer) : Prop :=
  ∃ before, lines = before ++ .listHeader :: peers.map .peer

/-- What is told of each line, one after the other. -/
def told (l : Listing) : List Announcement → List (Option Update)
  | [] => []
  | a :: later => (l.push a).2 :: (l.push a).1.told later

variable {l : Listing} {a : Announcement} {lines : List Announcement} {peers : List Peer} {i : Nat}

/-! ## Line by line -/

theorem pushAll_concat (l : Listing) (lines : List Announcement) (a : Announcement) :
    (l.pushAll (lines ++ [a])).1 = ((l.pushAll lines).1.push a).1 := by
  rw [pushAll_append]
  rfl

/-- What is told of a line depends on what is open before it. -/
theorem getElem?_told (h : lines[i]? = some a) :
    (l.told lines)[i]? = some ((l.pushAll (lines.take i)).1.push a).2 := by
  induction i generalizing l lines with
  | zero =>
    cases lines with
    | nil => exact absurd h (by simp)
    | cons b later =>
      obtain rfl : b = a := by simpa using h
      rfl
  | succ i ih =>
    cases lines with
    | nil => exact absurd h (by simp)
    | cons b later => exact ih (l := (l.push b).1) (by simpa using h)

/-- So does what is told of all that comes later. -/
theorem drop_told (l : Listing) (lines : List Announcement) (i : Nat) :
    (l.told lines).drop i = (l.pushAll (lines.take i)).1.told (lines.drop i) := by
  induction i generalizing l lines with
  | zero => rfl
  | succ i ih =>
    cases lines with
    | nil => rfl
    | cons b later => exact ih (l.push b).1 later

/-! ## What is open -/

/-- A list is told exactly where it is open behind the line. -/
theorem push_eq_peerList_iff :
    (l.push a).2 = some (.peerList peers) ↔ (l.push a).1.current = some peers := by
  cases a with
  | peer p =>
    rw [push]
    cases hl : l.current with
    | none => simp [hl]
    | some list => simp
  | other text =>
    rw [push]
    split <;> simp [closed]
  | listHeader => simp [push, opened]
  | newcomer name | nameTaken | invalidCommand | serverFull => simp [push, closed]

/-- Only a header opens a list, and only a peer leaves it open. -/
theorem current_push_iff : (l.push a).1.current = some peers ↔
    (a = .listHeader ∧ peers = []) ∨
      ∃ p front, a = .peer p ∧ peers = front ++ [p] ∧ l.current = some front := by
  cases a with
  | peer p =>
    rw [push]
    cases hl : l.current with
    | none => simp [hl]
    | some list => simp [eq_comm]
  | listHeader => simp [push, opened, eq_comm]
  | newcomer name | nameTaken | invalidCommand | serverFull | other text => simp [push, closed]

theorem endsIn_concat_iff : EndsIn (lines ++ [a]) peers ↔
    (a = .listHeader ∧ peers = []) ∨
      ∃ p front, a = .peer p ∧ peers = front ++ [p] ∧ EndsIn lines front := by
  constructor
  · rintro ⟨before, h⟩
    rcases List.eq_nil_or_concat peers with rfl | ⟨front, p, rfl⟩
    · obtain ⟨-, ha⟩ := List.append_inj' h rfl
      exact .inl ⟨(List.cons.inj ha).1, rfl⟩
    · rw [List.concat_eq_append, List.map_append, ← List.cons_append, ← List.append_assoc] at h
      obtain ⟨hlines, ha⟩ := List.append_inj' h rfl
      exact .inr ⟨p, front, (List.cons.inj ha).1, List.concat_eq_append, before, hlines⟩
  · rintro (⟨rfl, rfl⟩ | ⟨p, front, rfl, rfl, before, rfl⟩)
    · exact ⟨lines, rfl⟩
    · exact ⟨before, by simp⟩

/-- The list that is open is the one in which the lines end, by induction on the lines from the last. -/
theorem current_pushAll_iff :
    (closed.pushAll lines).1.current = some peers ↔ EndsIn lines peers := by
  induction lines using List.reverseRecOn generalizing peers with
  | nil =>
    refine ⟨fun h => absurd h (by simp [pushAll, closed]), ?_⟩
    rintro ⟨before, h⟩
    exact absurd h (by simp)
  | append_singleton lines a ih =>
    rw [pushAll_concat, current_push_iff, endsIn_concat_iff]
    simp only [ih]

theorem eq_closed (h : ∀ peers, l.current ≠ some peers) : l = closed := by
  obtain ⟨current⟩ := l
  cases current with
  | none => rfl
  | some peers => exact absurd rfl (h peers)

/-- A line of which no list is told speaks for itself. -/
theorem tells_push (h : ∀ peers, (l.push a).2 ≠ some (.peerList peers)) : a.Tells (l.push a).2 := by
  cases a with
  | listHeader => exact absurd rfl (h [])
  | peer p =>
    cases hl : l.current with
    | none =>
      rw [push, hl]
      exact .stray p
    | some list =>
      refine absurd ?_ (h (list ++ [p]))
      rw [push, hl]
  | newcomer name => exact .newcomer name
  | nameTaken => exact .nameTaken
  | invalidCommand => exact .invalidCommand
  | serverFull => exact .serverFull
  | other text =>
    rw [push]
    split
    · rename_i hblank
      exact .blank (Text.trim_eq_empty_iff.mp hblank)
    · rename_i hseen
      rw [Text.trim_eq_empty_iff, not_forall₂] at hseen
      obtain ⟨c, hc, hseen⟩ := hseen
      exact .remark hc (eq_false_of_ne_true hseen)

/-! ## All that is told -/

/-- Of a header, and of a peer where the lines before it end in a list, the list is told in which the
lines up to it end.  Every other line is told for what it says by itself, and what is told after it is
what a new listing tells of the later lines alone. -/
theorem told_exactly (h : lines[i]? = some a) :
    ((∃ peers, (closed.told lines)[i]? = some (some (.peerList peers))) ↔
      a = .listHeader ∨ ∃ p, a = .peer p ∧ ∃ front, EndsIn (lines.take i) front) ∧
    (∀ peers, (closed.told lines)[i]? = some (some (.peerList peers)) ↔
      EndsIn (lines.take (i + 1)) peers) ∧
    ((∀ peers, ¬ EndsIn (lines.take (i + 1)) peers) →
      (∃ update, a.Tells update ∧ (closed.told lines)[i]? = some update) ∧
      (closed.told lines).drop (i + 1) = closed.told (lines.drop (i + 1))) := by
  have htake : lines.take (i + 1) = lines.take i ++ [a] := by
    rw [List.take_add_one, h]
    rfl
  have htold : ∀ peers, (closed.told lines)[i]? = some (some (.peerList peers)) ↔
      EndsIn (lines.take (i + 1)) peers := by
    intro peers
    rw [getElem?_told h, Option.some_inj, push_eq_peerList_iff, ← pushAll_concat, ← htake,
      current_pushAll_iff]
  refine ⟨?_, htold, fun hnone => ⟨?_, ?_⟩⟩
  · simp only [htold, htake, endsIn_concat_iff]
    constructor
    · rintro ⟨peers, ⟨ha, -⟩ | ⟨p, front, ha, -, hfront⟩⟩
      · exact .inl ha
      · exact .inr ⟨p, ha, front, hfront⟩
    · rintro (ha | ⟨p, ha, front, hfront⟩)
      · exact ⟨[], .inl ⟨ha, rfl⟩⟩
      · exact ⟨front ++ [p], .inr ⟨p, front, ha, rfl, hfront⟩⟩
  · refine ⟨_, tells_push fun peers hpeers => hnone peers ?_, getElem?_told h⟩
    rw [← htold, getElem?_told h, hpeers]
  · have hclosed : (closed.pushAll (lines.take (i + 1))).1 = closed :=
      eq_closed fun peers hpeers => hnone peers (current_pushAll_iff.mp hpeers)
    rw [drop_told, hclosed]

/-- A list that a newcomer interrupts, a peer that belongs to none, and a list that a blank line ends. -/
def interrupted : List Announcement :=
  [.listHeader, .peer ⟨"alice", .v4 10 0 0 1, 6001⟩, .newcomer "bob",
    .peer ⟨"mallory", .v4 10 0 0 6, 1⟩, .listHeader, .peer ⟨"carol", .v4 10 0 0 3, 6003⟩, .other " "]

theorem told_exactly_interrupted :
    interrupted[3]? = some (.peer ⟨"mallory", .v4 10 0 0 6, 1⟩) ∧
      (closed.told interrupted)[3]? = some (some (.remark "mallory 10.0.0.6 1")) ∧
      (∀ peers, ¬ EndsIn (interrupted.take 4) peers) ∧
      (closed.told interrupted).drop 4 =
        [some (.peerList []), some (.peerList [⟨"carol", .v4 10 0 0 3, 6003⟩]), none] := by
  have htold : (closed.told interrupted)[3]? = some (some (.remark "mallory 10.0.0.6 1")) := by
    decide +kernel
  have hline : interrupted[3]? = some (.peer ⟨"mallory", .v4 10 0 0 6, 1⟩) := rfl
  obtain ⟨-, hends, hlater⟩ := told_exactly hline
  have hnone : ∀ peers, ¬ EndsIn (interrupted.take 4) peers := by
    intro peers h
    rw [← hends, htold] at h
    exact absurd h (by simp)
  refine ⟨hline, htold, hnone, ?_⟩
  rw [(hlater hnone).2]
  decide +kernel

end Listing

end PeerChat
