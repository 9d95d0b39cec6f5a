import PeerChat.Text.Blank
import PeerChat.Text.Utf8
import PeerChat.Wire.Error

/-!
# Lines on a stream

A line ends with a line feed, before which one carriage return is dropped; the last line of a
stream may lack its end. A line of more bytes than the limit is refused after so many bytes and
two more, room for the longest ending, and reading can go on from there.
-/

namespace PeerChat.Line

/-- Lines of every conversation are limited to so many bytes. -/
def maxSize : Nat := 1024

def lineFeed : UInt8 := 10

def carriageReturn : UInt8 := 13

/-- The first line with its end, if the end is among the first `bound` bytes. -/
def firstLine : (bound : Nat) → Bytes → Option Bytes
  | bound + 1, b :: rest =>
    if b = lineFeed then some [b] else (firstLine bound rest).map (b :: ·)
  | _, _ => none

/-- A line without its end. -/
def content (line : Bytes) : Bytes :=
  if line.getLast? = some lineFeed then
    let body := line.dropLast
    if body.getLast? = some carriageReturn then body.dropLast else body
  else line

/-- What can be said of the front of a stream. -/
inductive Outcome where
  /-- The end of the line has not arrived. -/
  | incomplete
  | ended
  | line (text : String) (rest : Bytes)
  | tooLong (rest : Bytes)
  deriving DecidableEq, Repr

def ofBytes (limit : Nat) (line rest : Bytes) : Outcome :=
  if (content line).length ≤ limit then .line (Utf8.decode (content line)) rest else .tooLong rest

/-- The next line of a stream; `ended` tells whether anything can still arrive behind `data`. -/
def read (limit : Nat) (ended : Bool) (data : Bytes) : Outcome :=
  match firstLine (limit + 2) data with
  | some line => ofBytes limit line (data.drop line.length)
  | none =>
    let window := data.take (limit + 2)
    if window.length = limit + 2 then ofBytes limit window (data.drop window.length)
    else if ended then if data.isEmpty then .ended else ofBytes limit data []
    else .incomplete

/-- What one read of a line gives. -/
inductive Item where
  | text (s : String)
  | tooLong
  | ended
  deriving DecidableEq, Repr

theorem length_pos_of_firstLine {bound : Nat} {bs line : Bytes}
    (h : firstLine bound bs = some line) : 0 < line.length := by
  cases bound with
  | zero => exact absurd h (by simp [firstLine])
  | succ bound =>
    cases bs with
    | nil => exact absurd h (by simp [firstLine])
    | cons b rest =>
      rw [firstLine] at h
      split at h
      · simp [← Option.some.inj h]
      · obtain ⟨later, -, rfl⟩ := Option.map_eq_some_iff.1 h
        simp

/-- What is left behind a line or an over-long one is shorter than before. -/
def Outcome.Leaves (rest : Bytes) : Outcome → Prop
  | .line _ r => r = rest
  | .tooLong r => r = rest
  | _ => False

theorem ofBytes_leaves {limit : Nat} {line rest r : Bytes}
    (h : (ofBytes limit line rest).Leaves r) : r = rest := by
  unfold ofBytes at h
  split at h <;> exact h.symm

theorem length_lt_of_leaves {limit : Nat} {ended : Bool} {data r : Bytes}
    (h : (read limit ended data).Leaves r) : r.length < data.length := by
  unfold read at h
  cases data with
  | nil =>
    cases ended <;> simp [firstLine, Outcome.Leaves] at h
  | cons b bs =>
    simp only [] at h
    split at h
    · rename_i line hc
      have hl := length_pos_of_firstLine hc
      rw [ofBytes_leaves h, List.length_drop, List.length_cons]
      omega
    · split at h
      · rename_i hw
        rw [ofBytes_leaves h, hw, List.length_drop, List.length_cons]
        omega
      · split at h
        · split at h
          · exact absurd h (by simp [Outcome.Leaves])
          · rw [ofBytes_leaves h]; simp
        · exact absurd h (by simp [Outcome.Leaves])

/-- All reads that can be made of the data, and the bytes of an incomplete line. Reading goes on
after an over-long line. -/
def items (limit : Nat) (ended : Bool) (data : Bytes) : List Item × Bytes :=
  match h : read limit ended data with
  | .incomplete => ([], data)
  | .ended => ([.ended], [])
  | .line s rest =>
    have := length_lt_of_leaves (show (read limit ended data).Leaves rest by rw [h]; rfl)
    let (later, unread) := items limit ended rest
    (.text s :: later, unread)
  | .tooLong rest =>
    have := length_lt_of_leaves (show (read limit ended data).Leaves rest by rw [h]; rfl)
    let (later, unread) := items limit ended rest
    (.tooLong :: later, unread)
termination_by data.length

/-- The bytes of a text sent as a line. -/
def write (text : String) : Bytes := Utf8.encode (Text.terminated text)

end PeerChat.Line
