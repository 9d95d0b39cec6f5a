import PeerChat.Stream.Line

/-!
# Lines from a terminal

Input is cut into lines of any length; a line ends with a line feed, before which one carriage
return is dropped. Input that is not UTF-8 ends the reading.
-/

namespace PeerChat

structure Terminal where
  /-- What has arrived of a line whose end is still to come. -/
  unread : Bytes
  isOpen : Bool
  deriving DecidableEq, Repr

namespace Terminal

def start : Terminal := ⟨[], true⟩

/-- Cuts off everything up to the last line feed, line by line. -/
def cutLines : Bytes → List Bytes × Bytes
  | [] => ([], [])
  | b :: rest =>
    match cutLines rest with
    | (lines, unread) =>
      if b = Line.lineFeed then ([b] :: lines, unread)
      else match lines with
        | [] => ([], b :: unread)
        | line :: later => ((b :: line) :: later, unread)

/-- The lines up to the first that is not UTF-8, and whether there is none such. -/
def texts : List Bytes → List String × Bool
  | [] => ([], true)
  | line :: later =>
    if Utf8.encode (Utf8.decode line) = line then
      let (lines, isOpen) := texts later
      (Utf8.decode (Line.content line) :: lines, isOpen)
    else ([], false)

/-- Bytes typed; `ended` tells whether they are the last. -/
def receive (t : Terminal) (ended : Bool) (bytes : Bytes) : List String × Terminal :=
  if t.isOpen then
    let (lines, unread) := cutLines (t.unread ++ bytes)
    let (lines, unread) :=
      if ended && !unread.isEmpty then (lines ++ [unread], []) else (lines, unread)
    let (texts, isOpen) := texts lines
    (texts, ⟨unread, isOpen && !ended⟩)
  else ([], t)

end Terminal

end PeerChat
