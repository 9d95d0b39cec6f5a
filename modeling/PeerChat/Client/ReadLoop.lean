import PeerChat.Client.Listener

/-!
# The loop of a listener

A listener goes round with the bytes that it has read.  Each time it first looks whether another line
can be in them; if none can, it tells the list that it holds back.  Then it takes the next line.  Where
there is none, it waits for another read.
-/

namespace PeerChat

namespace Listener

/-- The look into the buffer. -/
def look (l : Listener) : Listener × List Update :=
  if Line.lineFeed ∈ l.unread then (l, []) else l.flush

/-- Reading is over. -/
def finish (l : Listener) : Listener × List Update := flush { l with finished := true }

theorem takeItem_eq {l : Listener} (hf : l.finished = false) (s : String) :
    l.takeItem (.text s) =
      takeUpdate { l with listing := (l.listing.push (.parse s)).1 } (l.listing.push (.parse s)).2 := by
  rw [takeItem, if_neg (by simp [hf])]

theorem takeUpdate_unread (l : Listener) (unread : Bytes) (update : Option Update) :
    takeUpdate { l with unread } update =
      ({ (l.takeUpdate update).1 with unread }, (l.takeUpdate update).2) := by
  obtain ⟨own, listing, pending, finished⟩ := l
  cases update with
  | none => rfl
  | some update => cases update <;> cases pending <;> rfl

/-- A line is taken alike, whatever is unread behind it. -/
theorem takeItem_unread (l : Listener) (unread : Bytes) (item : Line.Item) :
    takeItem { l with unread } item =
      ({ (l.takeItem item).1 with unread }, (l.takeItem item).2) := by
  rcases Bool.eq_false_or_eq_true l.finished with hf | hf
  · simp only [takeItem, hf, if_true]
  · cases item with
    | text s =>
      rw [takeItem_eq hf, takeItem_eq (l := { l with unread }) hf]
      exact takeUpdate_unread { l with listing := (l.listing.push (.parse s)).1 } unread _
    | tooLong => simp [takeItem, hf]
    | ended => simp [takeItem, hf]

theorem unread_takeItem (l : Listener) (item : Line.Item) : (l.takeItem item).1.unread = l.unread :=
  congrArg (fun r => r.1.unread) (takeItem_unread l l.unread item)

/-- All rounds that can be made; `ended` tells whether the end of the stream has been found.  The look
into the buffer comes before the line is taken. -/
def loop (ended : Bool) (l : Listener) : Listener × List Update :=
  match h : Line.read Line.maxSize ended l.unread with
  | .incomplete => l.look
  | .line s rest =>
    let next : Listener × List Update := takeItem { l.look.1 with unread := rest } (.text s)
    have : next.1.unread.length < l.unread.length := by
      rw [unread_takeItem]
      exact Line.length_lt_of_leaves (by rw [h]; rfl)
    let last := loop ended next.1
    (last.1, l.look.2 ++ next.2 ++ last.2)
  | .tooLong _ | .ended => (l.look.1.finish.1, l.look.2 ++ l.look.1.finish.2)
termination_by l.unread.length

/-- The loop, as one read after the other brings more bytes. -/
def follow (l : Listener) : List Bytes → Listener × List Update
  | [] => (l, [])
  | bytes :: later =>
    let (l, updates) := if l.finished then (l, []) else loop false { l with unread := l.unread ++ bytes }
    let (l, rest) := follow l later
    (l, updates ++ rest)

/-- What comes behind the last read. -/
inductive Ending where
  /-- Another read is waited for. -/
  | waiting
  | closed
  | failed
  deriving DecidableEq, Repr

def meet (l : Listener) (ending : Ending) : Listener × List Update :=
  if l.finished then (l, [])
  else
    match ending with
    | .waiting => (l, [])
    | .closed => l.loop true
    | .failed => l.finish

/-- All that is told of a stream by a listener whose list header has just been read; `first` has come
in the same read. -/
def listen (first : Bytes) (pieces : List Bytes) (ending : Ending) : Listener × List Update :=
  let (l, updates) := start.follow (first :: pieces)
  let (l, rest) := l.meet ending
  (l, updates ++ rest)

/-- The same with all lines of a read taken at once. -/
def readAll (first : Bytes) (pieces : List Bytes) (ending : Ending) : Listener × List Update :=
  let (l, updates) := start.reads (first :: pieces)
  let (l, rest) :=
    match ending with
    | .waiting => (l, [])
    | .closed => l.read true []
    | .failed => read { l with unread := [] } true []
  (l, updates ++ rest)

end Listener

end PeerChat
