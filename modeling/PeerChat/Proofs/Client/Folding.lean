import PeerChat.Proofs.Client.ReadLoop

/-!
# Folding loses no list that matters

However a stream is cut into reads, what a listener tells of it is what it says line by line, but for
lists right behind which comes another one (`listen_folds`).  Nothing is held back while it waits.
-/

namespace PeerChat

/-! ## Line by line -/

/-- The lines that are read before reading fails or comes to the end. -/
def Line.texts : List Item → List String
  | .text s :: later => s :: texts later
  | _ => []

def Update.list? : Update → Option (List Peer)
  | peerList peers => some peers
  | _ => none

/-- What is no list, each with the list that is known when it is told. -/
def news (peers : List Peer) : List Update → List (List Peer × Update)
  | [] => []
  | update :: later =>
    match update.list? with
    | some list => news list later
    | none => (peers, update) :: news peers later

theorem FoldsTo.news_eq {us vs : List Update} (h : FoldsTo us vs) (peers : List Peer) :
    news peers vs = news peers us := by
  induction h generalizing peers with
  | nil => rfl
  | keep u h ih =>
    rw [news, news]
    split
    · exact ih _
    · rw [ih]
  | leave list h ih => exact ih peers

namespace Listener

variable {l : Listener} {cur ended : Bool} {later : Bytes}

/-- What a stream says line by line, from the header of its first list on. -/
def plainly (ended : Bool) (data : Bytes) : List Update :=
  (Listing.closed.pushAll (.listHeader ::
    (Line.texts (Line.items Line.maxSize ended data).1).map .parse)).2

/-- What is still to be told, if `later` is all that is still to come. -/
def toTell (l : Listener) (ended : Bool) (later : Bytes) : List Update :=
  if l.finished then []
  else
    l.held ++ (l.listing.pushAll
      ((Line.texts (Line.items Line.maxSize ended (l.unread ++ later)).1).map .parse)).2

theorem toTell_of_finished (hf : l.finished = true) : l.toTell ended later = [] := if_pos hf

theorem toTell_of_open (hf : l.finished = false) :
    l.toTell ended later = l.held ++ (l.listing.pushAll
      ((Line.texts (Line.items Line.maxSize ended (l.unread ++ later)).1).map .parse)).2 :=
  if_neg (by simp [hf])

theorem toTell_start (ended : Bool) (data : Bytes) : start.toTell ended data = plainly ended data := rfl

/-- What has arrived is still to be told. -/
theorem toTell_arrived (l : Listener) (ended : Bool) (bytes later : Bytes) :
    toTell { l with unread := l.unread ++ bytes } ended later = l.toTell ended (bytes ++ later) := by
  simp only [toTell, held, List.append_assoc]

/-- A listener that waits has told all that has been said. -/
theorem Settled.toTell_eq_nil (h : l.Settled) : l.toTell false [] = [] := by
  rcases Bool.eq_false_or_eq_true l.finished with hf | hf
  · exact toTell_of_finished hf
  · have hwaits := h.over_or.resolve_left (by simp [hf])
    rw [toTell_of_open hf, held, h.pending, List.append_nil, Line.items_of_incomplete hwaits]
    rfl

/-! ## All rounds -/

/-- What a read gives stands, whatever comes later. -/
def Stands (cur ended : Bool) (later : Bytes) : Prop :=
  ∀ data, Line.read Line.maxSize cur data ≠ .incomplete →
    Line.read Line.maxSize ended (data ++ later) = (Line.read Line.maxSize cur data).extend later

theorem stands_false (ended : Bool) (later : Bytes) : Stands false ended later :=
  fun _ h => Line.read_append h later

theorem stands_true : Stands true true [] := by
  intro data h
  rw [List.append_nil]
  cases Line.read Line.maxSize true data with
  | incomplete => rfl
  | ended => rfl
  | line s rest => rw [Line.Outcome.extend, List.append_nil]
  | tooLong rest => rw [Line.Outcome.extend, List.append_nil]

theorem Stands.read_eq (hs : Stands cur ended later) {data : Bytes} {r : Line.Outcome}
    (h : Line.read Line.maxSize cur data = r) (hr : r ≠ .incomplete) :
    Line.read Line.maxSize ended (data ++ later) = r.extend later := by
  rw [hs data (h ▸ hr), h]

/-- By induction on the rounds: with each of them, what has been told and what is still to be told come
to the same. -/
theorem loop_foldsTo (hs : Stands cur ended later) (hf : l.finished = false) :
    FoldsTo (l.toTell ended later) ((l.loop cur).2 ++ (l.loop cur).1.toTell ended later) := by
  fun_induction loop cur l with
  | case1 l h =>
    rw [look_of_incomplete h, toTell_of_open (l := { l with pending := none }) hf, toTell_of_open hf]
    exact .refl _
  | case2 l s rest h next hlt last ih =>
    obtain ⟨pending, hl, hheld⟩ := look_spec l
    have hread := hs.read_eq h (by simp)
    have hopen : { l.look.1 with unread := rest }.finished = false := by
      rw [hl]
      exact hf
    have hlisting : l.look.1.listing = l.listing := by rw [hl]
    -- What is said behind this line; it comes after the list that is held back now, and then after
    -- the one that is held back behind the line.
    obtain ⟨us, hus⟩ : ∃ us, us = ((l.look.1.listing.push (.parse s)).1.pushAll
      ((Line.texts (Line.items Line.maxSize ended (rest ++ later)).1).map .parse)).2 := ⟨_, rfl⟩
    obtain ⟨⟨pending', hnext⟩, hround⟩ := takeItem_text hopen s us
    have htell : l.toTell ended later =
        l.look.2 ++ (l.look.1.held ++ ((l.look.1.listing.push (.parse s)).2.toList ++ us)) := by
      rw [toTell_of_open hf, Line.items_of_line hread, hus, ← List.append_assoc l.look.2, hheld,
        hlisting]
      rfl
    have hlater : next.1.toTell ended later = next.1.held ++ us := by
      rw [toTell_of_open (finished_takeItem hopen s), hus, hnext]
    have hrest := ih (finished_takeItem hopen s)
    rw [hlater] at hrest
    rw [htell]
    refine (hround.append_left l.look.2).trans ?_
    simp only [List.append_assoc]
    exact (hrest.append_left next.2).append_left l.look.2
  | case3 l rest h =>
    have hread := hs.read_eq h (by simp)
    rw [finish_look, toTell_of_open hf, Line.items_of_tooLong hread, toTell_of_finished rfl]
    exact .refl _
  | case4 l h =>
    have hread := hs.read_eq h (by simp)
    rw [finish_look, toTell_of_open hf, Line.items_of_ended hread, toTell_of_finished rfl]
    exact .refl _

/-- By induction on the reads. -/
theorem follow_foldsTo (l : Listener) (ended : Bool) (pieces : List Bytes) (later : Bytes) :
    FoldsTo (l.toTell ended (pieces.flatten ++ later))
      ((l.follow pieces).2 ++ (l.follow pieces).1.toTell ended later) := by
  induction pieces generalizing l with
  | nil => exact .refl _
  | cons bytes pieces ih =>
    rcases Bool.eq_false_or_eq_true l.finished with hf | hf
    · rw [follow_of_finished hf, toTell_of_finished hf, toTell_of_finished hf]
      exact .nil
    · have hround := loop_foldsTo (l := { l with unread := l.unread ++ bytes })
        (stands_false ended (pieces.flatten ++ later)) hf
      rw [toTell_arrived, ← List.append_assoc, ← List.flatten_cons] at hround
      rw [follow_cons hf, List.append_assoc]
      exact hround.trans ((ih _).append_left _)

theorem Settled.meet_foldsTo (h : l.Settled) (ending : Ending) :
    FoldsTo (l.toTell (ending = .closed) []) (l.meet ending).2 := by
  rcases Bool.eq_false_or_eq_true l.finished with hf | hf
  · rw [meet_of_finished hf, toTell_of_finished hf]
    exact .nil
  · rw [meet_of_open hf]
    cases ending with
    | waiting => exact h.toTell_eq_nil ▸ .nil
    | closed =>
      have hlast := loop_foldsTo stands_true hf
      rwa [toTell_of_finished (finished_loop_true l), List.append_nil] at hlast
    | failed =>
      rw [finish_eq, held, h.pending]
      exact h.toTell_eq_nil ▸ .nil

/-- What a listener tells of a stream is what the stream says line by line, but for lists right behind
which comes another one: all else is told in its order and with the list that is known then.  When it
waits, after any of the reads, it holds back no list, and where the stream ends it is finished.  To
take all lines of a read at once comes to the same. -/
theorem listen_folds (first : Bytes) (pieces : List Bytes) (ending : Ending) :
    let plain := plainly (ending = .closed) (first ++ pieces.flatten)
    let heard := listen first pieces ending
    FoldsTo plain heard.2 ∧
      (∀ peers, news peers heard.2 = news peers plain ∧ latest peers heard.2 = latest peers plain) ∧
      (∀ n, (start.follow (first :: pieces.take n)).1.pending = none) ∧
      heard.1.pending = none ∧ (ending = .waiting ∨ heard.1.finished = true) ∧
      (readAll first pieces ending).2 = heard.2 := by
  intro plain heard
  have hsettled := settled_follow_start first pieces
  have hfolds : FoldsTo plain heard.2 := by
    have hreads := follow_foldsTo start (ending = .closed) (first :: pieces) []
    rw [List.append_nil, List.flatten_cons, toTell_start] at hreads
    exact hreads.trans ((hsettled.meet_foldsTo ending).append_left _)
  exact ⟨hfolds, fun peers => ⟨hfolds.news_eq peers, (hfolds.folded.latest_eq peers).symm⟩,
    fun n => (settled_follow_start first (pieces.take n)).pending, hsettled.pending_meet ending,
    finished_meet _ ending, (listen_eq_readAll first pieces ending).symm⟩

end Listener

end PeerChat
