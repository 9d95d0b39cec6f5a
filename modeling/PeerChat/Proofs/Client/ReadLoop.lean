import PeerChat.Client.ReadLoop
import PeerChat.Proofs.Client.Listener
import PeerChat.Proofs.Stream.Line

/-!
# A listener, round by round

Between the reads a listener waits for the end of a line, or is at the end, and holds back no list
(`Settled.follow`).  To take all lines of a read at once, and let go of the list that is held back only
then, comes to the same as to go round with one line after the other (`listen_eq_readAll`).
-/

namespace PeerChat.Listener

variable {l : Listener} {cur : Bool}

/-! ## A round -/

theorem look_spec (l : Listener) :
    ∃ pending, l.look.1 = { l with pending } ∧ l.look.2 ++ l.look.1.held = l.held := by
  rw [look]
  split
  · exact ⟨l.pending, rfl, rfl⟩
  · rw [flush_eq]
    exact ⟨none, rfl, List.append_nil _⟩

theorem look_of_pending (h : l.pending = none) : l.look = (l, []) := by
  have hflush : l.flush = (l, []) := by rw [flush, h]
  rw [look, hflush, ite_self]

theorem look_of_mem (h : Line.lineFeed ∈ l.unread) : l.look = (l, []) := if_pos h

theorem look_of_incomplete (h : Line.read Line.maxSize cur l.unread = .incomplete) :
    l.look = ({ l with pending := none }, l.held) := by
  have hm : Line.lineFeed ∉ l.unread := fun hm => Line.read_ne_incomplete_of_mem hm h
  rw [look, if_neg hm, flush_eq]

theorem finish_eq (l : Listener) :
    l.finish = ({ l with pending := none, finished := true }, l.held) := flush_eq _

theorem finish_look (l : Listener) :
    (l.look.1.finish.1, l.look.2 ++ l.look.1.finish.2) =
      ({ l with pending := none, finished := true }, l.held) := by
  obtain ⟨pending, hl, hheld⟩ := look_spec l
  rw [finish_eq, hheld, hl]

theorem takeItem_text (hf : l.finished = false) (s : String) (us : List Update) :
    (∃ pending, (l.takeItem (.text s)).1 =
        { l with listing := (l.listing.push (.parse s)).1, pending }) ∧
      FoldsTo (l.held ++ ((l.listing.push (.parse s)).2.toList ++ us))
        ((l.takeItem (.text s)).2 ++ ((l.takeItem (.text s)).1.held ++ us)) := by
  rw [takeItem_eq hf]
  exact takeUpdate_spec { l with listing := (l.listing.push (.parse s)).1 } _ us

theorem finished_takeItem (hf : l.finished = false) (s : String) :
    (l.takeItem (.text s)).1.finished = false := by
  obtain ⟨⟨pending, h⟩, -⟩ := takeItem_text hf s []
  rw [h, hf]

theorem loop_of_incomplete (h : Line.read Line.maxSize cur l.unread = .incomplete) :
    l.loop cur = l.look := by
  rw [loop]
  split <;> simp_all

theorem loop_of_line {s : String} {rest : Bytes}
    (h : Line.read Line.maxSize cur l.unread = .line s rest) :
    l.loop cur =
      ((loop cur (takeItem { l.look.1 with unread := rest } (.text s)).1).1,
        l.look.2 ++ (takeItem { l.look.1 with unread := rest } (.text s)).2 ++
          (loop cur (takeItem { l.look.1 with unread := rest } (.text s)).1).2) := by
  rw [loop]
  split <;> simp_all

theorem loop_of_over
    (h : (∃ rest, Line.read Line.maxSize cur l.unread = .tooLong rest) ∨
      Line.read Line.maxSize cur l.unread = .ended) :
    l.loop cur = ({ l with pending := none, finished := true }, l.held) := by
  rw [← finish_look l, loop]
  rcases h with ⟨rest, h⟩ | h
  · split <;> simp_all
  · split <;> simp_all

/-! ## Between the reads -/

/-- A listener that waits for another read, or is at the end. -/
structure Settled (l : Listener) : Prop where
  pending : l.pending = none
  over_or : l.finished = true ∨ Line.read Line.maxSize false l.unread = .incomplete

theorem loop_spec (cur : Bool) (l : Listener) :
    (l.loop cur).1.pending = none ∧
      ((l.loop cur).1.finished = true ∨
        Line.read Line.maxSize cur (l.loop cur).1.unread = .incomplete) := by
  fun_induction loop cur l with
  | case1 l h =>
    rw [look_of_incomplete h]
    exact ⟨rfl, .inr h⟩
  | case2 l s rest h next hlt last ih => exact ih
  | case3 l rest h =>
    rw [finish_look]
    exact ⟨rfl, .inl rfl⟩
  | case4 l h =>
    rw [finish_look]
    exact ⟨rfl, .inl rfl⟩

theorem settled_loop (l : Listener) : (l.loop false).1.Settled :=
  ⟨(loop_spec false l).1, (loop_spec false l).2⟩

theorem finished_loop_true (l : Listener) : (l.loop true).1.finished = true :=
  (loop_spec true l).2.resolve_right (Line.read_true_ne_incomplete _ _)

theorem follow_of_finished (hf : l.finished = true) (pieces : List Bytes) :
    l.follow pieces = (l, []) := by
  induction pieces with
  | nil => rfl
  | cons bytes pieces ih =>
    simp only [follow, if_pos hf, ih, List.append_nil]

theorem follow_cons (hf : l.finished = false) (bytes : Bytes) (pieces : List Bytes) :
    l.follow (bytes :: pieces) =
      (((loop false { l with unread := l.unread ++ bytes }).1.follow pieces).1,
        (loop false { l with unread := l.unread ++ bytes }).2 ++
          ((loop false { l with unread := l.unread ++ bytes }).1.follow pieces).2) := by
  rw [follow, if_neg (by simp [hf])]

theorem Settled.follow (h : l.Settled) (pieces : List Bytes) : (l.follow pieces).1.Settled := by
  induction pieces generalizing l with
  | nil => exact h
  | cons bytes pieces ih =>
    cases hf : l.finished with
    | true => rwa [follow_of_finished hf]
    | false =>
      rw [follow_cons hf]
      exact ih (settled_loop _)

theorem settled_follow_start (first : Bytes) (pieces : List Bytes) :
    (start.follow (first :: pieces)).1.Settled := (settled_loop _).follow pieces

theorem meet_of_finished (hf : l.finished = true) (ending : Ending) : l.meet ending = (l, []) :=
  if_pos hf

theorem meet_of_open (hf : l.finished = false) (ending : Ending) :
    l.meet ending =
      match ending with
      | .waiting => (l, [])
      | .closed => l.loop true
      | .failed => l.finish :=
  if_neg (by simp [hf])

theorem Settled.pending_meet (h : l.Settled) (ending : Ending) :
    (l.meet ending).1.pending = none := by
  rcases Bool.eq_false_or_eq_true l.finished with hf | hf
  · rw [meet_of_finished hf, h.pending]
  · rw [meet_of_open hf]
    cases ending with
    | waiting => exact h.pending
    | closed => exact (loop_spec true l).1
    | failed => exact congrArg (fun r => r.1.pending) (finish_eq l)

theorem finished_meet (l : Listener) (ending : Ending) :
    ending = .waiting ∨ (l.meet ending).1.finished = true := by
  rcases Bool.eq_false_or_eq_true l.finished with hf | hf
  · rw [meet_of_finished hf]
    exact .inr hf
  · rw [meet_of_open hf]
    cases ending with
    | waiting => exact .inl rfl
    | closed => exact .inr (finished_loop_true l)
    | failed => exact .inr (congrArg (fun r => r.1.finished) (finish_eq l))

/-! ## All lines of a read at once -/

theorem takeItems_cons (l : Listener) (item : Line.Item) (items : List Line.Item) :
    l.takeItems (item :: items) =
      (((l.takeItem item).1.takeItems items).1,
        (l.takeItem item).2 ++ ((l.takeItem item).1.takeItems items).2) := rfl

theorem takeItems_of_finished (hf : l.finished = true) (items : List Line.Item) :
    l.takeItems items = ({ l with pending := none }, l.held) := by
  induction items with
  | nil => exact flush_eq l
  | cons item items ih =>
    have htake : l.takeItem item = (l, []) := if_pos hf
    rw [takeItems, htake]
    exact ih

theorem takeItems_over (hf : l.finished = false) {item : Line.Item}
    (h : item = .tooLong ∨ item = .ended) (later : List Line.Item) :
    l.takeItems (item :: later) = ({ l with pending := none, finished := true }, l.held) := by
  have htake : l.takeItem item = ({ l with finished := true }, []) := by
    rcases h with rfl | rfl
    · rw [takeItem, if_neg (by simp [hf])]
    · rw [takeItem, if_neg (by simp [hf])]
  rw [takeItems, htake]
  exact takeItems_of_finished (l := { l with finished := true }) rfl later

/-- Where a line can be taken, the look into the buffer finds its end. -/
theorem look_of_line {s : String} {rest : Bytes}
    (h : Line.read Line.maxSize false l.unread = .line s rest) : l.look = (l, []) := by
  refine look_of_mem (by_contra fun hm => ?_)
  rw [Line.read_of_not_mem hm] at h
  split at h <;> simp at h

/-- By induction on the rounds; what is left unread stays out of it. -/
theorem takeItems_eq_loop (hf : l.finished = false) (unread : Bytes) :
    takeItems { l with unread } (Line.items Line.maxSize false l.unread).1 =
      ({ (l.loop false).1 with unread }, (l.loop false).2) := by
  induction l using loop.induct false with
  | case1 l h =>
    rw [Line.items_of_incomplete h, loop_of_incomplete h, look_of_incomplete h]
    exact flush_eq _
  | case2 l s rest h next hlt ih =>
    have hnext : next = takeItem { l with unread := rest } (.text s) := by
      simp only [next, look_of_line h]
    have htake : takeItem { l with unread } (.text s) = ({ next.1 with unread }, next.2) := by
      rw [hnext, takeItem_unread l rest, takeItem_unread l unread]
    have hopen : next.1.finished = false := by
      rw [hnext]
      exact finished_takeItem (l := { l with unread := rest }) hf s
    have hrest : next.1.unread = rest := by
      rw [hnext, unread_takeItem]
    have hlater := ih hopen
    rw [hrest] at hlater
    rw [Line.items_of_line h, takeItems_cons, htake, loop_of_line h, look_of_line h, ← hnext]
    simp only [hlater, List.nil_append]
  | case3 l rest h =>
    rw [Line.items_of_tooLong h, loop_of_over (.inl ⟨rest, h⟩)]
    exact takeItems_over (l := { l with unread }) hf (.inl rfl) _
  | case4 l h =>
    rw [Line.items_of_ended h, loop_of_over (.inr h)]
    exact takeItems_over (l := { l with unread }) hf (.inr rfl) _

theorem unread_loop (l : Listener) (hf : (l.loop false).1.finished = false) :
    (l.loop false).1.unread = (Line.items Line.maxSize false l.unread).2 := by
  fun_induction loop false l with
  | case1 l h => rw [look_of_incomplete h, Line.items_of_incomplete h]
  | case2 l s rest h next hlt last ih =>
    have hrest : next.1.unread = rest := unread_takeItem _ _
    rw [Line.items_of_line h]
    exact hrest ▸ ih hf
  | case3 l rest h => exact absurd (finish_look l ▸ hf) (by simp)
  | case4 l h => exact absurd (finish_look l ▸ hf) (by simp)

/-- Listeners that go on alike: at the end it does not matter what is unread. -/
def Same (l k : Listener) : Prop := l = k ∨ (l.finished = true ∧ k.finished = true)

theorem loop_same (hf : l.finished = false) (bytes : Bytes) :
    (l.read false bytes).2 = (loop false { l with unread := l.unread ++ bytes }).2 ∧
      Same (loop false { l with unread := l.unread ++ bytes }).1 (l.read false bytes).1 := by
  have hread : l.read false bytes =
      takeItems { l with unread := (Line.items Line.maxSize false (l.unread ++ bytes)).2 }
        (Line.items Line.maxSize false (l.unread ++ bytes)).1 := by
    rw [read, if_neg (by simp [hf])]
  have hunread := unread_loop { l with unread := l.unread ++ bytes }
  rw [hread, takeItems_eq_loop (l := { l with unread := l.unread ++ bytes }) hf]
  refine ⟨rfl, ?_⟩
  rcases Bool.eq_false_or_eq_true (loop false { l with unread := l.unread ++ bytes }).1.finished
    with hover | hopen
  · exact .inr ⟨hover, hover⟩
  · exact .inl (by rw [← hunread hopen])

theorem read_of_finished (hf : l.finished = true) (ended : Bool) (bytes : Bytes) :
    l.read ended bytes = (l, []) := if_pos hf

theorem reads_of_finished (hf : l.finished = true) (pieces : List Bytes) :
    l.reads pieces = (l, []) := by
  induction pieces with
  | nil => rfl
  | cons bytes pieces ih => simp only [reads, read_of_finished hf, ih, List.append_nil]

theorem reads_cons (l : Listener) (bytes : Bytes) (pieces : List Bytes) :
    l.reads (bytes :: pieces) =
      (((l.read false bytes).1.reads pieces).1,
        (l.read false bytes).2 ++ ((l.read false bytes).1.reads pieces).2) := rfl

theorem follow_same (pieces : List Bytes) :
    (l.reads pieces).2 = (l.follow pieces).2 ∧ Same (l.follow pieces).1 (l.reads pieces).1 := by
  induction pieces generalizing l with
  | nil => exact ⟨rfl, .inl rfl⟩
  | cons bytes pieces ih =>
    rcases Bool.eq_false_or_eq_true l.finished with hf | hf
    · rw [reads_of_finished hf, follow_of_finished hf]
      exact ⟨rfl, .inl rfl⟩
    · obtain ⟨htold, hsame⟩ := loop_same hf bytes
      rw [follow_cons hf, reads_cons, htold]
      rcases hsame with heq | ⟨hl, hk⟩
      · obtain ⟨hrest, hlast⟩ := ih (l := (l.read false bytes).1)
        rw [heq, hrest]
        exact ⟨rfl, hlast⟩
      · rw [reads_of_finished hk, follow_of_finished hl]
        exact ⟨rfl, .inr ⟨hl, hk⟩⟩

/-- At the end of the stream at most one line is left. -/
theorem Settled.told_of_end (h : l.Settled) (hf : l.finished = false) :
    (l.read true []).2 = (l.loop true).2 := by
  have hread : l.read true [] =
      takeItems { l with unread := (Line.items Line.maxSize true l.unread).2 }
        (Line.items Line.maxSize true l.unread).1 := by
    rw [read, if_neg (by simp [hf]), List.append_nil]
  have hwaits : Line.read Line.maxSize false l.unread = .incomplete :=
    h.over_or.resolve_left (by simp [hf])
  rw [hread]
  generalize (Line.items Line.maxSize true l.unread).2 = unread
  cases hr : Line.read Line.maxSize true l.unread with
  | incomplete => exact absurd hr (Line.read_true_ne_incomplete _ _)
  | ended =>
    rw [Line.items_of_ended hr, loop_of_over (.inr hr),
      takeItems_over (l := { l with unread }) hf (.inr rfl)]
    rfl
  | tooLong rest =>
    rw [Line.items_of_tooLong hr, loop_of_over (.inl ⟨rest, hr⟩),
      takeItems_over (l := { l with unread }) hf (.inl rfl)]
    rfl
  | line s rest =>
    have hrest : rest = [] := by
      rw [Line.read_true_of_incomplete hwaits] at hr
      split at hr
      · exact absurd hr (by simp)
      · exact Line.ofBytes_leaves (by rw [hr]; rfl)
    subst hrest
    rw [Line.items_of_line hr, Line.items_nil, loop_of_line hr,
      look_of_pending h.pending, takeItems_cons, takeItem_unread l unread, takeItem_unread l []]
    have hopen := finished_takeItem hf s
    generalize l.takeItem (.text s) = next at hopen
    rw [takeItems_over (l := { next.1 with unread }) hopen (.inr rfl), loop_of_over (.inr rfl)]
    rfl

theorem told_of_fail (hf : l.finished = false) :
    (read { l with unread := [] } true []).2 = l.finish.2 := by
  have hread : read { l with unread := [] } true [] = takeItems { l with unread := [] } [.ended] := by
    rw [read, if_neg (by simp [hf]), List.append_nil, Line.items_nil]
  rw [hread, takeItems_over (l := { l with unread := [] }) hf (.inr rfl), finish_eq]
  rfl

/-- Lines that are taken all at once, and lines that are taken one by one, come to the same. -/
theorem listen_eq_readAll (first : Bytes) (pieces : List Bytes) (ending : Ending) :
    (listen first pieces ending).2 = (readAll first pieces ending).2 := by
  obtain ⟨htold, hsame⟩ := follow_same (l := start) (first :: pieces)
  have hsettled := settled_follow_start first pieces
  simp only [listen, readAll]
  rw [htold]
  generalize start.follow (first :: pieces) = heard at hsame hsettled ⊢
  generalize start.reads (first :: pieces) = told at hsame ⊢
  congr 1
  rcases Bool.eq_false_or_eq_true heard.1.finished with hf | hf
  · have hk : told.1.finished = true := by
      rcases hsame with heq | ⟨-, hk⟩
      · rw [← heq, hf]
      · exact hk
    rw [meet_of_finished hf]
    cases ending with
    | waiting => rfl
    | closed => rw [read_of_finished hk]
    | failed => rw [read_of_finished (l := { told.1 with unread := [] }) hk]
  · have heq : heard.1 = told.1 := hsame.resolve_right (by simp [hf])
    rw [meet_of_open hf]
    cases ending with
    | waiting => rfl
    | closed => rw [← heq, hsettled.told_of_end hf]
    | failed => rw [← heq, told_of_fail hf]

end PeerChat.Listener
