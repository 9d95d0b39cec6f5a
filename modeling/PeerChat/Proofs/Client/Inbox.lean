import PeerChat.Client.Link
import PeerChat.Proofs.Wire.Announcement

/-!
# Waiting for the reply to a registration

Notices are passed over, and the first announcement of another kind is the reply
(`Inbox.Sees.awaitReply`).
-/

namespace PeerChat

namespace SignUp

/-- What an announcement means while the reply is awaited. -/
def ofAnnouncement : Announcement → Option SignUp
  | .listHeader => some .registered
  | .nameTaken => some .nameTaken
  | .invalidCommand => some (.rejected .invalidCommand)
  | .serverFull => some (.rejected .serverFull)
  | .newcomer _ => none
  | other => some (.failed (.wire (.unexpectedReply other.details)))

theorem ofLine_line {a : Announcement} (h : a.Valid) : ofLine (.text a.line) = ofAnnouncement a := by
  rw [ofLine, Announcement.parse_line h]
  cases a with
  | listHeader => rfl
  | peer p => rfl
  | nameTaken => rfl
  | invalidCommand => rfl
  | serverFull => rfl
  | newcomer name => rfl
  | other text => rfl

end SignUp

namespace Inbox

/-- What is still to arrive of what is coming: nothing, once the stream has ended. -/
def due (i : Inbox) (coming : Bytes) : Bytes := if i.ended then [] else coming

theorem due_of_open {i : Inbox} (h : i.ended = false) (coming : Bytes) : i.due coming = coming :=
  if_neg (by simp [h])

theorem due_of_ended {i : Inbox} (h : i.ended = true) (coming : Bytes) : i.due coming = [] := if_pos h

/-- The lines have not been read; `coming` is to arrive of them, unless the stream has ended. -/
def Awaits (i : Inbox) (lines : List String) (coming : Bytes) : Prop :=
  i.buffer ++ i.arrived ++ i.due coming = Line.writeAll lines

variable {i j : Inbox} {lines : List String} {coming : Bytes}

theorem takeLine_spec (hl : ∀ s ∈ lines, Line.Fits Line.maxSize s) (h : i.Awaits lines coming) :
    i.takeLine false = none ∨ ∃ s later j, lines = s :: later ∧
      i.takeLine false = some (.text s, j) ∧ j.ended = i.ended ∧ j.Awaits later coming := by
  cases lines with
  | nil =>
    have hnil : i.buffer = [] :=
      (List.append_eq_nil_iff.mp (List.append_eq_nil_iff.mp h).1).1
    left
    rw [takeLine, hnil]
    rfl
  | cons s later =>
    have hs := hl s (List.mem_cons_self ..)
    rw [Awaits, Line.writeAll, List.flatMap_cons, List.append_assoc] at h
    rcases Bytes.cases_of_append_eq h with ⟨missing, hnil, hm, -⟩ | ⟨later', hb, hr⟩
    · left
      rw [takeLine, Line.read_incomplete hs hnil hm.symm]
    · right
      refine ⟨s, later, { i with buffer := later' }, rfl, ?_, rfl, ?_⟩
      · rw [takeLine, hb, Line.read_encode hs]
      · rw [Awaits, List.append_assoc]
        exact hr

/-- A buffer without a line, at the end of a stream of whole lines, is empty. -/
theorem eq_nil_of_takeLine (hl : ∀ s ∈ lines, Line.Fits Line.maxSize s) (h : i.Awaits lines coming)
    (ha : i.arrived = []) (he : i.ended = true) (ht : i.takeLine false = none) :
    lines = [] ∧ i.buffer = [] := by
  rw [Awaits, ha, due_of_ended he, List.append_nil, List.append_nil] at h
  cases lines with
  | nil => exact ⟨rfl, h⟩
  | cons s later =>
    rw [takeLine, h, Line.writeAll, List.flatMap_cons, Line.read_encode (hl s (List.mem_cons_self ..))] at ht
    exact absurd ht (by simp)

/-- The next line is read as soon as it has arrived; else all that has arrived is kept. -/
theorem nextLine_spec (hl : ∀ s ∈ lines, Line.Fits Line.maxSize s) (h : i.Awaits lines coming) :
    (∃ s later j, lines = s :: later ∧ i.nextLine = (some (.text s), j) ∧ j.ended = i.ended ∧
        j.Awaits later coming) ∨
      (∃ j, i.nextLine = (none, j) ∧ j.ended = i.ended ∧ j.Awaits lines coming) ∨
        lines = [] ∧ i.ended = true ∧ ∃ j, i.nextLine = (some .ended, j) := by
  fun_induction nextLine i with
  | case1 i item later ht =>
    rcases takeLine_spec hl h with hnone | ⟨s, lines', j, rfl, hs, he, hj⟩
    · rw [hnone] at ht
      exact absurd ht (by simp)
    · rw [hs] at ht
      obtain ⟨rfl, rfl⟩ := Prod.mk.inj (Option.some.inj ht)
      exact .inl ⟨s, lines', j, rfl, rfl, he, hj⟩
  | case2 i ht hpos ih =>
    refine ih ?_
    rw [Awaits, List.append_assoc i.buffer, List.take_append_drop]
    exact h
  | case3 i ht hpos he item later hlast =>
    obtain ⟨-, hb⟩ := eq_nil_of_takeLine hl h (List.eq_nil_of_length_eq_zero (by omega)) he ht
    rw [takeLine, hb] at hlast
    exact absurd hlast (by simp [Line.read, Line.firstLine])
  | case4 i ht hpos he hlast =>
    obtain ⟨hnil, -⟩ := eq_nil_of_takeLine hl h (List.eq_nil_of_length_eq_zero (by omega)) he ht
    exact .inr (.inr ⟨hnil, he, _, rfl⟩)
  | case5 i ht hpos he => exact .inr (.inl ⟨i, rfl, rfl, h⟩)

theorem awaitReply_of_none (h : i.nextLine = (none, j)) : i.awaitReply = (none, j) := by
  rw [awaitReply]
  split
  · rename_i later hn
    rw [h] at hn
    rw [(Prod.mk.inj hn).2]
  · rename_i item later hn
    rw [h] at hn
    exact absurd (Prod.mk.inj hn).1 (by simp)

theorem awaitReply_of_some {item : Line.Item} (h : i.nextLine = (some item, j)) :
    i.awaitReply =
      match SignUp.ofLine item with
      | some outcome => (some outcome, j)
      | none => j.awaitReply := by
  rw [awaitReply]
  split
  · rename_i later hn
    rw [h] at hn
    exact absurd (Prod.mk.inj hn).1 (by simp)
  · rename_i item' later hn
    rw [h] at hn
    obtain ⟨hitem, rfl⟩ := Prod.mk.inj hn
    obtain rfl := Option.some.inj hitem
    split
    · rename_i outcome ho
      simp only [ho]
    · rename_i ho
      simp only [ho]

end Inbox

/-! ## Notices and the reply -/

/-- The notices that come before anything else. -/
def notices (names : List String) : List Announcement := names.map .newcomer

def ValidAll (as : List Announcement) : Prop := ∀ a ∈ as, a.Valid

theorem notices_append (names later : List String) :
    notices (names ++ later) = notices names ++ notices later := List.map_append

theorem ValidAll.append {as bs : List Announcement} (ha : ValidAll as) (hb : ValidAll bs) :
    ValidAll (as ++ bs) := by
  intro a hm
  rcases List.mem_append.mp hm with hm | hm
  · exact ha a hm
  · exact hb a hm

theorem validAll_nil : ValidAll [] := fun _ hm => absurd hm List.not_mem_nil

/-- The inbox comes to the announcements, as far as they can arrive. -/
def Inbox.Sees (i : Inbox) (as : List Announcement) (coming : Bytes) : Prop :=
  ValidAll as ∧ i.Awaits (as.map Announcement.line) coming

namespace Inbox.Sees

variable {i : Inbox} {as : List Announcement} {coming : Bytes}

theorem receive {bytes rest : Bytes} (h : i.Sees as (bytes ++ rest)) (he : i.ended = false) :
    (i.receive bytes).Sees as rest := by
  refine ⟨h.1, ?_⟩
  have hu := h.2
  rw [Awaits, due_of_open he] at hu
  rw [Awaits, due_of_open (i := i.receive bytes) he, ← hu, Inbox.receive]
  simp only [List.append_assoc]

/-- Another message is on its way. -/
theorem extend (h : i.Sees as coming) (he : i.ended = false) {m : ServerMessage} (hm : m.Valid) :
    i.Sees (as ++ m.announcements) (coming ++ Utf8.encode m.text) := by
  refine ⟨h.1.append hm, ?_⟩
  have hu := h.2
  rw [Awaits, due_of_open he] at hu
  rw [Awaits, due_of_open he, List.map_append, Line.writeAll_append, ← hu, ServerMessage.encode_text hm]
  simp only [List.append_assoc]

theorem empty : Inbox.empty.Sees [] [] := ⟨validAll_nil, rfl⟩

theorem fits (h : i.Sees as coming) :
    ∀ s ∈ as.map Announcement.line, Line.Fits Line.maxSize s := by
  intro s hs
  obtain ⟨a, ha, rfl⟩ := List.mem_map.mp hs
  exact a.fits_line (h.1 a ha)

/-- Notices are passed over, up to the first announcement that is none, or to the end. -/
theorem awaitReply {names : List String}
    (hhead : ∀ a, as.head? = some a → SignUp.ofAnnouncement a ≠ none)
    (h : i.Sees (notices names ++ as) coming) :
    (∃ a later outcome j, as = a :: later ∧ SignUp.ofAnnouncement a = some outcome ∧
        i.awaitReply = (some outcome, j) ∧ j.ended = i.ended ∧ j.Sees later coming) ∨
      (∃ left j, i.awaitReply = (none, j) ∧ j.ended = i.ended ∧ j.Sees (notices left ++ as) coming) ∨
        as = [] ∧ i.ended = true ∧ ∃ j, i.awaitReply = (some (.failed .peerClosed), j) := by
  induction names generalizing i with
  | nil =>
    rcases nextLine_spec h.fits h.2 with ⟨s, lines, j, hs, hn, he, hj⟩ | ⟨j, hn, he, hj⟩ |
      ⟨hnil, he, j, hn⟩
    · cases as with
      | nil => exact absurd hs (by simp [notices])
      | cons a later =>
        obtain ⟨rfl, rfl⟩ := List.cons.inj hs
        have hreply := awaitReply_of_some hn
        rw [SignUp.ofLine_line (h.1 a (List.mem_cons_self ..))] at hreply
        obtain ⟨outcome, ho⟩ := Option.ne_none_iff_exists'.mp (hhead a rfl)
        rw [ho] at hreply
        exact .inl ⟨a, later, outcome, j, rfl, ho, hreply, he,
          fun b hb => h.1 b (List.mem_cons_of_mem a hb), hj⟩
    · exact .inr (.inl ⟨[], j, awaitReply_of_none hn, he, h.1, hj⟩)
    · exact .inr (.inr ⟨List.map_eq_nil_iff.mp hnil, he, j, awaitReply_of_some hn⟩)
  | cons name names ih =>
    rcases nextLine_spec h.fits h.2 with ⟨s, lines, j, hs, hn, he, hj⟩ | ⟨j, hn, he, hj⟩ |
      ⟨hnil, -, -⟩
    · obtain ⟨rfl, rfl⟩ := List.cons.inj hs
      have hreply := awaitReply_of_some hn
      rw [SignUp.ofLine_line (h.1 _ (List.mem_cons_self ..))] at hreply
      rw [hreply, ← he]
      exact ih ⟨fun b hb => h.1 b (List.mem_cons_of_mem _ hb), hj⟩
    · exact .inr (.inl ⟨name :: names, j, awaitReply_of_none hn, he, h.1, hj⟩)
    · exact absurd hnil (by simp [notices])

end Inbox.Sees

/-- The inbox comes to the announcements once the bytes have arrived. -/
structure Inbox.Reads (i : Inbox) (as : List Announcement) (coming : Bytes) : Prop where
  ended : i.ended = false
  sees : i.Sees as coming

namespace Inbox.Reads

variable {i : Inbox} {as : List Announcement} {coming : Bytes}

theorem unread (h : i.Reads as coming) :
    i.buffer ++ i.arrived ++ coming = Line.writeAll (as.map Announcement.line) := by
  have hu := h.sees.2
  rwa [Awaits, due_of_open h.ended] at hu

theorem receive {bytes rest : Bytes} (h : i.Reads as (bytes ++ rest)) :
    (i.receive bytes).Reads as rest := ⟨h.ended, h.sees.receive h.ended⟩

theorem extend (h : i.Reads as coming) {m : ServerMessage} (hm : m.Valid) :
    i.Reads (as ++ m.announcements) (coming ++ Utf8.encode m.text) := ⟨h.ended, h.sees.extend h.ended hm⟩

theorem empty : Inbox.empty.Reads [] [] := ⟨rfl, .empty⟩

theorem awaitReply {names : List String}
    (hhead : ∀ a, as.head? = some a → SignUp.ofAnnouncement a ≠ none)
    (h : i.Reads (notices names ++ as) coming) :
    (∃ a later outcome j, as = a :: later ∧ SignUp.ofAnnouncement a = some outcome ∧
      i.awaitReply = (some outcome, j) ∧ j.Reads later coming) ∨
      ∃ left j, i.awaitReply = (none, j) ∧ j.Reads (notices left ++ as) coming := by
  rcases h.sees.awaitReply hhead with ⟨a, later, outcome, j, ha, ho, hr, he, hj⟩ |
    ⟨left, j, hr, he, hj⟩ | ⟨-, he, -⟩
  · exact .inl ⟨a, later, outcome, j, ha, ho, hr, he.trans h.ended, hj⟩
  · exact .inr ⟨left, j, hr, he.trans h.ended, hj⟩
  · exact absurd (h.ended.symm.trans he) (by simp)

end Inbox.Reads

end PeerChat
