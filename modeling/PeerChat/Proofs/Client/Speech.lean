import PeerChat.Proofs.Client.Inbox
import PeerChat.Proofs.Client.Incidents

/-!
# What the server says to a client that is signing up

Whatever bytes come, and however they end, the lines that are read from an inbox and those that are
still to be read make up what the server has said (`Inbox.Follows`).
-/

namespace PeerChat

/-! ## Reading on -/

namespace Inbox

/-- What is still to be read, should `later` come, and then the end or nothing yet. -/
def toRead (i : Inbox) (ended : Bool) (later : Bytes) : List Line.Item :=
  (Line.items Line.maxSize ended (i.buffer ++ i.arrived ++ later)).1

/-- Nothing comes behind the end. -/
def Allows (i : Inbox) (ended : Bool) (later : Bytes) : Prop := i.ended = true → ended = true ∧ later = []

/-- What is to be read behind an item; nothing, if it was the end. -/
def behind (i : Inbox) (item : Line.Item) (ended : Bool) (later : Bytes) : List Line.Item :=
  if item = .ended then [] else i.toRead ended later

variable {i j : Inbox} {item : Line.Item} {ended : Bool} {later : Bytes}

theorem toRead_receive (i : Inbox) (bytes : Bytes) (ended : Bool) (later : Bytes) :
    (i.receive bytes).toRead ended later = i.toRead ended (bytes ++ later) := by
  simp only [toRead, receive, List.append_assoc]

theorem toRead_of_read {s : Line.Outcome} (hr : Line.read Line.maxSize false i.buffer = s)
    (hs : s ≠ .incomplete) (ended : Bool) (later : Bytes) :
    Line.read Line.maxSize ended (i.buffer ++ i.arrived ++ later) =
      s.extend (i.arrived ++ later) := by
  rw [List.append_assoc, Line.read_append (by rwa [hr]), hr]

/-- It does not matter how much of what has arrived is in the buffer. -/
theorem toRead_take (i : Inbox) (n : Nat) (ended : Bool) (later : Bytes) :
    toRead { i with buffer := i.buffer ++ i.arrived.take n, arrived := i.arrived.drop n } ended later =
      i.toRead ended later := by
  simp only [toRead, List.append_assoc, List.take_append_drop]

/-- What the buffer gives stands, whatever comes behind it. -/
theorem toRead_of_takeLine (h : i.takeLine false = some (item, j)) (ended : Bool) (later : Bytes) :
    item ≠ .ended ∧ j.ended = i.ended ∧ i.toRead ended later = item :: j.toRead ended later := by
  unfold takeLine at h
  split at h
  · rename_i s rest hr
    obtain ⟨rfl, rfl⟩ := Prod.mk.inj (Option.some.inj h)
    refine ⟨by simp, rfl, ?_⟩
    rw [toRead, Line.items_of_line (toRead_of_read hr (by simp) ended later), toRead,
      List.append_assoc]
  · rename_i rest hr
    obtain ⟨rfl, rfl⟩ := Prod.mk.inj (Option.some.inj h)
    refine ⟨by simp, rfl, ?_⟩
    rw [toRead, Line.items_of_tooLong (toRead_of_read hr (by simp) ended later), toRead,
      List.append_assoc]
  · exact absurd h (by simp)
  · exact absurd h (by simp)

theorem takeLine_eq_none (h : i.takeLine false = none) :
    Line.read Line.maxSize false i.buffer = .incomplete := by
  unfold takeLine at h
  split at h
  · exact absurd h (by simp)
  · exact absurd h (by simp)
  · assumption
  · rename_i hr
    exact absurd hr (Line.read_false_ne_ended _)

/-- The next line is the first of those that are still to be read. -/
theorem toRead_of_nextLine (h : i.nextLine = (some item, j)) (ha : i.Allows ended later) :
    j.ended = i.ended ∧ i.toRead ended later = item :: j.behind item ended later := by
  fun_induction nextLine i with
  | case1 i first after ht =>
    obtain ⟨hitem, rfl⟩ := Prod.mk.inj h
    obtain rfl := Option.some.inj hitem
    obtain ⟨hne, he, hread⟩ := toRead_of_takeLine ht ended later
    exact ⟨he, by rw [hread, behind, if_neg hne]⟩
  | case2 i ht hpos ih =>
    obtain ⟨he, hread⟩ := ih h ha
    exact ⟨he, (toRead_take ..).symm.trans hread⟩
  | case3 i ht hpos he last after hlast =>
    obtain ⟨hitem, rfl⟩ := Prod.mk.inj h
    obtain rfl := Option.some.inj hitem
    obtain ⟨rfl, rfl⟩ := ha he
    have hnil : i.arrived = [] := List.eq_nil_of_length_eq_zero (by omega)
    have hdata : i.buffer ++ i.arrived ++ [] = i.buffer := by simp [hnil]
    unfold takeLine at hlast
    split at hlast
    · rename_i s rest hr
      obtain ⟨rfl, rfl⟩ := Prod.mk.inj (Option.some.inj hlast)
      refine ⟨rfl, ?_⟩
      rw [toRead, hdata, Line.items_of_line hr, behind, if_neg (by simp), toRead]
      simp [hnil]
    · rename_i rest hr
      obtain ⟨rfl, rfl⟩ := Prod.mk.inj (Option.some.inj hlast)
      refine ⟨rfl, ?_⟩
      rw [toRead, hdata, Line.items_of_tooLong hr, behind, if_neg (by simp), toRead]
      simp [hnil]
    · exact absurd hlast (by simp)
    · exact absurd hlast (by simp)
  | case4 i ht hpos he hlast =>
    obtain ⟨hitem, rfl⟩ := Prod.mk.inj h
    obtain rfl := Option.some.inj hitem
    obtain ⟨rfl, rfl⟩ := ha he
    have hnil : i.arrived = [] := List.eq_nil_of_length_eq_zero (by omega)
    refine ⟨rfl, ?_⟩
    have hended : Line.read Line.maxSize true i.buffer = .ended := by
      unfold takeLine at hlast
      split at hlast
      · exact absurd hlast (by simp)
      · exact absurd hlast (by simp)
      · rename_i hr
        exact absurd hr (Line.read_true_ne_incomplete _ _)
      · assumption
    rw [toRead, hnil, List.append_nil, List.append_nil, Line.items_of_ended hended, behind,
      if_pos rfl]
  | case5 => exact absurd (Prod.mk.inj h).1 (by simp)

theorem ended_of_nextLine (h : i.nextLine = (some item, j)) : j.ended = i.ended :=
  have hends : i.Allows true [] := fun _ => ⟨rfl, rfl⟩
  (toRead_of_nextLine h hends).1

/-- An inbox without a complete line keeps what it has, and waits for more. -/
theorem waits_of_nextLine (h : i.nextLine = (none, j)) :
    i.ended = false ∧ j.ended = false ∧ j.toRead false [] = [] ∧
      ∀ ended later, i.toRead ended later = j.toRead ended later := by
  fun_induction nextLine i with
  | case1 | case3 | case4 => exact absurd (Prod.mk.inj h).1 (by simp)
  | case2 i ht hpos ih =>
    obtain ⟨hi, hj, hnone, hread⟩ := ih h
    exact ⟨hi, hj, hnone, fun ended later => (toRead_take ..).symm.trans (hread ended later)⟩
  | case5 i ht hpos he =>
    obtain ⟨-, rfl⟩ := Prod.mk.inj h
    have hopen : i.ended = false := eq_false_of_ne_true he
    refine ⟨hopen, hopen, ?_, fun _ _ => rfl⟩
    have hnil : i.arrived = [] := List.eq_nil_of_length_eq_zero (by omega)
    rw [toRead, hnil, List.append_nil, List.append_nil,
      Line.items_of_incomplete (takeLine_eq_none ht)]

/-! ## Up to the reply -/

/-- Lines that say nothing to a client that awaits the reply to its registration. -/
def Skipped (items : List Line.Item) : Prop := ∀ s ∈ items, SignUp.ofLine s = none

theorem Skipped.cons {items : List Line.Item} (h : Skipped items) (hi : SignUp.ofLine item = none) :
    Skipped (item :: items) := by
  intro s hs
  rcases List.mem_cons.mp hs with rfl | hs
  · exact hi
  · exact h s hs

theorem ne_ended_of_ofLine (h : SignUp.ofLine item = none) : item ≠ .ended := by
  rintro rfl
  exact absurd h (by simp [SignUp.ofLine])

/-- The reply is what the first line means that is not passed over. -/
theorem reply_of_awaitReply {outcome : SignUp} (h : i.awaitReply = (some outcome, j)) :
    ∃ skipped item, Skipped skipped ∧ SignUp.ofLine item = some outcome ∧ j.ended = i.ended ∧
      ∀ ended later, i.Allows ended later →
        i.toRead ended later = skipped ++ item :: j.behind item ended later := by
  fun_induction awaitReply i with
  | case1 => exact absurd (Prod.mk.inj h).1 (by simp)
  | case2 i item after hn first ho =>
    obtain ⟨hitem, rfl⟩ := Prod.mk.inj h
    obtain rfl := Option.some.inj hitem
    refine ⟨[], item, by simp [Skipped], ho, ?_, fun ended later ha => ?_⟩
    · exact ended_of_nextLine hn
    · exact (toRead_of_nextLine hn ha).2
  | case3 i item after hn ho _ ih =>
    obtain ⟨skipped, reply, hskipped, hreply, he, hread⟩ := ih h
    have hkeeps : after.ended = i.ended := ended_of_nextLine hn
    refine ⟨item :: skipped, reply, hskipped.cons ho, hreply, he.trans hkeeps,
      fun ended later ha => ?_⟩
    have hafter : after.Allows ended later := fun hended => ha (hkeeps ▸ hended)
    rw [(toRead_of_nextLine hn ha).2, behind, if_neg (ne_ended_of_ofLine ho),
      hread ended later hafter]
    rfl

/-- Without a reply, all complete lines are passed over. -/
theorem skips_of_awaitReply (h : i.awaitReply = (none, j)) :
    i.ended = false ∧ j.ended = false ∧ j.toRead false [] = [] ∧
      ∃ skipped, Skipped skipped ∧
        ∀ ended later, i.toRead ended later = skipped ++ j.toRead ended later := by
  fun_induction awaitReply i with
  | case1 i after hn =>
    obtain ⟨-, rfl⟩ := Prod.mk.inj h
    obtain ⟨hi, hj, hnone, hread⟩ := waits_of_nextLine hn
    exact ⟨hi, hj, hnone, [], by simp [Skipped], hread⟩
  | case2 => exact absurd (Prod.mk.inj h).1 (by simp)
  | case3 i item after hn ho _ ih =>
    obtain ⟨hi, hj, hnone, skipped, hskipped, hread⟩ := ih h
    have hkeeps : after.ended = i.ended := ended_of_nextLine hn
    have hopen : i.ended = false := hkeeps ▸ hi
    refine ⟨hopen, hj, hnone, item :: skipped, hskipped.cons ho, fun ended later => ?_⟩
    have ha : i.Allows ended later := fun he => absurd (hopen.symm.trans he) (by simp)
    rw [(toRead_of_nextLine hn ha).2, behind, if_neg (ne_ended_of_ofLine ho), hread]
    rfl

end Inbox

/-! ## The end of a stream -/

namespace Line

variable {limit : Nat}

theorem firstLine_self {bound : Nat} {data line : Bytes} (h : firstLine bound data = some line) :
    firstLine bound line = some line := by
  induction data generalizing bound line with
  | nil => cases bound <;> exact absurd h (by simp [firstLine])
  | cons b data ih =>
    cases bound with
    | zero => exact absurd h (by simp [firstLine])
    | succ bound =>
      rw [firstLine] at h
      split at h
      · rename_i hb
        rw [← Option.some.inj h, hb]
        rfl
      · rename_i hb
        obtain ⟨later, hl, rfl⟩ := Option.map_eq_some_iff.mp h
        rw [firstLine, if_neg hb, ih hl]
        rfl

/-- What a read takes away gives the same, whatever comes behind it. -/
theorem exists_front {data : Bytes} (h : read limit false data ≠ .incomplete) :
    ∃ front rest, data = front ++ rest ∧
      ∀ ended later, read limit ended (front ++ later) = ofBytes limit front later := by
  cases hf : firstLine (limit + 2) data with
  | some line =>
    obtain ⟨rest, rfl⟩ := exists_of_firstLine hf
    refine ⟨line, rest, rfl, fun ended later => ?_⟩
    rw [read_of_firstLine (firstLine_append (firstLine_self hf) later), List.drop_left]
  | none =>
    by_cases hl : limit + 2 ≤ data.length
    · have hlen : (data.take (limit + 2)).length = limit + 2 := List.length_take_of_le hl
      have hnone : firstLine (limit + 2) (data.take (limit + 2)) = none := by
        by_contra hsome
        obtain ⟨line, hline⟩ := Option.ne_none_iff_exists'.mp hsome
        have hdata := firstLine_append hline (data.drop (limit + 2))
        rw [List.take_append_drop, hf] at hdata
        exact absurd hdata (by simp)
      refine ⟨data.take (limit + 2), data.drop (limit + 2), (List.take_append_drop ..).symm,
        fun ended later => ?_⟩
      have hfull : limit + 2 ≤ (data.take (limit + 2) ++ later).length := by
        rw [List.length_append]
        omega
      rw [read_of_full (firstLine_append_eq_none hnone hlen.ge later) hfull,
        List.take_append_of_le_length hlen.ge, List.drop_append_of_le_length hlen.ge,
        List.take_of_length_le hlen.le, List.drop_of_length_le hlen.le, List.nil_append]
    · exact absurd (read_of_short hf (by omega)) h

/-- Without what has come of an unfinished line, a stream ends behind its last line. -/
theorem exists_whole (limit : Nat) (data : Bytes) :
    ∃ whole, data = whole ++ (items limit false data).2 ∧
      (items limit true whole).1 = (items limit false data).1 ++ [.ended] := by
  induction hn : data.length using Nat.strongRecOn generalizing data with
  | ind n ih =>
    subst hn
    by_cases hr : read limit false data = .incomplete
    · rw [items_of_incomplete hr]
      exact ⟨[], rfl, by rw [items_nil]; rfl⟩
    · obtain ⟨front, rest, rfl, hfront⟩ := exists_front hr
      have hlt : rest.length < (front ++ rest).length := by
        have hleaves : (read limit false (front ++ rest)).Leaves rest := by
          rw [hfront]
          unfold ofBytes
          split <;> rfl
        exact length_lt_of_leaves hleaves
      obtain ⟨whole, hwhole, hitems⟩ := ih _ hlt rest rfl
      have hread := hfront false rest
      have hread' := hfront true whole
      refine ⟨front ++ whole, ?_, ?_⟩ <;> unfold ofBytes at hread hread' <;> split at hread
      · rw [items_of_line hread, List.append_assoc, ← hwhole]
      · rw [items_of_tooLong hread, List.append_assoc, ← hwhole]
      · rename_i hshort
        rw [if_pos hshort] at hread'
        rw [items_of_line hread, items_of_line hread', hitems]
        rfl
      · rename_i hlong
        rw [if_neg hlong] at hread'
        rw [items_of_tooLong hread, items_of_tooLong hread', hitems]
        rfl

end Line

/-- Of a connection that fails, the lines that have come whole are still read. -/
theorem Inbox.toRead_fail (i : Inbox) : i.fail.toRead true [] = i.toRead false [] ++ [.ended] := by
  obtain ⟨whole, hwhole, hitems⟩ := Line.exists_whole Line.maxSize (i.buffer ++ i.arrived)
  have hsize : i.size - (Line.items Line.maxSize false (i.buffer ++ i.arrived)).2.length =
      whole.length := by
    have hlength := congrArg List.length hwhole
    rw [List.length_append, List.length_append] at hlength
    rw [size, hlength, Nat.add_sub_cancel]
  have hkept : i.fail.buffer ++ i.fail.arrived = whole := by
    show i.buffer.take _ ++ i.arrived.take _ = _
    rw [hsize, ← List.take_append, hwhole, List.take_left]
  rw [toRead, List.append_nil, hkept, hitems, toRead, List.append_nil]

/-! ## All that is said -/

/-- What the server has said on a connection, and how it has ended. -/
structure Speech where
  bytes : Bytes := []
  closed : Bool := false
  failed : Bool := false

namespace Incident

/-- Whether something has come from the server, or the end. -/
def isSaid : Incident → Bool
  | act (.event (.serverSent _)) | act (.event .serverEnded) | serverFailed => true
  | _ => false

/-- Whether nothing can come from the server any more. -/
def endsSpeech : Incident → Bool
  | act (.event .serverEnded) | serverFailed => true
  | _ => false

end Incident

namespace Speech

def isOver (s : Speech) : Bool := s.closed || s.failed

def hear (s : Speech) : Incident → Speech
  | .act (.event (.serverSent bytes)) => { s with bytes := s.bytes ++ bytes }
  | .act (.event .serverEnded) => { s with closed := true }
  | .serverFailed => { s with failed := true }
  | _ => s

def hearAll (s : Speech) (world : List Incident) : Speech := world.foldl hear s

/-- All that can be read of it. -/
def items (s : Speech) : List Line.Item :=
  if s.failed then (Line.items Line.maxSize false s.bytes).1 ++ [.ended]
  else (Line.items Line.maxSize s.closed s.bytes).1

/-- Nothing comes from the server behind the end. -/
def Orderly (world : List Incident) : Prop :=
  world.Pairwise fun x y => x.endsSpeech = true → y.isSaid = false

/-- A speech is over if it was over before, or if it ends now. -/
theorem isOver_hear (s : Speech) (x : Incident) : (s.hear x).isOver = (s.isOver || x.endsSpeech) := by
  unfold hear
  split
  · simp [isOver, Incident.endsSpeech]
  · simp [isOver, Incident.endsSpeech]
  · simp [isOver, Incident.endsSpeech]
  · have hx : x.endsSpeech = false := by
      unfold Incident.endsSpeech
      split <;> simp_all
    rw [hx, Bool.or_false]

end Speech

namespace Inbox

/-- What has been read and what is still to be read are all that is said. -/
structure Follows (i : Inbox) (s : Speech) (heard : List Line.Item) : Prop where
  goesOn : i.ended = false → s.isOver = false ∧
    ∀ ended later, (Line.items Line.maxSize ended (s.bytes ++ later)).1 = heard ++ i.toRead ended later
  ended : i.ended = true → s.isOver = true ∧ s.items = heard ++ i.toRead true []

namespace Follows

variable {i j : Inbox} {s : Speech} {heard : List Line.Item}

theorem empty : Inbox.empty.Follows {} [] := ⟨fun _ => ⟨rfl, fun _ _ => rfl⟩, by simp [Inbox.empty]⟩

section Open

variable (h : i.Follows s heard)
include h

theorem ended_eq : i.ended = s.isOver := by
  cases he : i.ended with
  | false => exact (h.goesOn he).1.symm
  | true => exact (h.ended he).1.symm

theorem items_eq : s.items = heard ++ i.toRead i.ended [] := by
  cases he : i.ended with
  | false =>
    obtain ⟨hover, hitems⟩ := h.goesOn he
    obtain ⟨hclosed, hfailed⟩ := Bool.or_eq_false_iff.mp hover
    rw [← hitems, List.append_nil, Speech.items, if_neg (by simp [hfailed]), hclosed]
  | true => exact (h.ended he).2

variable (hs : s.isOver = false)
include hs

theorem receive (bytes : Bytes) :
    (i.receive bytes).Follows { s with bytes := s.bytes ++ bytes } heard := by
  have he : i.ended = false := h.ended_eq.trans hs
  refine ⟨fun _ => ⟨hs, fun ended later => ?_⟩, fun hended => ?_⟩
  · rw [toRead_receive, List.append_assoc]
    exact (h.goesOn he).2 ended (bytes ++ later)
  · exact absurd (he.symm.trans hended) (by simp)

theorem serverEnded : i.serverEnded.Follows { s with closed := true } heard := by
  have he : i.ended = false := h.ended_eq.trans hs
  obtain ⟨-, hfailed⟩ := Bool.or_eq_false_iff.mp hs
  refine ⟨fun hopen => absurd hopen (by simp [Inbox.serverEnded]), fun _ => ⟨rfl, ?_⟩⟩
  rw [Speech.items, if_neg (by simp [hfailed])]
  have hitems := (h.goesOn he).2 true []
  rwa [List.append_nil] at hitems

theorem fail : i.fail.Follows { s with failed := true } heard := by
  have he : i.ended = false := h.ended_eq.trans hs
  refine ⟨fun hopen => absurd hopen (by simp [Inbox.fail]), fun _ => ⟨by simp [Speech.isOver], ?_⟩⟩
  have hitems := (h.goesOn he).2 false []
  rw [List.append_nil] at hitems
  rw [toRead_fail, ← List.append_assoc, ← hitems, Speech.items, if_pos rfl]

end Open

theorem meet (h : i.Follows s heard) {x : Incident} (hx : s.isOver = true → x.isSaid = false) :
    (i.meet x).Follows (s.hear x) heard := by
  have hopen : x.isSaid = true → s.isOver = false := by
    intro hsaid
    by_contra hover
    exact absurd (hsaid.symm.trans (hx (eq_true_of_ne_false hover))) (by simp)
  unfold Inbox.meet
  split
  · exact h.receive (hopen rfl) _
  · exact h.serverEnded (hopen rfl)
  · exact h.fail (hopen rfl)
  · have hstill : s.hear x = s := by
      unfold Speech.hear
      split <;> simp_all
    rwa [hstill]

/-- The reply is heard, with all that is passed over before it. -/
theorem reply (h : i.Follows s heard) {outcome : SignUp} (hr : i.awaitReply = (some outcome, j)) :
    ∃ skipped item, Skipped skipped ∧ SignUp.ofLine item = some outcome ∧
      heard ++ (skipped ++ [item]) <+: s.items ∧
      (item ≠ .ended → j.Follows s (heard ++ (skipped ++ [item]))) := by
  obtain ⟨skipped, item, hskipped, hitem, he, hread⟩ := reply_of_awaitReply hr
  refine ⟨skipped, item, hskipped, hitem, ⟨j.behind item i.ended [], ?_⟩,
    fun hne => ⟨fun hopen => ?_, fun hended => ?_⟩⟩
  · have hallows : i.Allows i.ended [] := fun hended => ⟨hended, rfl⟩
    rw [h.items_eq, hread i.ended [] hallows]
    simp
  · have hi : i.ended = false := he ▸ hopen
    refine ⟨(h.goesOn hi).1, fun ended later => ?_⟩
    have hallows : i.Allows ended later := fun hended => absurd (hi.symm.trans hended) (by simp)
    rw [(h.goesOn hi).2, hread ended later hallows, behind, if_neg hne]
    simp
  · have hi : i.ended = true := he ▸ hended
    refine ⟨(h.ended hi).1, ?_⟩
    rw [(h.ended hi).2, hread true [] fun _ => ⟨rfl, rfl⟩, behind, if_neg hne]
    simp

/-- Without a reply, all complete lines are passed over. -/
theorem skips (h : i.Follows s heard) (hr : i.awaitReply = (none, j)) :
    ∃ skipped, Skipped skipped ∧ j.Follows s (heard ++ skipped) ∧ s.items = heard ++ skipped := by
  obtain ⟨hi, hj, hnone, skipped, hskipped, hread⟩ := skips_of_awaitReply hr
  refine ⟨skipped, hskipped, ⟨fun _ => ⟨(h.goesOn hi).1, fun ended later => ?_⟩, fun hended => ?_⟩, ?_⟩
  · rw [(h.goesOn hi).2, hread, List.append_assoc]
  · exact absurd (hj.symm.trans hended) (by simp)
  · rw [h.items_eq, hi, hread, hnone, List.append_nil]

end Follows

end Inbox

end PeerChat
