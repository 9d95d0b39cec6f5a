import Mathlib.Data.List.Basic
import Mathlib.Data.List.TakeWhile
import PeerChat.Proofs.Bytes
import PeerChat.Proofs.Text.Utf8
import PeerChat.Stream.Line

/-!
# Lines that are written and read back

A reader of lines does not depend on how a stream is cut into pieces: what it reads from the first
piece stands, and it goes on with the bytes that it left (`items_append`).  A text that `Fits` on a
line is read back as it was written (`read_encode`), and nothing is read before its end has arrived
(`read_incomplete`).  Of a stream that has ended, whatever its bytes, a read takes the first line, or
so much of it that the rest can only be too long (`reading_exact`).
-/

namespace PeerChat.Line

variable {limit bound : Nat} {ended : Bool}

/-! ## The first line -/

theorem exists_of_firstLine {bs line : Bytes} (h : firstLine bound bs = some line) :
    ∃ rest, bs = line ++ rest := by
  induction bs generalizing bound line with
  | nil => cases bound <;> exact absurd h (by simp [firstLine])
  | cons b bs ih =>
    cases bound with
    | zero => exact absurd h (by simp [firstLine])
    | succ bound =>
      rw [firstLine] at h
      split at h
      · rename_i hb
        exact ⟨bs, by rw [← Option.some.inj h, hb]; rfl⟩
      · obtain ⟨later, hl, rfl⟩ := Option.map_eq_some_iff.mp h
        obtain ⟨rest, rfl⟩ := ih hl
        exact ⟨rest, rfl⟩

theorem firstLine_append {a line : Bytes} (h : firstLine bound a = some line) (b : Bytes) :
    firstLine bound (a ++ b) = some line := by
  induction a generalizing bound line with
  | nil => cases bound <;> exact absurd h (by simp [firstLine])
  | cons x a ih =>
    cases bound with
    | zero => exact absurd h (by simp [firstLine])
    | succ bound =>
      rw [List.cons_append, firstLine]
      rw [firstLine] at h
      split at h
      · rename_i hx
        rw [if_pos hx, h]
      · rename_i hx
        obtain ⟨later, hl, rfl⟩ := Option.map_eq_some_iff.mp h
        rw [if_neg hx, ih hl]
        rfl

/-- What fills the bound without an end has none there, whatever follows. -/
theorem firstLine_append_eq_none {a : Bytes} (h : firstLine bound a = none)
    (hl : bound ≤ a.length) (b : Bytes) : firstLine bound (a ++ b) = none := by
  induction a generalizing bound with
  | nil =>
    obtain rfl : bound = 0 := by simpa using hl
    simp [firstLine]
  | cons x a ih =>
    cases bound with
    | zero => simp [firstLine]
    | succ bound =>
      rw [List.cons_append, firstLine]
      rw [firstLine] at h
      split at h
      · exact absurd h (by simp)
      · rename_i hx
        rw [if_neg hx, ih (Option.map_eq_none_iff.mp h) (by simpa using hl)]
        rfl

theorem firstLine_eq_none {data : Bytes} (h : lineFeed ∉ data) : firstLine bound data = none := by
  induction data generalizing bound with
  | nil => cases bound <;> rfl
  | cons x data ih =>
    cases bound with
    | zero => rfl
    | succ bound =>
      obtain ⟨hx, hd⟩ := not_or.mp (List.mem_cons.not.mp h)
      rw [firstLine, if_neg (Ne.symm hx), ih hd]
      rfl

theorem firstLine_body {body : Bytes} (h : lineFeed ∉ body) (hl : body.length < bound)
    (rest : Bytes) : firstLine bound (body ++ lineFeed :: rest) = some (body ++ [lineFeed]) := by
  induction body generalizing bound with
  | nil =>
    cases bound with
    | zero => exact absurd hl (Nat.not_lt_zero _)
    | succ bound => simp [firstLine]
  | cons x body ih =>
    obtain ⟨hx, hd⟩ := not_or.mp (List.mem_cons.not.mp h)
    cases bound with
    | zero => exact absurd hl (Nat.not_lt_zero _)
    | succ bound =>
      rw [List.cons_append, firstLine, if_neg (Ne.symm hx), ih hd (by simpa using hl)]
      rfl

/-! ## Reading piece by piece -/

/-- What has been read stands, and more bytes come behind what is left. -/
def Outcome.extend (later : Bytes) : Outcome → Outcome
  | .incomplete => .incomplete
  | .ended => .ended
  | .line s rest => .line s (rest ++ later)
  | .tooLong rest => .tooLong (rest ++ later)

theorem ofBytes_extend (line rest later : Bytes) :
    (ofBytes limit line rest).extend later = ofBytes limit line (rest ++ later) := by
  unfold ofBytes
  split <;> rfl

theorem read_of_firstLine {data line : Bytes} (h : firstLine (limit + 2) data = some line) :
    read limit ended data = ofBytes limit line (data.drop line.length) := by
  rw [read, h]

/-- A line that fills the window is over-long, or ends with the stream. -/
theorem read_of_full {data : Bytes} (h : firstLine (limit + 2) data = none)
    (hl : limit + 2 ≤ data.length) :
    read limit ended data = ofBytes limit (data.take (limit + 2)) (data.drop (limit + 2)) := by
  have hw : (data.take (limit + 2)).length = limit + 2 := by
    rw [List.length_take]
    omega
  simp only [read, h, hw, if_true]

theorem read_of_short {data : Bytes} (h : firstLine (limit + 2) data = none)
    (hl : data.length < limit + 2) : read limit false data = .incomplete := by
  have hw : (data.take (limit + 2)).length ≠ limit + 2 := by
    rw [List.length_take]
    omega
  simp only [read, h, if_neg hw]
  rfl

theorem read_append {a : Bytes} (h : read limit false a ≠ .incomplete) (b : Bytes) :
    read limit ended (a ++ b) = (read limit false a).extend b := by
  cases hf : firstLine (limit + 2) a with
  | some line =>
    obtain ⟨rest, hr⟩ := exists_of_firstLine hf
    rw [read_of_firstLine (firstLine_append hf b), read_of_firstLine hf, ofBytes_extend, hr,
      List.append_assoc, List.drop_left, List.drop_left]
  | none =>
    by_cases hl : limit + 2 ≤ a.length
    · rw [read_of_full (firstLine_append_eq_none hf hl b) (by rw [List.length_append]; omega),
        read_of_full hf hl, ofBytes_extend, List.take_append_of_le_length hl,
        List.drop_append_of_le_length hl]
    · exact absurd (read_of_short hf (by omega)) h

theorem ofBytes_ne_ended (line rest : Bytes) : ofBytes limit line rest ≠ .ended := by
  unfold ofBytes
  split <;> simp

theorem read_false_ne_ended (data : Bytes) : read limit false data ≠ .ended := by
  cases hf : firstLine (limit + 2) data with
  | some line =>
    rw [read_of_firstLine hf]
    exact ofBytes_ne_ended line _
  | none =>
    by_cases hl : limit + 2 ≤ data.length
    · rw [read_of_full hf hl]
      exact ofBytes_ne_ended _ _
    · rw [read_of_short hf (by omega)]
      simp

theorem items_of_incomplete {data : Bytes} (h : read limit ended data = .incomplete) :
    items limit ended data = ([], data) := by
  rw [items]
  split <;> simp_all

theorem items_of_line {data rest : Bytes} {s : String} (h : read limit ended data = .line s rest) :
    items limit ended data =
      (.text s :: (items limit ended rest).1, (items limit ended rest).2) := by
  rw [items]
  split <;> simp_all

theorem items_of_tooLong {data rest : Bytes} (h : read limit ended data = .tooLong rest) :
    items limit ended data = (.tooLong :: (items limit ended rest).1, (items limit ended rest).2) := by
  rw [items]
  split <;> simp_all

theorem items_of_ended {data : Bytes} (h : read limit ended data = .ended) :
    items limit ended data = ([.ended], []) := by
  rw [items]
  split <;> simp_all

theorem items_nil (limit : Nat) : items limit true [] = ([.ended], []) := items_of_ended rfl

theorem items_append (a b : Bytes) :
    items limit ended (a ++ b) =
      ((items limit false a).1 ++ (items limit ended ((items limit false a).2 ++ b)).1,
        (items limit ended ((items limit false a).2 ++ b)).2) := by
  induction hn : a.length using Nat.strongRecOn generalizing a with
  | ind n ih =>
    subst hn
    cases hr : read limit false a with
    | incomplete =>
      rw [items_of_incomplete hr]
      rfl
    | ended => exact absurd hr (read_false_ne_ended a)
    | line s rest =>
      have hlt : rest.length < a.length := length_lt_of_leaves (by rw [hr]; rfl)
      have hb : read limit ended (a ++ b) = .line s (rest ++ b) := by
        rw [read_append (by simp [hr]) b, hr]
        rfl
      rw [items_of_line hb, items_of_line hr, ih _ hlt rest rfl]
      rfl
    | tooLong rest =>
      have hlt : rest.length < a.length := length_lt_of_leaves (by rw [hr]; rfl)
      have hb : read limit ended (a ++ b) = .tooLong (rest ++ b) := by
        rw [read_append (by simp [hr]) b, hr]
        rfl
      rw [items_of_tooLong hb, items_of_tooLong hr, ih _ hlt rest rfl]
      rfl

/-! ## Lines as they are written -/

/-- A text that makes one line: it holds no end of a line, and is no longer than the limit. -/
structure Fits (limit : Nat) (s : String) : Prop where
  no_lineFeed : '\n' ∉ s.toList
  no_return : s.toList.getLast? ≠ some '\r'
  size_le : s.utf8ByteSize ≤ limit

theorem lineFeed_not_mem {s : String} (h : '\n' ∉ s.toList) : lineFeed ∉ Utf8.encode s := by
  intro hm
  obtain ⟨c, hc, he⟩ := (Utf8.mem_encode (by decide)).mp hm
  have : c = '\n' := Char.toNat_inj.mp he
  exact h (this ▸ hc)

theorem content_concat {body : Bytes} (h : body.getLast? ≠ some carriageReturn) :
    content (body ++ [lineFeed]) = body := by
  simp [content, h]

theorem getLast?_encode_ne {s : String} (h : s.toList.getLast? ≠ some '\r') :
    (Utf8.encode s).getLast? ≠ some carriageReturn := by
  intro hr
  rcases List.eq_nil_or_concat s.toList with hs | ⟨before, c, hs⟩
  · rw [Utf8.encode, hs] at hr
    exact absurd hr (by simp)
  · rw [List.concat_eq_append] at hs
    rw [Utf8.encode, hs, List.flatMap_append, List.flatMap_singleton,
      List.getLast?_append_of_ne_nil _ String.utf8EncodeChar_ne_nil] at hr
    have hm := (Utf8.mem_utf8EncodeChar (by decide)).mp (List.mem_of_getLast? hr)
    have hc : c = '\r' := Char.toNat_inj.mp hm
    exact h (by rw [hs, hc]; simp)

theorem read_encode {s : String} (h : Fits limit s) (rest : Bytes) :
    read limit ended (Utf8.encode (s ++ "\n") ++ rest) = .line s rest := by
  have hlen : (Utf8.encode s).length ≤ limit := by
    rw [Utf8.length_encode]
    exact h.size_le
  have hbytes : Utf8.encode (s ++ "\n") ++ rest = Utf8.encode s ++ lineFeed :: rest := by
    rw [Utf8.encode_append, List.append_assoc]
    rfl
  have hcontent := content_concat (getLast?_encode_ne h.no_return)
  rw [hbytes, read_of_firstLine (firstLine_body (lineFeed_not_mem h.no_lineFeed) (by omega) rest),
    ofBytes, hcontent, if_pos hlen, Utf8.decode_encode]
  rw [List.append_cons (Utf8.encode s) lineFeed rest, List.drop_left]

/-- A line is not read before its end has arrived. -/
theorem read_incomplete {s : String} (h : Fits limit s) {data rest : Bytes} (hr : rest ≠ [])
    (hd : data ++ rest = Utf8.encode (s ++ "\n")) : read limit false data = .incomplete := by
  obtain ⟨before, last, rfl⟩ := List.eq_nil_or_concat rest |>.resolve_left hr
  rw [Utf8.encode_append, List.concat_eq_append, ← List.append_assoc] at hd
  obtain ⟨hb, -⟩ := List.append_inj' hd rfl
  have hlen : (data ++ before).length ≤ limit := by
    rw [hb, Utf8.length_encode]
    exact h.size_le
  refine read_of_short (firstLine_eq_none fun hm => ?_) ?_
  · exact lineFeed_not_mem h.no_lineFeed (hb ▸ List.mem_append_left before hm)
  · rw [List.length_append] at hlen
    omega

theorem items_encode {s : String} (h : Fits limit s) (rest : Bytes) :
    items limit ended (Utf8.encode (s ++ "\n") ++ rest) =
      (.text s :: (items limit ended rest).1, (items limit ended rest).2) :=
  items_of_line (read_encode h rest)

def writeAll (lines : List String) : Bytes := lines.flatMap fun s => Utf8.encode (s ++ "\n")

theorem writeAll_append (lines later : List String) :
    writeAll (lines ++ later) = writeAll lines ++ writeAll later := List.flatMap_append

/-- Wherever a stream of lines is cut, its beginning reads as the first of them, and what is left
goes on with the others. -/
theorem items_of_beginning {lines : List String} (hl : ∀ s ∈ lines, Fits limit s)
    {data rest : Bytes} (hd : data ++ rest = writeAll lines) :
    ∃ done left, lines = done ++ left ∧ (items limit false data).1 = done.map .text ∧
      (items limit false data).2 ++ rest = writeAll left ∧
      read limit false (items limit false data).2 = .incomplete := by
  induction lines generalizing data with
  | nil =>
    obtain ⟨rfl, rfl⟩ := List.append_eq_nil_iff.mp hd
    have hnil : items limit false [] = ([], []) := items_of_incomplete rfl
    exact ⟨[], [], rfl, by rw [hnil]; rfl, by rw [hnil]; rfl, by rw [hnil]; rfl⟩
  | cons s lines ih =>
    have hs := hl s (List.mem_cons_self ..)
    rw [writeAll, List.flatMap_cons] at hd
    rcases Bytes.cases_of_append_eq hd with ⟨missing, hnil, hm, hr⟩ | ⟨later, rfl, hr⟩
    · have hread := read_incomplete hs hnil hm.symm
      refine ⟨[], s :: lines, rfl, ?_, ?_, ?_⟩
      · rw [items_of_incomplete hread]
        rfl
      · rw [items_of_incomplete hread]
        exact hd
      · rw [items_of_incomplete hread]
        exact hread
    · obtain ⟨done, left, he, hi, hu, hn⟩ := ih (fun t ht => hl t (List.mem_cons_of_mem s ht)) hr
      refine ⟨s :: done, left, by rw [he]; rfl, ?_, ?_, ?_⟩
      · rw [items_encode hs, hi]
        rfl
      · rw [items_encode hs]
        exact hu
      · rw [items_encode hs]
        exact hn

/-- A stream of lines that has ended. -/
theorem items_writeAll {lines : List String} (hl : ∀ s ∈ lines, Fits limit s) :
    items limit true (writeAll lines) = (lines.map .text ++ [.ended], []) := by
  induction lines with
  | nil => exact items_nil limit
  | cons s lines ih =>
    have hrest := ih fun t ht => hl t (List.mem_cons_of_mem s ht)
    rw [writeAll, List.flatMap_cons, items_encode (hl s (List.mem_cons_self ..)), ← writeAll, hrest]
    rfl

theorem write_line (s : String) : write (s ++ "\n") = Utf8.encode (s ++ "\n") := by
  rw [write, Text.terminated, if_pos]
  simp [String.toList_append]

theorem write_eq {s : String} (h : Fits limit s) : write s = Utf8.encode (s ++ "\n") := by
  have hlast : s.toList.getLast? ≠ some '\n' := fun hl => h.no_lineFeed (List.mem_of_getLast? hl)
  rw [write, Text.terminated, if_neg hlast]

/-! ## Any stream -/

/-- The first line of a stream with its end: all up to the first line feed, or all there is. -/
def front (data : Bytes) : Bytes :=
  data.takeWhile (· ≠ lineFeed) ++ (data.dropWhile (· ≠ lineFeed)).take 1

/-- What a line says: it ends with a line feed, or with a carriage return and a line feed, or else the
stream has ended behind it. -/
inductive Says : (line body : Bytes) → Prop
  | ended {body : Bytes} (other : body.getLast? ≠ some carriageReturn) :
      Says (body ++ [lineFeed]) body
  | returned (body : Bytes) : Says (body ++ [carriageReturn, lineFeed]) body
  | unended {body : Bytes} (other : body.getLast? ≠ some lineFeed) : Says body body

theorem content_returned (body : Bytes) : content (body ++ [carriageReturn, lineFeed]) = body := by
  have hsplit : body ++ [carriageReturn, lineFeed] = body ++ [carriageReturn] ++ [lineFeed] := by simp
  rw [hsplit]
  simp [content]

theorem content_unended {line : Bytes} (h : line.getLast? ≠ some lineFeed) : content line = line :=
  if_neg h

theorem says_iff {line body : Bytes} : Says line body ↔ body = content line := by
  constructor
  · intro h
    cases h with
    | ended other => rw [content_concat other]
    | returned body => rw [content_returned]
    | unended other => rw [content_unended other]
  · rintro rfl
    by_cases hend : line.getLast? = some lineFeed
    · obtain ⟨body, rfl⟩ := List.getLast?_eq_some_iff.mp hend
      by_cases hreturn : body.getLast? = some carriageReturn
      · obtain ⟨before, rfl⟩ := List.getLast?_eq_some_iff.mp hreturn
        rw [List.append_assoc, List.singleton_append, content_returned]
        exact .returned before
      · rw [content_concat hreturn]
        exact .ended hreturn
    · rw [content_unended hend]
      exact .unended hend

theorem le_length_content_concat (body : Bytes) :
    body.length ≤ (content (body ++ [lineFeed])).length + 1 := by
  by_cases hreturn : body.getLast? = some carriageReturn
  · obtain ⟨before, rfl⟩ := List.getLast?_eq_some_iff.mp hreturn
    rw [List.append_assoc, List.singleton_append, content_returned]
    simp
  · rw [content_concat hreturn]
    omega

theorem content_of_not_mem {line : Bytes} (h : lineFeed ∉ line) : content line = line :=
  content_unended fun hl => h (List.mem_of_getLast? hl)

theorem forall_ne_lineFeed {data : Bytes} (h : lineFeed ∉ data) :
    ∀ b ∈ data, decide (b ≠ lineFeed) = true :=
  fun _ hb => decide_eq_true fun he => h (he ▸ hb)

theorem front_of_not_mem {data : Bytes} (h : lineFeed ∉ data) : front data = data := by
  rw [front, List.takeWhile_eq_self_iff.mpr (forall_ne_lineFeed h),
    List.dropWhile_eq_nil_iff.mpr (forall_ne_lineFeed h)]
  simp

theorem front_body {body : Bytes} (h : lineFeed ∉ body) (rest : Bytes) :
    front (body ++ lineFeed :: rest) = body ++ [lineFeed] := by
  rw [front, List.takeWhile_append_of_pos (forall_ne_lineFeed h),
    List.dropWhile_append_of_pos (forall_ne_lineFeed h)]
  simp

theorem read_of_last {data : Bytes} (h : firstLine (limit + 2) data = none)
    (hl : data.length < limit + 2) :
    read limit true data = if data = [] then .ended else ofBytes limit data [] := by
  have hw : (data.take (limit + 2)).length ≠ limit + 2 := by
    rw [List.length_take]
    omega
  simp only [read, h, if_neg hw, if_true, List.isEmpty_iff]

/-- A window that is full and without an end holds more than the limit allows. -/
theorem read_of_window {data : Bytes} (h : firstLine (limit + 2) data = none)
    (hl : limit + 2 ≤ data.length) (hm : lineFeed ∉ data.take (limit + 2)) :
    read limit ended data = .tooLong (data.drop (limit + 2)) := by
  have hlen : (data.take (limit + 2)).length = limit + 2 := by
    rw [List.length_take]
    omega
  rw [read_of_full h hl, ofBytes, content_of_not_mem hm, if_neg (by omega)]

/-- Where a line has its end, what follows does not matter. -/
theorem read_of_mem {data : Bytes} (h : lineFeed ∈ data) :
    read limit ended data =
      if (content (front data)).length ≤ limit then
        .line (Utf8.decode (content (front data))) (data.drop (front data).length)
      else .tooLong (data.drop (min (front data).length (limit + 2))) := by
  obtain ⟨body, rest, rfl, hbody⟩ := List.eq_append_cons_of_mem h
  have hsize := le_length_content_concat body
  rw [front_body hbody]
  by_cases hlong : body.length < limit + 2
  · -- The end is in the window.
    have hmin : (body ++ [lineFeed]).length ≤ limit + 2 := by simpa using Nat.le_of_lt_succ hlong
    rw [read_of_firstLine (firstLine_body hbody hlong rest), ofBytes, Nat.min_eq_left hmin]
  · have hnone : firstLine (limit + 2) (body ++ lineFeed :: rest) = none :=
      firstLine_append_eq_none (firstLine_eq_none hbody) (by omega) _
    have hwindow : lineFeed ∉ (body ++ lineFeed :: rest).take (limit + 2) := by
      rw [List.take_append_of_le_length (by omega)]
      exact fun hb => hbody (List.mem_of_mem_take hb)
    rw [read_of_window hnone (by rw [List.length_append]; omega) hwindow, if_neg (by omega),
      Nat.min_eq_right (by rw [List.length_append]; omega)]

theorem read_of_not_mem {data : Bytes} (h : lineFeed ∉ data) :
    read limit false data =
      if data.length < limit + 2 then .incomplete else .tooLong (data.drop (limit + 2)) := by
  have hnone : firstLine (limit + 2) data = none := firstLine_eq_none h
  split
  · rename_i hshort
    exact read_of_short hnone hshort
  · exact read_of_window hnone (by omega) fun hb => h (List.mem_of_mem_take hb)

theorem read_eq (limit : Nat) (data : Bytes) :
    read limit true data =
      if data = [] then .ended
      else if (content (front data)).length ≤ limit then
        .line (Utf8.decode (content (front data))) (data.drop (front data).length)
      else .tooLong (data.drop (min (front data).length (limit + 2))) := by
  by_cases hm : lineFeed ∈ data
  · rw [read_of_mem hm, if_neg (List.ne_nil_of_mem hm)]
  · have hnone : firstLine (limit + 2) data = none := firstLine_eq_none hm
    rw [front_of_not_mem hm, content_of_not_mem hm]
    by_cases hlong : data.length < limit + 2
    · rw [read_of_last hnone hlong, ofBytes, content_of_not_mem hm, Nat.min_eq_left (by omega),
        List.drop_length]
    · have hne : data ≠ [] := List.ne_nil_of_length_pos (by omega)
      rw [read_of_window hnone (by omega) fun hb => hm (List.mem_of_mem_take hb), if_neg hne,
        if_neg (by omega), Nat.min_eq_right (by omega)]

theorem read_true_ne_incomplete (limit : Nat) (data : Bytes) : read limit true data ≠ .incomplete := by
  rw [read_eq]
  split
  · simp
  · split <;> simp

theorem read_ne_incomplete_of_mem {data : Bytes} (h : lineFeed ∈ data) :
    read limit ended data ≠ .incomplete := by
  rw [read_of_mem h]
  split <;> simp

/-- What still lacks its end is the last line, should the stream end there. -/
theorem read_true_of_incomplete {data : Bytes} (h : read limit false data = .incomplete) :
    read limit true data = if data = [] then .ended else ofBytes limit data [] := by
  have hm : lineFeed ∉ data := fun hm => read_ne_incomplete_of_mem hm h
  refine read_of_last (firstLine_eq_none hm) (by_contra fun hlong => ?_)
  rw [read_of_not_mem hm, if_neg hlong] at h
  exact absurd h (by simp)

/-- By induction on the bytes: every read but the last takes some of them away. -/
theorem items_ended (limit : Nat) (data : Bytes) :
    ∃ said, items limit true data = (said ++ [.ended], []) ∧ .ended ∉ said := by
  induction hn : data.length using Nat.strongRecOn generalizing data with
  | ind n ih =>
    subst hn
    cases hr : read limit true data with
    | incomplete => exact absurd hr (read_true_ne_incomplete limit data)
    | ended => exact ⟨[], items_of_ended hr, by simp⟩
    | line s rest =>
      have hlt : rest.length < data.length := length_lt_of_leaves (by rw [hr]; rfl)
      obtain ⟨said, hsaid, hnot⟩ := ih _ hlt rest rfl
      exact ⟨.text s :: said, by rw [items_of_line hr, hsaid]; rfl, by simpa using hnot⟩
    | tooLong rest =>
      have hlt : rest.length < data.length := length_lt_of_leaves (by rw [hr]; rfl)
      obtain ⟨said, hsaid, hnot⟩ := ih _ hlt rest rfl
      exact ⟨.tooLong :: said, by rw [items_of_tooLong hr, hsaid]; rfl, by simpa using hnot⟩

/-- A read takes the first line, if what it says is within the limit, and else as much of it as the
window holds.  Reading again and again comes to the end of the stream, and texts that were written as
lines are read back. -/
theorem reading_exact (limit : Nat) :
    (∀ data, ∃ body, (∀ body', Says (front data) body' ↔ body' = body) ∧
      read limit true data =
        if data = [] then .ended
        else if body.length ≤ limit then .line (Utf8.decode body) (data.drop (front data).length)
        else .tooLong (data.drop (min (front data).length (limit + 2)))) ∧
    (∀ data, ∃ said, items limit true data = (said ++ [.ended], []) ∧ .ended ∉ said) ∧
    ∀ texts : List String, (∀ s ∈ texts, Fits limit s) →
      items limit true (texts.flatMap write) = (texts.map .text ++ [.ended], []) := by
  refine ⟨fun data => ⟨content (front data), fun _ => says_iff, read_eq limit data⟩,
    items_ended limit, fun texts hfits => ?_⟩
  have hwritten : texts.flatMap write = writeAll texts :=
    List.flatMap_congr fun s hs => write_eq (hfits s hs)
  rw [hwritten, items_writeAll hfits]

/-- An empty text, one that begins with a carriage return, and one with a character of two bytes. -/
theorem reading_exact_returns :
    (∀ s ∈ ["", "\rab", "é"], Fits 3 s) ∧
      items 3 true (["", "\rab", "é"].flatMap write) =
        ([.text "", .text "\rab", .text "é", .ended], []) := by
  have hfits : ∀ s ∈ ["", "\rab", "é"], Fits 3 s := by
    intro s hs
    simp only [List.mem_cons, List.not_mem_nil, or_false] at hs
    rcases hs with rfl | rfl | rfl <;> exact ⟨by decide, by decide, by decide⟩
  exact ⟨hfits, (reading_exact 3).2.2 _ hfits⟩

end PeerChat.Line
