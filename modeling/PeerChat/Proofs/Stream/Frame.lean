import PeerChat.Proofs.Bytes
import PeerChat.Stream.Frame

/-!
# Frames that are written and read back

A payload within the limit is read back as it was written (`read_write`), and nothing is read
before the last byte of a frame has arrived (`read_incomplete`).  So the beginning of a written
stream, wherever it is cut, reads as the first of its payloads, and what is left goes on with the
others (`items_of_beginning`).  `front` lists all that any stream can begin with; so every stream is
frames and a remainder that tells how reading ends (`codec_exact`).
-/

namespace PeerChat.Frame

variable {limit : Nat} {ended : Bool}

/-! ## Reading piece by piece -/

/-- What has been read stands, and more bytes come behind what is left. -/
def Outcome.extend (later : Bytes) : Outcome → Outcome
  | .frame payload rest => .frame payload (rest ++ later)
  | outcome => outcome

theorem read_header (a b c d : UInt8) (rest : Bytes) :
    read limit ended (a :: b :: c :: d :: rest) =
      if limit < Bytes.ofBigEndian [a, b, c, d] then .tooLarge (Bytes.ofBigEndian [a, b, c, d])
      else if (rest.take (Bytes.ofBigEndian [a, b, c, d])).length = Bytes.ofBigEndian [a, b, c, d]
      then .frame (rest.take (Bytes.ofBigEndian [a, b, c, d]))
        (rest.drop (Bytes.ofBigEndian [a, b, c, d]))
      else if ended then .cutPayload
      else .incomplete := rfl

theorem read_of_short {data : Bytes} (h : data.length < 4) :
    read limit false data = .incomplete := by
  match data with
  | [] | [_] | [_, _] | [_, _, _] => rfl
  | _ :: _ :: _ :: _ :: _ => exact absurd h (by simp)

theorem read_append {a : Bytes} (h : read limit false a ≠ .incomplete) (b : Bytes) :
    read limit ended (a ++ b) = (read limit false a).extend b := by
  match a, h with
  | [], h | [_], h | [_, _], h | [_, _, _], h => exact absurd rfl h
  | b₁ :: b₂ :: b₃ :: b₄ :: rest, h =>
    rw [List.cons_append, List.cons_append, List.cons_append, List.cons_append]
    rw [read_header] at h ⊢
    rw [read_header]
    by_cases hlarge : limit < Bytes.ofBigEndian [b₁, b₂, b₃, b₄]
    · rw [if_pos hlarge, if_pos hlarge]
      rfl
    · rw [if_neg hlarge] at h ⊢
      rw [if_neg hlarge]
      by_cases hlen : (rest.take (Bytes.ofBigEndian [b₁, b₂, b₃, b₄])).length =
          Bytes.ofBigEndian [b₁, b₂, b₃, b₄]
      · have hle : Bytes.ofBigEndian [b₁, b₂, b₃, b₄] ≤ rest.length := by
          rw [List.length_take] at hlen
          omega
        rw [List.take_append_of_le_length hle, List.drop_append_of_le_length hle, if_pos hlen,
          if_pos hlen]
        rfl
      · rw [if_neg hlen] at h
        exact absurd rfl h

theorem items_of_incomplete {data : Bytes} (h : read limit ended data = .incomplete) :
    items limit ended data = ([], data) := by
  rw [items]
  split <;> simp_all

theorem items_of_frame {data payload rest : Bytes}
    (h : read limit ended data = .frame payload rest) :
    items limit ended data =
      (.payload payload :: (items limit ended rest).1, (items limit ended rest).2) := by
  rw [items]
  split <;> simp_all

theorem items_of_ended {data : Bytes} (h : read limit ended data = .ended) :
    items limit ended data = ([.ended], []) := by
  rw [items]
  split <;> simp_all

theorem items_nil : items limit false [] = ([], []) := items_of_incomplete rfl

/-! ## Frames as they are written -/

theorem read_write {payload : Bytes} (hl : payload.length ≤ limit)
    (hw : payload.length < 2 ^ 32) (rest : Bytes) :
    read limit ended (write payload ++ rest) = .frame payload rest := by
  have hlen := Bytes.length_bigEndian 4 payload.length
  have hsize := Bytes.ofBigEndian_bigEndian 4 payload.length
  rw [write, List.append_assoc]
  match hb : Bytes.bigEndian 4 payload.length, hlen with
  | [b₁, b₂, b₃, b₄], _ =>
    rw [hb, Nat.mod_eq_of_lt (by omega)] at hsize
    have hhead : [b₁, b₂, b₃, b₄] ++ (payload ++ rest) = b₁ :: b₂ :: b₃ :: b₄ :: (payload ++ rest) :=
      rfl
    rw [hhead, read_header, hsize, if_neg (by omega), List.take_left, if_pos rfl, List.drop_left]

/-- A frame is not read before its last byte has arrived. -/
theorem read_incomplete {payload : Bytes} (hl : payload.length ≤ limit)
    (hw : payload.length < 2 ^ 32) {data rest : Bytes} (hr : rest ≠ [])
    (hd : data ++ rest = write payload) : read limit false data = .incomplete := by
  by_cases h : read limit false data = .incomplete
  · exact h
  · exfalso
    have hlen : 0 < rest.length := List.length_pos_iff.mpr hr
    have hread : read limit false (data ++ rest) = _ := read_append h rest
    rw [hd, ← List.append_nil (write payload), read_write hl hw] at hread
    -- Something was read from the first part, so it is the payload, with nothing left behind it.
    match hr' : read limit false data, hread with
    | .frame payload' rest', hread =>
      have hnil : rest' ++ rest = [] := (Outcome.frame.inj hread).2.symm
      exact hr (List.append_eq_nil_iff.mp hnil).2

theorem items_write {payload : Bytes} (hl : payload.length ≤ limit)
    (hw : payload.length < 2 ^ 32) (rest : Bytes) :
    items limit ended (write payload ++ rest) =
      (.payload payload :: (items limit ended rest).1, (items limit ended rest).2) :=
  items_of_frame (read_write hl hw rest)

/-- A frame that is not huge begins with a zero. -/
theorem head?_write {payload : Bytes} (h : payload.length < 2 ^ 24) (rest : Bytes) :
    (write payload ++ rest).head? = some 0 := by
  have hzero : payload.length / 256 / 256 / 256 = 0 := by omega
  simp [write, Bytes.bigEndian, Bytes.littleEndian, hzero]

theorem write_ne_nil (payload : Bytes) : write payload ≠ [] := by
  intro h
  have hlen := congrArg List.length (List.append_eq_nil_iff.mp h).1
  rw [Bytes.length_bigEndian] at hlen
  exact absurd hlen (by decide)

/-! ## What a stream begins with -/

/-- Four bytes are the length that they are read as. -/
theorem bigEndian_header (a b c d : UInt8) :
    Bytes.bigEndian 4 (Bytes.ofBigEndian [a, b, c, d]) = [a, b, c, d] :=
  Bytes.bigEndian_ofBigEndian [a, b, c, d]

theorem read_bigEndian {size : Nat} (h : size < 2 ^ 32) (rest : Bytes) :
    read limit ended (Bytes.bigEndian 4 size ++ rest) =
      if limit < size then .tooLarge size
      else if (rest.take size).length = size then .frame (rest.take size) (rest.drop size)
      else if ended then .cutPayload
      else .incomplete := by
  have hlen := Bytes.length_bigEndian 4 size
  have hsize := Bytes.ofBigEndian_bigEndian 4 size
  match hb : Bytes.bigEndian 4 size, hlen with
  | [b₁, b₂, b₃, b₄], _ =>
    rw [hb, Nat.mod_eq_of_lt (by omega)] at hsize
    have hread : read limit ended (b₁ :: b₂ :: b₃ :: b₄ :: rest) = _ := read_header b₁ b₂ b₃ b₄ rest
    rw [hsize] at hread
    exact hread

/-- Payloads that can be written and read. -/
def Fits (limit : Nat) (payload : Bytes) : Prop := payload.length ≤ limit ∧ payload.length < 2 ^ 32

/-- All that a stream can begin with, under a limit for payloads. -/
inductive Front (limit : Nat) : Bytes → Prop
  | nothing : Front limit []
  | partLength {data : Bytes} (nonempty : data ≠ []) (short : data.length < 4) : Front limit data
  | tooLarge {size : Nat} (large : limit < size) (bound : size < 2 ^ 32) (rest : Bytes) :
      Front limit (Bytes.bigEndian 4 size ++ rest)
  | partPayload {size : Nat} {rest : Bytes} (small : size ≤ limit) (bound : size < 2 ^ 32)
      (short : rest.length < size) : Front limit (Bytes.bigEndian 4 size ++ rest)
  | frame {payload : Bytes} (fits : Fits limit payload) (rest : Bytes) :
      Front limit (write payload ++ rest)

theorem front (limit : Nat) (data : Bytes) : Front limit data := by
  match data with
  | [] => exact .nothing
  | [_] | [_, _] | [_, _, _] => exact .partLength (by simp) (by simp)
  | a :: b :: c :: d :: rest =>
    have hbound : Bytes.ofBigEndian [a, b, c, d] < 2 ^ 32 := by
      have ha := a.toNat_lt
      have hb := b.toNat_lt
      have hc := c.toNat_lt
      have hd := d.toNat_lt
      simp only [Bytes.ofBigEndian, List.reverse_cons, List.reverse_nil, List.nil_append,
        List.cons_append, Bytes.ofLittleEndian]
      omega
    have hdata : a :: b :: c :: d :: rest =
        Bytes.bigEndian 4 (Bytes.ofBigEndian [a, b, c, d]) ++ rest := by
      rw [bigEndian_header]
      rfl
    rw [hdata]
    generalize Bytes.ofBigEndian [a, b, c, d] = size at hbound
    by_cases hlarge : limit < size
    · exact .tooLarge hlarge hbound rest
    by_cases hshort : rest.length < size
    · exact .partPayload (by omega) hbound hshort
    · have htake : (rest.take size).length = size := by
        rw [List.length_take]
        omega
      have hwrite : Bytes.bigEndian 4 size ++ rest = write (rest.take size) ++ rest.drop size := by
        rw [write, htake, List.append_assoc, List.take_append_drop]
      rw [hwrite]
      exact .frame ⟨by omega, by omega⟩ _

theorem read_partLength {data : Bytes} (hne : data ≠ []) (h : data.length < 4) :
    read limit true data = .cutLength := by
  match data with
  | [] => exact absurd rfl hne
  | [_] | [_, _] | [_, _, _] => rfl
  | _ :: _ :: _ :: _ :: _ => exact absurd h (by simp)

theorem read_tooLarge {size : Nat} (hl : limit < size) (h : size < 2 ^ 32) (rest : Bytes) :
    read limit ended (Bytes.bigEndian 4 size ++ rest) = .tooLarge size := by
  rw [read_bigEndian h, if_pos hl]

theorem read_partPayload {size : Nat} {rest : Bytes} (hl : size ≤ limit) (h : size < 2 ^ 32)
    (hr : rest.length < size) :
    read limit ended (Bytes.bigEndian 4 size ++ rest) = if ended then .cutPayload else .incomplete := by
  have htake : (rest.take size).length ≠ size := by
    rw [List.length_take]
    omega
  rw [read_bigEndian h, if_neg (by omega), if_neg htake]

theorem items_of_tooLarge {data : Bytes} {size : Nat} (h : read limit ended data = .tooLarge size) :
    items limit ended data = ([.tooLarge size], []) := by
  rw [items]
  split <;> simp_all

theorem items_of_cutLength {data : Bytes} (h : read limit ended data = .cutLength) :
    items limit ended data = ([.cutLength], []) := by
  rw [items]
  split <;> simp_all

theorem items_of_cutPayload {data : Bytes} (h : read limit ended data = .cutPayload) :
    items limit ended data = ([.cutPayload], []) := by
  rw [items]
  split <;> simp_all

/-! ## Streams of frames -/

def writeAll (payloads : List Bytes) : Bytes := payloads.flatMap write

theorem writeAll_cons (payload : Bytes) (payloads : List Bytes) :
    writeAll (payload :: payloads) = write payload ++ writeAll payloads := List.flatMap_cons

theorem items_of_beginning {payloads : List Bytes} (hp : ∀ p ∈ payloads, Fits limit p)
    {data rest : Bytes} (hd : data ++ rest = writeAll payloads) :
    ∃ done left, payloads = done ++ left ∧ (items limit false data).1 = done.map .payload ∧
      (items limit false data).2 ++ rest = writeAll left ∧
      read limit false (items limit false data).2 = .incomplete := by
  induction payloads generalizing data with
  | nil =>
    obtain ⟨rfl, rfl⟩ := List.append_eq_nil_iff.mp hd
    exact ⟨[], [], rfl, by rw [items_nil]; rfl, by rw [items_nil]; rfl, by rw [items_nil]; rfl⟩
  | cons p payloads ih =>
    obtain ⟨hl, hw⟩ := hp p (List.mem_cons_self ..)
    rw [writeAll, List.flatMap_cons] at hd
    rcases Bytes.cases_of_append_eq hd with ⟨missing, hnil, hm, hr⟩ | ⟨later, rfl, hr⟩
    · have hread := read_incomplete hl hw hnil hm.symm
      refine ⟨[], p :: payloads, rfl, ?_, ?_, ?_⟩
      · rw [items_of_incomplete hread]
        rfl
      · rw [items_of_incomplete hread]
        exact hd
      · rw [items_of_incomplete hread]
        exact hread
    · obtain ⟨done, left, he, hi, hu, hn⟩ := ih (fun q hq => hp q (List.mem_cons_of_mem p hq)) hr
      refine ⟨p :: done, left, by rw [he]; rfl, ?_, ?_, ?_⟩
      · rw [items_write hl hw, hi]
        rfl
      · rw [items_write hl hw]
        exact hu
      · rw [items_write hl hw]
        exact hn

/-- Only the empty stream of frames is an incomplete frame. -/
theorem eq_nil_of_read_writeAll {payloads : List Bytes} (hp : ∀ p ∈ payloads, Fits limit p)
    (h : read limit false (writeAll payloads) = .incomplete) : payloads = [] := by
  cases payloads with
  | nil => rfl
  | cons p payloads =>
    obtain ⟨hl, hw⟩ := hp p (List.mem_cons_self ..)
    rw [writeAll, List.flatMap_cons, read_write hl hw] at h
    exact absurd h (by simp)

theorem items_writeAll_append {payloads : List Bytes} (hp : ∀ p ∈ payloads, Fits limit p)
    (rest : Bytes) :
    items limit ended (writeAll payloads ++ rest) =
      (payloads.map .payload ++ (items limit ended rest).1, (items limit ended rest).2) := by
  induction payloads with
  | nil => rfl
  | cons p payloads ih =>
    obtain ⟨hl, hw⟩ := hp p (List.mem_cons_self ..)
    rw [writeAll_cons, List.append_assoc, items_write hl hw,
      ih fun q hq => hp q (List.mem_cons_of_mem p hq)]
    rfl

theorem items_writeAll {payloads : List Bytes} (hp : ∀ p ∈ payloads, Fits limit p) :
    items limit true (writeAll payloads) = (payloads.map .payload ++ [.ended], []) := by
  have hend : items limit true [] = ([.ended], []) := items_of_ended rfl
  rw [← List.append_nil (writeAll payloads), items_writeAll_append hp, hend]

/-! ## Any stream -/

/-- What can follow the last frame that is read, and what is read there. -/
inductive Remains (limit : Nat) : Bytes → Item → Prop
  | nothing : Remains limit [] .ended
  | partLength {rest : Bytes} (nonempty : rest ≠ []) (short : rest.length < 4) :
      Remains limit rest .cutLength
  | partPayload {size : Nat} {rest : Bytes} (small : size ≤ limit) (bound : size < 2 ^ 32)
      (short : rest.length < size) : Remains limit (Bytes.bigEndian 4 size ++ rest) .cutPayload
  | tooLarge {size : Nat} (large : limit < size) (bound : size < 2 ^ 32) (rest : Bytes) :
      Remains limit (Bytes.bigEndian 4 size ++ rest) (.tooLarge size)

theorem Remains.items_eq {rest : Bytes} {last : Item} (h : Remains limit rest last) :
    items limit true rest = ([last], []) := by
  cases h with
  | nothing => exact items_of_ended rfl
  | partLength nonempty short => exact items_of_cutLength (read_partLength nonempty short)
  | partPayload small bound short => exact items_of_cutPayload (read_partPayload small bound short)
  | tooLarge large bound rest => exact items_of_tooLarge (read_tooLarge large bound rest)

theorem Remains.unique {rest : Bytes} {last : Item} (h : Remains limit rest last) {last' : Item} :
    Remains limit rest last' ↔ last' = last := by
  constructor
  · intro h'
    have hsame := h'.items_eq.symm.trans h.items_eq
    exact List.singleton_inj.mp (Prod.mk.inj hsame).1
  · intro he
    rw [he]
    exact h

/-- By induction on the bytes: they begin with a frame, or none can be read. -/
theorem exists_remains (limit : Nat) (data : Bytes) :
    ∃ payloads rest last, (∀ p ∈ payloads, Fits limit p) ∧ data = writeAll payloads ++ rest ∧
      Remains limit rest last := by
  induction hn : data.length using Nat.strongRecOn generalizing data with
  | ind n ih =>
    cases front limit data with
    | nothing => exact ⟨[], _, _, by simp, rfl, .nothing⟩
    | partLength nonempty short => exact ⟨[], _, _, by simp, rfl, .partLength nonempty short⟩
    | tooLarge large bound rest => exact ⟨[], _, _, by simp, rfl, .tooLarge large bound rest⟩
    | partPayload small bound short => exact ⟨[], _, _, by simp, rfl, .partPayload small bound short⟩
    | @frame payload fits rest =>
      have hshorter : rest.length < n := by
        have := List.length_pos_iff.mpr (write_ne_nil payload)
        rw [← hn, List.length_append]
        omega
      obtain ⟨payloads, left, last, hfits, rfl, hleft⟩ := ih rest.length hshorter rest rfl
      refine ⟨payload :: payloads, left, last, List.forall_mem_cons.mpr ⟨fits, hfits⟩, ?_, hleft⟩
      rw [writeAll_cons, List.append_assoc]

/-- Payloads that were written are read back, and whatever is read of a stream was written at its
front; what remains of it tells how reading ends. -/
theorem codec_exact (limit : Nat) :
    (∀ payloads : List Bytes, (∀ p ∈ payloads, Fits limit p) →
      items limit true (writeAll payloads) = (payloads.map .payload ++ [.ended], [])) ∧
    ∀ data, ∃ payloads rest last,
      items limit true data = (payloads.map .payload ++ [last], []) ∧
      (∀ p ∈ payloads, Fits limit p) ∧ data = writeAll payloads ++ rest ∧
      ∀ last', Remains limit rest last' ↔ last' = last := by
  refine ⟨fun payloads => items_writeAll, fun data => ?_⟩
  obtain ⟨payloads, rest, last, hfits, rfl, hrest⟩ := exists_remains limit data
  refine ⟨payloads, rest, last, ?_, hfits, rfl, fun _ => hrest.unique⟩
  rw [items_writeAll_append hfits, hrest.items_eq]

/-- An empty payload, and one at the limit that looks like the length of a frame. -/
theorem codec_exact_empty :
    (∀ p ∈ [[], [0, 0, 0, 5]], Fits 4 p) ∧
      items 4 true (writeAll [[], [0, 0, 0, 5]]) =
        ([.payload [], .payload [0, 0, 0, 5], .ended], []) := by
  have hfits : ∀ p ∈ [[], [0, 0, 0, 5]], Fits 4 p := by
    intro p hp
    simp only [List.mem_cons, List.not_mem_nil, or_false] at hp
    rcases hp with rfl | rfl <;> exact ⟨by decide, by decide⟩
  exact ⟨hfits, (codec_exact 4).1 _ hfits⟩

end PeerChat.Frame
