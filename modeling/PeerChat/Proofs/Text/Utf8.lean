import Mathlib.Data.List.Basic
import PeerChat.Text.Utf8

/-!
# Text that is written and read back

Reading what `Utf8.encode` wrote gives the text again (`decode_encode`): a reader between two
characters takes the bytes of one character to that character, whatever follows.  A byte below
`0x80` occurs in the writing of a text only as the character that it stands for, so lines can be
cut before they are read as text.
-/

namespace PeerChat.Utf8

theorem decodeFrom_cons (state : State) (b : UInt8) (rest : Bytes) :
    decodeFrom state (b :: rest) =
      (step state b.toNat).1 ++ decodeFrom (step state b.toNat).2 rest := by
  cases state <;> rfl

theorem decodeFrom_start (b : UInt8) (rest : Bytes) :
    decodeFrom .start (b :: rest) = (begin b.toNat).1 ++ decodeFrom (begin b.toNat).2 rest := rfl

/-- A byte within its bounds goes on with the character, or completes it. -/
theorem decodeFrom_within {bits left low high : Nat} {b : UInt8} (hl : low ≤ b.toNat)
    (hh : b.toNat ≤ high) (rest : Bytes) :
    decodeFrom (.within bits left low high) (b :: rest) =
      if left ≤ 1 then Char.ofNat (64 * bits + b.toNat % 64) :: decodeFrom .start rest
      else decodeFrom (.within (64 * bits + b.toNat % 64) (left - 1) 0x80 0xbf) rest := by
  rw [decodeFrom_cons, step, if_pos ⟨hl, hh⟩]
  split <;> rfl

theorem toNat_ofNat_of_lt {n : Nat} (h : n < 256) : (UInt8.ofNat n).toNat = n := by
  simp [Nat.mod_eq_of_lt h]

/-! ## One character -/

/-- A byte that goes on with a character carries its next six bits. -/
theorem toNat_tail (n : Nat) : (UInt8.ofNat (n % 0x40 + 0x80)).toNat = n % 0x40 + 0x80 :=
  toNat_ofNat_of_lt (by omega)

section Char

variable (c : Char) (rest : Bytes)

/-- The last six bits of a character complete it. -/
theorem decodeFrom_last :
    decodeFrom (.within (c.val.toNat / 64) 1 0x80 0xbf)
      (UInt8.ofNat (c.val.toNat % 0x40 + 0x80) :: rest) = c :: decodeFrom .start rest := by
  have hb := toNat_tail c.val.toNat
  have hbits : 64 * (c.val.toNat / 64) + (c.val.toNat % 0x40 + 0x80) % 64 = c.val.toNat := by omega
  have hc : Char.ofNat c.val.toNat = c := Char.ofNat_toNat c
  rw [decodeFrom_within (by omega) (by omega), hb, if_pos (Nat.le_refl 1), hbits, hc]

/-- The last twelve bits; the first of their bytes is bounded as the reader has it. -/
theorem decodeFrom_lastTwo {low high : Nat} (hl : low ≤ c.val.toNat / 64 % 0x40 + 0x80)
    (hh : c.val.toNat / 64 % 0x40 + 0x80 ≤ high) :
    decodeFrom (.within (c.val.toNat / 4096) 2 low high)
      (UInt8.ofNat (c.val.toNat / 64 % 0x40 + 0x80) ::
        UInt8.ofNat (c.val.toNat % 0x40 + 0x80) :: rest) = c :: decodeFrom .start rest := by
  have hb := toNat_tail (c.val.toNat / 64)
  have hbits : 64 * (c.val.toNat / 4096) + (c.val.toNat / 64 % 0x40 + 0x80) % 64 =
      c.val.toNat / 64 := by omega
  rw [decodeFrom_within (by omega) (by omega), hb, if_neg (by omega), hbits]
  exact decodeFrom_last c rest

theorem decodeFrom_lastThree {low high : Nat} (hl : low ≤ c.val.toNat / 4096 % 0x40 + 0x80)
    (hh : c.val.toNat / 4096 % 0x40 + 0x80 ≤ high) :
    decodeFrom (.within (c.val.toNat / 262144) 3 low high)
      (UInt8.ofNat (c.val.toNat / 4096 % 0x40 + 0x80) ::
        UInt8.ofNat (c.val.toNat / 64 % 0x40 + 0x80) ::
        UInt8.ofNat (c.val.toNat % 0x40 + 0x80) :: rest) = c :: decodeFrom .start rest := by
  have hb := toNat_tail (c.val.toNat / 4096)
  have hbits : 64 * (c.val.toNat / 262144) + (c.val.toNat / 4096 % 0x40 + 0x80) % 64 =
      c.val.toNat / 4096 := by omega
  rw [decodeFrom_within (by omega) (by omega), hb, if_neg (by omega), hbits]
  exact decodeFrom_lastTwo c rest (by omega) (by omega)

/-- What the first byte of a character of two bytes says. -/
theorem begin_two (h : 0x7f < c.val.toNat) (h' : c.val.toNat ≤ 0x7ff) :
    begin (c.val.toNat / 64 % 0x20 + 0xc0) = ([], .within (c.val.toNat / 64) 1 0x80 0xbf) := by
  rw [begin, if_neg (by omega), if_neg (by omega), if_pos (by omega)]
  congr 2
  omega

/-- The bounds keep surrogates and characters of fewer bytes out, and neither is met here. -/
theorem begin_three (h : 0x7ff < c.val.toNat) (h' : c.val.toNat ≤ 0xffff) :
    ∃ low high, begin (c.val.toNat / 4096 % 0x10 + 0xe0) =
        ([], .within (c.val.toNat / 4096) 2 low high) ∧
      low ≤ c.val.toNat / 64 % 0x40 + 0x80 ∧ c.val.toNat / 64 % 0x40 + 0x80 ≤ high := by
  have hbits : (c.val.toNat / 4096 % 0x10 + 0xe0) % 16 = c.val.toNat / 4096 := by omega
  have hvalid : c.val.toNat < 0xd800 ∨ 0xdfff < c.val.toNat ∧ c.val.toNat < 0x110000 := c.valid
  rw [begin, if_neg (by omega), if_neg (by omega), if_neg (by omega), hbits]
  by_cases hfirst : c.val.toNat / 4096 % 0x10 + 0xe0 = 0xe0
  · rw [if_pos hfirst]
    exact ⟨_, _, rfl, by omega, by omega⟩
  · rw [if_neg hfirst]
    by_cases hsurrogate : c.val.toNat / 4096 % 0x10 + 0xe0 = 0xed
    · rw [if_pos hsurrogate]
      exact ⟨_, _, rfl, by omega, by omega⟩
    · rw [if_neg hsurrogate, if_pos (by omega)]
      exact ⟨_, _, rfl, by omega, by omega⟩

theorem begin_four (h : 0xffff < c.val.toNat) :
    ∃ low high, begin (c.val.toNat / 262144 % 0x08 + 0xf0) =
        ([], .within (c.val.toNat / 262144) 3 low high) ∧
      low ≤ c.val.toNat / 4096 % 0x40 + 0x80 ∧ c.val.toNat / 4096 % 0x40 + 0x80 ≤ high := by
  have hvalid : c.val.toNat < 0xd800 ∨ 0xdfff < c.val.toNat ∧ c.val.toNat < 0x110000 := c.valid
  have hbits : (c.val.toNat / 262144 % 0x08 + 0xf0) % 8 = c.val.toNat / 262144 := by omega
  rw [begin, if_neg (by omega), if_neg (by omega), if_neg (by omega), if_neg (by omega),
    if_neg (by omega), if_neg (by omega), hbits]
  by_cases hfirst : c.val.toNat / 262144 % 0x08 + 0xf0 = 0xf0
  · rw [if_pos hfirst]
    exact ⟨_, _, rfl, by omega, by omega⟩
  · rw [if_neg hfirst]
    by_cases hmid : c.val.toNat / 262144 % 0x08 + 0xf0 < 0xf4
    · rw [if_pos hmid]
      exact ⟨_, _, rfl, by omega, by omega⟩
    · rw [if_neg hmid, if_pos (by omega)]
      exact ⟨_, _, rfl, by omega, by omega⟩

theorem decodeFrom_utf8EncodeChar :
    decodeFrom .start (String.utf8EncodeChar c ++ rest) = c :: decodeFrom .start rest := by
  have hvalid : c.val.toNat < 0xd800 ∨ 0xdfff < c.val.toNat ∧ c.val.toNat < 0x110000 := c.valid
  rw [String.utf8EncodeChar]
  by_cases h1 : c.val.toNat ≤ 0x7f
  · have hc : Char.ofNat c.val.toNat = c := Char.ofNat_toNat c
    rw [if_pos h1]
    change decodeFrom .start (UInt8.ofNat c.val.toNat :: rest) = _
    rw [decodeFrom_start, toNat_ofNat_of_lt (by omega), begin, if_pos (by omega), hc]
    rfl
  · rw [if_neg h1]
    by_cases h2 : c.val.toNat ≤ 0x7ff
    · rw [if_pos h2]
      change decodeFrom .start (_ :: _ :: rest) = _
      rw [decodeFrom_start, toNat_ofNat_of_lt (by omega), begin_two c (by omega) h2]
      exact decodeFrom_last c rest
    · rw [if_neg h2]
      by_cases h3 : c.val.toNat ≤ 0xffff
      · obtain ⟨low, high, hb, hl, hh⟩ := begin_three c (by omega) h3
        rw [if_pos h3]
        change decodeFrom .start (_ :: _ :: _ :: rest) = _
        rw [decodeFrom_start, toNat_ofNat_of_lt (by omega), hb]
        exact decodeFrom_lastTwo c rest hl hh
      · obtain ⟨low, high, hb, hl, hh⟩ := begin_four c (by omega)
        rw [if_neg h3]
        change decodeFrom .start (_ :: _ :: _ :: _ :: rest) = _
        rw [decodeFrom_start, toNat_ofNat_of_lt (by omega), hb]
        exact decodeFrom_lastThree c rest hl hh

end Char

/-! ## Texts -/

@[simp] theorem encode_append (s t : String) : encode (s ++ t) = encode s ++ encode t := by
  rw [encode, encode, encode, String.toList_append, List.flatMap_append]

theorem decodeFrom_encode (cs : List Char) (rest : Bytes) :
    decodeFrom .start (cs.flatMap String.utf8EncodeChar ++ rest) = cs ++ decodeFrom .start rest := by
  induction cs with
  | nil => rfl
  | cons c cs ih =>
    rw [List.flatMap_cons, List.append_assoc, decodeFrom_utf8EncodeChar, ih, List.cons_append]

theorem decode_encode (s : String) : decode (encode s) = s := by
  have h := decodeFrom_encode s.toList []
  rw [List.append_nil, show decodeFrom .start [] = [] from rfl, List.append_nil] at h
  rw [decode, encode, h, String.ofList_toList]

theorem encode_injective : Function.Injective encode := by
  intro s t h
  rw [← decode_encode s, h, decode_encode]

theorem length_encode (s : String) : (encode s).length = s.utf8ByteSize := by
  have h : s.toByteArray = (encode s).toByteArray := by
    rw [encode, ← List.utf8Encode, String.utf8Encode_toList]
  rw [← String.size_toByteArray, h, List.size_toByteArray]

theorem length_encode_le (s : String) : (encode s).length ≤ 4 * s.toList.length := by
  rw [encode]
  induction s.toList with
  | nil => exact Nat.le_refl _
  | cons c cs ih =>
    have hc := c.utf8Size_le_four
    rw [List.flatMap_cons, List.length_append, String.length_utf8EncodeChar, List.length_cons]
    omega

/-! ## Single bytes -/

/-- A byte below `0x80` stands for a character of its own. -/
theorem mem_utf8EncodeChar {b : UInt8} (hb : b.toNat < 0x80) {c : Char} :
    b ∈ String.utf8EncodeChar c ↔ c.toNat = b.toNat := by
  have heq : ∀ n, b = UInt8.ofNat n ↔ b.toNat = n % 256 := by
    intro n
    rw [← UInt8.toNat_inj, UInt8.toNat_ofNat']
  have hc : c.toNat = c.val.toNat := rfl
  rw [String.utf8EncodeChar]
  split
  · rw [List.mem_singleton, heq]
    omega
  · split
    · simp only [List.mem_cons, List.not_mem_nil, or_false, heq]
      omega
    · split
      · simp only [List.mem_cons, List.not_mem_nil, or_false, heq]
        omega
      · simp only [List.mem_cons, List.not_mem_nil, or_false, heq]
        omega

theorem mem_encode {b : UInt8} (hb : b.toNat < 0x80) {s : String} :
    b ∈ encode s ↔ ∃ c ∈ s.toList, c.toNat = b.toNat := by
  rw [encode, List.mem_flatMap]
  simp only [mem_utf8EncodeChar hb]

end PeerChat.Utf8
