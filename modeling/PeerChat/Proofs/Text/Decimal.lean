import PeerChat.Proofs.Text.Blank
import PeerChat.Text.Decimal

/-!
# Decimal numbers are read back

A number is written as one word of digits.  What is read is exactly what spells a number within the
bound: as it is written, or with a sign or zeros before it (`read?_eq_some_iff`).
-/

namespace PeerChat

namespace Text

/-- No visible character of the basic range is a blank. -/
theorem isBlank_eq_false {c : Char} (h : 0x21 ≤ c.toNat) (h' : c.toNat ≤ 0x7e) :
    isBlank c = false := by
  simp [isBlank, inRanges, blankRanges]
  omega

theorem toNat_of_isDigit {c : Char} (h : c.isDigit = true) : 48 ≤ c.toNat ∧ c.toNat ≤ 57 := by
  simp only [Char.isDigit, Bool.and_eq_true, decide_eq_true_eq, UInt32.le_iff_toNat_le] at h
  exact h

theorem isBlank_of_isDigit {c : Char} (h : c.isDigit = true) : isBlank c = false := by
  obtain ⟨hlow, hhigh⟩ := toNat_of_isDigit h
  exact isBlank_eq_false (by omega) (by omega)

end Text

namespace Decimal

theorem isDigit_of_mem_toDigits {n : Nat} {c : Char} (h : c ∈ Nat.toDigits 10 n) :
    c.isDigit = true := Nat.isDigit_of_mem_toDigits (by decide) (by decide) h

theorem toList_toString (n : Nat) : (toString n).toList = Nat.toDigits 10 n := Nat.toList_repr

theorem lt_of_readDigits? {bound n : Nat} {digits : List Char}
    (h : readDigits? bound digits = some n) : n < bound := by
  unfold readDigits? at h
  split at h
  · exact absurd h (by simp)
  · split at h
    · rename_i hlt
      rw [← Option.some.inj h]
      exact hlt
    · exact absurd h (by simp)

theorem isWord_toString (n : Nat) : Text.IsWord (toString n) := by
  refine ⟨fun h => ?_, fun c hc => ?_⟩
  · have hnil := congrArg String.toList h
    rw [toList_toString] at hnil
    exact Nat.toDigits_ne_nil hnil
  · rw [toList_toString] at hc
    exact Text.isBlank_of_isDigit (isDigit_of_mem_toDigits hc)

/-! ## Spellings -/

/-- A number as it may be spelled: after at most one plus sign and any number of zeros it stands as
it is written. -/
def Spells (s : String) (n : Nat) : Prop :=
  ∃ zeros, s.toList = List.replicate zeros '0' ++ (toString n).toList ∨
    s.toList = '+' :: (List.replicate zeros '0' ++ (toString n).toList)

theorem digitChar_of_isDigit {c : Char} (h : c.isDigit = true) :
    Nat.digitChar (c.toNat - '0'.toNat) = c := by
  obtain ⟨hlow, hhigh⟩ := Text.toNat_of_isDigit h
  have hzero : '0'.toNat = 48 := rfl
  apply Char.toNat_inj.mp
  rw [Nat.toNat_digitChar_of_lt_ten (by omega)]
  omega

/-- More digits behind a number other than zero. -/
theorem toDigits_append_digits {n : Nat} (hn : 0 < n) {digits : List Char}
    (h : ∀ c ∈ digits, c.isDigit = true) :
    Nat.toDigits 10 n ++ digits = Nat.toDigits 10 (Nat.ofDigitChars 10 digits n) := by
  induction digits generalizing n with
  | nil => rw [List.append_nil, Nat.ofDigitChars_nil]
  | cons c digits ih =>
    have hc := h c (List.mem_cons_self ..)
    have hlt : c.toNat - '0'.toNat < 10 := by
      have := (Text.toNat_of_isDigit hc).2
      have hzero : '0'.toNat = 48 := rfl
      omega
    have hone : Nat.toDigits 10 n ++ [c] = Nat.toDigits 10 (10 * n + (c.toNat - '0'.toNat)) := by
      rw [← Nat.toDigits_append_toDigits (by decide) hn hlt, Nat.toDigits_of_lt_base hlt,
        digitChar_of_isDigit hc]
    rw [List.append_cons, hone, ih (by omega) fun d hd => h d (List.mem_cons_of_mem c hd),
      Nat.ofDigitChars_cons]

theorem exists_zeros {digits : List Char} (hne : digits ≠ []) (h : ∀ c ∈ digits, c.isDigit = true) :
    ∃ zeros, digits = List.replicate zeros '0' ++ Nat.toDigits 10 (valueOf digits) := by
  induction digits with
  | nil => exact absurd rfl hne
  | cons c digits ih =>
    have hdigits : ∀ d ∈ digits, d.isDigit = true := fun d hd => h d (List.mem_cons_of_mem c hd)
    by_cases hc : c = '0'
    · rcases List.eq_nil_or_concat digits with rfl | ⟨before, last, hd⟩
      · exact ⟨0, by rw [hc]; rfl⟩
      · obtain ⟨zeros, hz⟩ := ih (by simp [hd]) hdigits
        refine ⟨zeros + 1, ?_⟩
        have hvalue : valueOf (c :: digits) = valueOf digits := by
          rw [valueOf, Nat.ofDigitChars_cons, hc]
          rfl
        rw [hvalue, List.replicate_succ, List.cons_append, ← hz, hc]
    · have hdigit := h c (List.mem_cons_self ..)
      obtain ⟨hlow, hhigh⟩ := Text.toNat_of_isDigit hdigit
      have hzero : '0'.toNat = 48 := rfl
      have hpos : 0 < c.toNat - '0'.toNat := by
        have : c.toNat ≠ '0'.toNat := fun he => hc (Char.toNat_inj.mp he)
        omega
      refine ⟨0, ?_⟩
      have hmore := toDigits_append_digits hpos hdigits
      rw [Nat.toDigits_of_lt_base (by omega), digitChar_of_isDigit hdigit] at hmore
      rw [valueOf, Nat.ofDigitChars_cons, Nat.mul_zero, Nat.zero_add, ← hmore]
      rfl

theorem valueOf_zeros (zeros n : Nat) :
    valueOf (List.replicate zeros '0' ++ Nat.toDigits 10 n) = n := by
  induction zeros with
  | zero => exact Nat.ofDigitChars_ten_toDigits
  | succ zeros ih =>
    rw [List.replicate_succ, List.cons_append, valueOf, Nat.ofDigitChars_cons]
    exact ih

theorem readDigits?_eq_some_iff {bound n : Nat} {digits : List Char} :
    readDigits? bound digits = some n ↔
      (∃ zeros, digits = List.replicate zeros '0' ++ Nat.toDigits 10 n) ∧ n < bound := by
  constructor
  · intro h
    have hlt := lt_of_readDigits? h
    unfold readDigits? at h
    split at h
    · exact absurd h (by simp)
    · rename_i hd
      obtain ⟨hne, hall⟩ : digits ≠ [] ∧ ∀ c ∈ digits, c.isDigit = true := by simpa using hd
      split at h
      · rw [← Option.some.inj h]
        exact ⟨exists_zeros hne hall, Option.some.inj h ▸ hlt⟩
      · exact absurd h (by simp)
  · rintro ⟨⟨zeros, rfl⟩, hlt⟩
    have hempty : (List.replicate zeros '0' ++ Nat.toDigits 10 n).isEmpty = false := by
      rw [List.isEmpty_eq_false_iff]
      exact List.append_ne_nil_of_right_ne_nil _ Nat.toDigits_ne_nil
    have hall : (List.replicate zeros '0' ++ Nat.toDigits 10 n).all Char.isDigit = true := by
      refine List.all_eq_true.mpr fun c hc => ?_
      rcases List.mem_append.mp hc with hc | hc
      · rw [List.eq_of_mem_replicate hc]
        rfl
      · exact isDigit_of_mem_toDigits hc
    rw [readDigits?, hempty, hall, valueOf_zeros]
    exact if_pos hlt

theorem read?_eq_some_iff {bound n : Nat} {s : String} :
    read? bound s = some n ↔ Spells s n ∧ n < bound := by
  have hdigit : ∀ (zeros : Nat) (digits : List Char),
      '+' :: digits ≠ List.replicate zeros '0' ++ Nat.toDigits 10 n := by
    intro zeros digits h
    have hm : '+' ∈ List.replicate zeros '0' ++ Nat.toDigits 10 n := h ▸ List.mem_cons_self ..
    rcases List.mem_append.mp hm with hm | hm
    · exact absurd (List.eq_of_mem_replicate hm) (by decide)
    · exact absurd (isDigit_of_mem_toDigits hm) (by decide)
  unfold read? Spells
  rw [toList_toString]
  split
  · rename_i digits h
    rw [readDigits?_eq_some_iff, h]
    simp [hdigit]
  · rename_i h
    rw [readDigits?_eq_some_iff]
    refine and_congr_left fun _ => exists_congr fun zeros => ⟨.inl, fun hs => ?_⟩
    exact hs.resolve_right fun hplus => h _ hplus

end Decimal

end PeerChat
