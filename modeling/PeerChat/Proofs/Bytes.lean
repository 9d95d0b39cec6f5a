import Mathlib.Algebra.Group.Nat.Defs
import Mathlib.Data.List.Basic
import PeerChat.Bytes

/-!
# Cutting bytes

A number is read as it was written, up to the width (`ofBigEndian_bigEndian`), and written as it was
read (`bigEndian_ofBigEndian`); a vector is cut off the beginning of a stream as it was put there
(`cut?_append`), and of any stream that is long enough (`exists_append_of_le`).
-/

namespace PeerChat.Bytes

theorem ofLittleEndian_littleEndian (width n : Nat) :
    ofLittleEndian (littleEndian width n) = n % 256 ^ width := by
  induction width generalizing n with
  | zero => simp [littleEndian, ofLittleEndian, Nat.mod_one]
  | succ width ih =>
    have digit : (UInt8.ofNat n).toNat = n % 256 := by simp
    rw [littleEndian, ofLittleEndian, ih, digit, Nat.pow_succ, Nat.mul_comm (256 ^ width),
      Nat.mod_mul]

theorem ofBigEndian_bigEndian (width n : Nat) :
    ofBigEndian (bigEndian width n) = n % 256 ^ width := by
  simp [ofBigEndian, bigEndian, ofLittleEndian_littleEndian]

theorem littleEndian_ofLittleEndian (bs : Bytes) :
    littleEndian bs.length (ofLittleEndian bs) = bs := by
  induction bs with
  | nil => rfl
  | cons b bs ih =>
    have hb := b.toNat_lt
    have hdigit : UInt8.ofNat (b.toNat + 256 * ofLittleEndian bs) = b := by
      apply UInt8.toNat_inj.mp
      rw [UInt8.toNat_ofNat']
      omega
    have hrest : (b.toNat + 256 * ofLittleEndian bs) / 256 = ofLittleEndian bs := by omega
    rw [ofLittleEndian, List.length_cons, littleEndian, hdigit, hrest, ih]

theorem bigEndian_ofBigEndian (bs : Bytes) : bigEndian bs.length (ofBigEndian bs) = bs := by
  have h := littleEndian_ofLittleEndian bs.reverse
  rw [List.length_reverse] at h
  rw [bigEndian, ofBigEndian, h, List.reverse_reverse]

theorem exactly?_toList {n : Nat} (v : Vector UInt8 n) : exactly? n v.toList = some v := by
  rw [exactly?, dif_pos v.length_toList]
  rfl

theorem cut?_append {n : Nat} (v : Vector UInt8 n) (rest : Bytes) :
    cut? n (v.toList ++ rest) = some (v, rest) := by
  have htake : (v.toList ++ rest).take n = v.toList := by
    rw [List.take_append_of_le_length (by simp), List.take_of_length_le (by simp)]
  have hdrop : (v.toList ++ rest).drop n = rest := by
    rw [List.drop_append_of_le_length (by simp), List.drop_of_length_le (by simp), List.nil_append]
  have hlen : ((v.toList ++ rest).take n).length = n := by rw [htake, v.length_toList]
  rw [cut?, dif_pos hlen, hdrop]
  simp only [htake]
  rfl

theorem cut?_eq_none {n : Nat} {bs : Bytes} (h : bs.length < n) : cut? n bs = none := by
  rw [cut?, dif_neg]
  rw [List.length_take]
  omega

theorem exists_vector {n : Nat} {bs : Bytes} (h : bs.length = n) :
    ∃ v : Vector UInt8 n, v.toList = bs :=
  ⟨⟨bs.toArray, by simpa using h⟩, rfl⟩

theorem exists_append_of_le {n : Nat} {bs : Bytes} (h : n ≤ bs.length) :
    ∃ (v : Vector UInt8 n) (rest : Bytes), bs = v.toList ++ rest := by
  obtain ⟨v, hv⟩ := exists_vector (List.length_take_of_le h)
  exact ⟨v, bs.drop n, by rw [hv, List.take_append_drop]⟩

/-- Where two streams begin and end alike, the one cut falls before the other, or not. -/
theorem cases_of_append_eq {data rest front back : Bytes} (h : data ++ rest = front ++ back) :
    (∃ missing, missing ≠ [] ∧ front = data ++ missing ∧ rest = missing ++ back) ∨
      ∃ later, data = front ++ later ∧ later ++ rest = back := by
  rcases List.append_eq_append_iff.mp h with ⟨missing, hm, hr⟩ | ⟨later, hl, hr⟩
  · by_cases hnil : missing = []
    · subst hnil
      rw [List.append_nil] at hm
      rw [List.nil_append] at hr
      exact .inr ⟨[], by rw [List.append_nil, hm], hr⟩
    · exact .inl ⟨missing, hnil, hm, hr⟩
  · exact .inr ⟨later, hl, hr.symm⟩

theorem flatten_blocks {size count : Nat} {bs : Bytes} (h : bs.length ≤ count * size) :
    (blocks size count bs).flatten = bs := by
  induction count generalizing bs with
  | zero =>
    have hnil : bs = [] := List.length_eq_zero_iff.mp (by omega)
    rw [hnil]
    rfl
  | succ count ih =>
    have hlen : (bs.drop size).length ≤ count * size := by
      rw [List.length_drop]
      rw [Nat.succ_mul] at h
      omega
    rw [blocks, List.flatten_cons, ih hlen, List.take_append_drop]

theorem flatten_inBlocks {size : Nat} (hs : 0 < size) (bs : Bytes) :
    (inBlocks size bs).flatten = bs := by
  refine flatten_blocks ?_
  have hdiv := Nat.div_add_mod (bs.length + (size - 1)) size
  have hmod := Nat.mod_lt (bs.length + (size - 1)) hs
  rw [Nat.mul_comm] at hdiv
  omega

end PeerChat.Bytes
