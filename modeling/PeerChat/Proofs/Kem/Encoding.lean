import Mathlib.Algebra.Group.Nat.Defs
import PeerChat.Kem.MlKem512

/-!
# The keys that are made are keys

A polynomial that is written bit by bit is read back as it was (`decode_encode`).  So a public key that
has been made passes the check of those who wrap a secret for it, and only want of random bytes can
make the key exchange fail (`exists_keyPair`, `exists_encapsulate`).
-/

namespace PeerChat.MlKem512

/-! ## Bits -/

/-- The number with the given bits below position `n`. -/
theorem testBit_foldl (bit : Nat → Bool) (n j : Nat) :
    ((List.range n).foldl (fun acc b => acc + (bit b).toNat <<< b) 0).testBit j =
      (decide (j < n) && bit j) := by
  have hall : ((List.range n).foldl (fun acc b => acc + (bit b).toNat <<< b) 0) < 2 ^ n ∧
      ∀ j, ((List.range n).foldl (fun acc b => acc + (bit b).toNat <<< b) 0).testBit j =
        (decide (j < n) && bit j) := by
    induction n with
    | zero => simp
    | succ n ih =>
      obtain ⟨hlt, htest⟩ := ih
      rw [List.range_succ, List.foldl_append]
      generalize (List.range n).foldl (fun acc b => acc + (bit b).toNat <<< b) 0 = low at hlt htest
      have hvalue : [n].foldl (fun acc b => acc + (bit b).toNat <<< b) low =
          2 ^ n * (bit n).toNat + low := by
        rw [List.foldl_cons, List.foldl_nil, Nat.shiftLeft_eq, Nat.mul_comm, Nat.add_comm]
      rw [hvalue]
      constructor
      · rw [Nat.pow_succ]
        cases bit n with
        | false => simpa using Nat.lt_of_lt_of_le hlt (Nat.le_mul_of_pos_right _ (by decide))
        | true =>
          rw [Bool.toNat_true, Nat.mul_one]
          omega
      · intro j
        rw [Nat.testBit_two_pow_mul_add _ hlt]
        by_cases hj : j < n
        · rw [if_pos hj, htest]
          simp [hj, Nat.lt_succ_of_lt hj]
        · rw [if_neg hj, Nat.testBit_bool_toNat]
          by_cases he : j = n
          · simp [he]
          · rw [decide_eq_false (by omega : ¬ j - n = 0), decide_eq_false (by omega : ¬ j < n + 1),
              Bool.false_and, Bool.false_and]
  exact hall.2 j

theorem shiftRight_mod_two (x k : Nat) : x >>> k % 2 = (x.testBit k).toNat := by
  rw [Nat.toNat_testBit, Nat.shiftRight_eq_div_pow]

/-! ## Polynomials -/

theorem testBit_encode {width : Nat} (f : Vector Nat 256) {byte b : Nat} (hbyte : byte < 32 * width)
    (hb : b < 8) : (encode width f)[byte].toNat.testBit b =
      (f.toArray.getD ((8 * byte + b) / width) 0).testBit ((8 * byte + b) % width) := by
  simp only [encode, Vector.getElem_ofFn, shiftRight_mod_two]
  rw [UInt8.toNat_ofNat', Nat.testBit_mod_two_pow, testBit_foldl]
  simp [hb]

theorem testBit_decode {width : Nat} (bytes : Vector UInt8 (32 * width)) {i j : Nat} (hi : i < 256) :
    (decode width bytes)[i].testBit j = (decide (j < width) &&
      (bytes.toArray.getD ((width * i + j) / 8) 0).toNat.testBit ((width * i + j) % 8)) := by
  simp only [decode, Vector.getElem_ofFn, shiftRight_mod_two]
  exact testBit_foldl _ width j

theorem decode_encode {width : Nat} {f : Vector Nat 256} (hf : ∀ i (h : i < 256), f[i] < 2 ^ width) :
    decode width (encode width f) = f := by
  apply Vector.ext
  intro i hi
  apply Nat.eq_of_testBit_eq
  intro j
  rw [testBit_decode _ hi]
  by_cases hj : j < width
  · have hbyte : (width * i + j) / 8 < 32 * width := by
      have hrow : width * (i + 1) ≤ width * 256 := Nat.mul_le_mul_left width hi
      rw [Nat.mul_succ] at hrow
      omega
    have hplace : 8 * ((width * i + j) / 8) + (width * i + j) % 8 = width * i + j := Nat.div_add_mod ..
    have hbit := testBit_encode f hbyte (Nat.mod_lt (width * i + j) (by decide : 0 < 8))
    rw [hplace, Nat.mul_add_div (by omega), Nat.div_eq_of_lt hj, Nat.add_zero, Nat.mul_add_mod,
      Nat.mod_eq_of_lt hj] at hbit
    simp only [Array.getD_eq_getD_getElem?, Vector.getElem?_toArray, Vector.getElem?_eq_getElem hbyte,
      Vector.getElem?_eq_getElem hi, Option.getD_some] at hbit ⊢
    rw [hbit, decide_eq_true hj, Bool.true_and]
  · have hhigh : f[i] < 2 ^ j :=
      Nat.lt_of_lt_of_le (hf i hi) (Nat.pow_le_pow_right (by decide) (Nat.not_lt.mp hj))
    rw [decide_eq_false hj, Bool.false_and, Nat.testBit_lt_two_pow hhigh]

theorem isReduced_encodeFull (f : Poly) : isReduced (encodeFull f) = true := by
  have hread : decode 12 (encodeFull f) = f.map fun c => c.val := by
    refine decode_encode fun i hi => ?_
    rw [Vector.getElem_map]
    exact Nat.lt_trans f[i].isLt (by decide)
  rw [isReduced, hread, Vector.all_eq_true]
  intro i hi
  rw [Vector.getElem_map]
  exact decide_eq_true f[i].isLt

/-! ## Keys -/

theorem keyHalves_append (first second : Vector UInt8 384) (seed : Seed) :
    keyHalves (first ++ second ++ seed) = #v[first, second] := by
  have hfirst : slice (first ++ second ++ seed) 0 384 = first := by
    apply Vector.ext
    intro i hi
    simp only [slice, Vector.getElem_ofFn, Nat.zero_add]
    rw [Vector.getElem_append_left (by omega), Vector.getElem_append_left hi]
  have hsecond : slice (first ++ second ++ seed) 384 384 = second := by
    apply Vector.ext
    intro i hi
    simp only [slice, Vector.getElem_ofFn]
    rw [Vector.getElem_append_left (by omega), Vector.getElem_append_right (by omega) (by omega)]
    simp only [Nat.add_sub_cancel_left]
  exact (congrArg (fun half => #v[half, _]) hfirst).trans (congrArg (fun half => #v[first, half]) hsecond)

theorem isKey_keysOfSeeds (d z : Seed) : isKey (keysOfSeeds d z).publicKey = true := by
  have hall : ∀ first second : Poly,
      (#v[encodeFull first, encodeFull second] : Vector _ 2).all isReduced = true := by
    intro first second
    simp [isReduced_encodeFull]
  rw [isKey, keysOfSeeds, encryptionKeys, keyHalves_append]
  exact hall _ _

theorem exists_draw {n : Nat} {pool : Entropy} (h : n ≤ pool.length) :
    ∃ bytes : Vector UInt8 n, pool.draw? n = some (bytes, pool.drop n) := by
  have hlen : (pool.take n).length = n := by
    rw [List.length_take]
    omega
  exact ⟨_, dif_pos hlen⟩

/-- Two seeds are enough for a pair of keys. -/
theorem exists_keyPair {pool : Entropy} (h : 64 ≤ pool.length) :
    ∃ d z, keyPair pool = (.ok (keysOfSeeds d z), pool.drop 64) := by
  obtain ⟨d, hd⟩ : ∃ d : Seed, pool.draw? 32 = some (d, pool.drop 32) := exists_draw (by omega)
  obtain ⟨z, hz⟩ : ∃ z : Seed, Entropy.draw? 32 (pool.drop 32) = some (z, (pool.drop 32).drop 32) :=
    exists_draw (by rw [List.length_drop]; omega)
  refine ⟨d, z, ?_⟩
  simp only [keyPair, hd, hz, List.drop_drop]

/-- A secret can be wrapped for a key that has been made. -/
theorem exists_encapsulate {pool left coins : Entropy} {pair : KeyPair}
    (h : keyPair pool = (.ok pair, left)) (hcoins : 32 ≤ coins.length) :
    ∃ wrapped secret, encapsulate pair.publicKey coins = (.ok (wrapped, secret), coins.drop 32) := by
  obtain ⟨d, z, rfl⟩ : ∃ d z, pair = keysOfSeeds d z := by
    unfold keyPair at h
    split at h
    · exact absurd (Prod.mk.inj h).1 (by simp)
    · split at h
      · exact absurd (Prod.mk.inj h).1 (by simp)
      · exact ⟨_, _, (Except.ok.inj (Prod.mk.inj h).1).symm⟩
  obtain ⟨m, hm⟩ : ∃ m : Seed, coins.draw? 32 = some (m, coins.drop 32) := exists_draw hcoins
  refine ⟨(wrap (keysOfSeeds d z).publicKey m).1, (wrap (keysOfSeeds d z).publicKey m).2, ?_⟩
  rw [encapsulate, if_pos (isKey_keysOfSeeds d z), hm]

end PeerChat.MlKem512
