import Mathlib.Data.List.Basic
import PeerChat.Cipher.Aead

/-!
# Sealing and opening

Adding the key stream twice gives the message back (`apply_apply`), and it is as long as it has to
be, so opening undoes sealing and opens nothing else: `open?_eq_some_iff`.
-/

namespace PeerChat

namespace ChaCha20

variable (key : Vector UInt8 32) (nonce : Vector UInt8 12) (first : Nat)

theorem le_length_keyStream (size : Nat) : size ≤ (keyStream key nonce first size).length := by
  have h : (keyStream key nonce first size).length = ((size + 63) / 64) * 64 := by
    simp [keyStream, List.length_flatMap]
  omega

@[simp] theorem length_apply (message : Bytes) :
    (apply key nonce first message).length = message.length := by
  have h := le_length_keyStream key nonce first message.length
  rw [apply, List.length_zipWith]
  omega

theorem zipWith_xor_zipWith_xor (message stream : Bytes) (h : message.length ≤ stream.length) :
    List.zipWith (· ^^^ ·) (List.zipWith (· ^^^ ·) message stream) stream = message := by
  induction message generalizing stream with
  | nil => rfl
  | cons m message ih =>
    cases stream with
    | nil => exact absurd h (by simp)
    | cons b stream =>
      rw [List.zipWith_cons_cons, List.zipWith_cons_cons, UInt8.xor_assoc, UInt8.xor_self,
        UInt8.xor_zero, ih stream (by simpa using h)]

theorem apply_apply (message : Bytes) :
    apply key nonce first (apply key nonce first message) = message := by
  rw [apply, length_apply, apply]
  exact zipWith_xor_zipWith_xor message _ (le_length_keyStream key nonce first message.length)

end ChaCha20

namespace Aead

variable {key : Key} {nonce : Nonce} {message sealed : Bytes}

@[simp] theorem length_tag (text : Bytes) : (tag key nonce text).length = tagSize :=
  Poly1305.length_tag _ _

theorem seal?_eq_some_iff : seal? key nonce message = some sealed ↔
    message.length < maxMessage ∧
      sealed = ChaCha20.apply key nonce 1 message ++
        tag key nonce (ChaCha20.apply key nonce 1 message) := by
  unfold seal?
  split
  · rename_i h
    simp [h, eq_comm]
  · rename_i h
    simp [h]

theorem length_of_seal? (h : seal? key nonce message = some sealed) :
    sealed.length = message.length + tagSize := by
  obtain ⟨-, rfl⟩ := seal?_eq_some_iff.mp h
  rw [List.length_append, ChaCha20.length_apply, length_tag]

/-- What opens is what was sealed. -/
theorem open?_eq_some_iff :
    open? key nonce sealed = some message ↔ seal? key nonce message = some sealed := by
  rw [seal?_eq_some_iff]
  constructor
  · intro h
    unfold open? at h
    split at h
    · exact absurd h (by simp)
    · simp only [] at h
      split at h
      · rename_i hlen ht
        obtain ⟨hmax, htag⟩ := ht
        obtain rfl := Option.some.inj h
        refine ⟨by rw [ChaCha20.length_apply]; exact hmax, ?_⟩
        rw [ChaCha20.apply_apply, ← htag, List.take_append_drop]
      · exact absurd h (by simp)
  · rintro ⟨hmax, rfl⟩
    have htext := ChaCha20.length_apply key nonce 1 message
    have hlen : (ChaCha20.apply key nonce 1 message ++
        tag key nonce (ChaCha20.apply key nonce 1 message)).length - tagSize =
        (ChaCha20.apply key nonce 1 message).length := by
      rw [List.length_append, length_tag, Nat.add_sub_cancel]
    have hlong : ¬ (ChaCha20.apply key nonce 1 message ++
        tag key nonce (ChaCha20.apply key nonce 1 message)).length < tagSize := by
      rw [List.length_append, length_tag]
      omega
    rw [open?, if_neg hlong]
    simp only [hlen, List.take_left, List.drop_left]
    rw [if_pos ⟨by omega, trivial⟩, ChaCha20.apply_apply]

end Aead

end PeerChat
