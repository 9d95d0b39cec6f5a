import PeerChat.Proofs.Cipher.Aead
import PeerChat.Proofs.Stream.Frame
import PeerChat.Proofs.Text.Utf8
import PeerChat.Session.Sealed

/-!
# Sealing a sequence of messages

Opening undoes sealing and moves the nonces in the same way (`decrypt_eq_ok_iff`); a failure of either
leaves them as they were.  `Sealing` is a
whole sequence of texts that are sealed one after the other; it can be grown at its end, where the
sender is, and cut in two, where the receiver is.  Counted nonces run out only after `2 ^ 64`
messages (`Sealing.exhausted`).
-/

namespace PeerChat

namespace SessionKeys

variable {keys : SessionKeys} {nonces later : Nonces} {message sealed : Bytes}

theorem encrypt_eq_ok_iff : keys.encrypt nonces message = (.ok sealed, later) ↔
    ∃ nonce, nonces.current = .ok nonce ∧ Aead.seal? keys.key nonce message = some sealed ∧
      later = nonces.advance := by
  unfold encrypt
  cases nonces.current with
  | error cause => simp
  | ok nonce =>
    simp only [Except.ok.injEq, exists_eq_left']
    cases Aead.seal? keys.key nonce message with
    | none => simp
    | some c => simp [eq_comm]

theorem decrypt_eq_ok_iff : keys.decrypt nonces sealed = (.ok message, later) ↔
    keys.encrypt nonces message = (.ok sealed, later) := by
  rw [encrypt_eq_ok_iff]
  unfold decrypt
  split
  · rename_i hshort
    simp only [Prod.mk.injEq, reduceCtorEq, false_and, false_iff, not_exists, not_and]
    intro nonce _ hs
    have := Aead.length_of_seal? hs
    omega
  · cases nonces.current with
    | error cause => simp
    | ok nonce =>
      simp only [Except.ok.injEq, exists_eq_left', ← Aead.open?_eq_some_iff]
      cases Aead.open? keys.key nonce sealed with
      | none => simp
      | some m => simp [eq_comm]

/-- A message that cannot be sealed uses no nonce. -/
theorem eq_of_encrypt_error {cause : CryptoError}
    (h : keys.encrypt nonces message = (.error cause, later)) : later = nonces := by
  unfold encrypt at h
  split at h
  · exact (Prod.mk.inj h).2.symm
  · split at h
    · exact absurd (Prod.mk.inj h).1 (by simp)
    · exact (Prod.mk.inj h).2.symm

/-- A byte string that does not open uses no nonce. -/
theorem eq_of_decrypt_error {cause : CryptoError}
    (h : keys.decrypt nonces sealed = (.error cause, later)) : later = nonces := by
  unfold decrypt at h
  split at h
  · exact (Prod.mk.inj h).2.symm
  · split at h
    · exact (Prod.mk.inj h).2.symm
    · split at h
      · exact absurd (Prod.mk.inj h).1 (by simp)
      · exact (Prod.mk.inj h).2.symm

theorem length_of_encrypt (h : keys.encrypt nonces message = (.ok sealed, later)) :
    sealed.length = message.length + Aead.tagSize := by
  obtain ⟨nonce, -, hs, -⟩ := encrypt_eq_ok_iff.mp h
  exact Aead.length_of_seal? hs

/-- A message that the cipher has room for fails only for want of a nonce. -/
theorem current_eq_error_of_encrypt {cause : CryptoError}
    (hlen : message.length < Aead.maxMessage)
    (h : keys.encrypt nonces message = (.error cause, later)) :
    nonces.mode = .counter ∧ nonces.next = none := by
  unfold encrypt at h
  cases hc : nonces.current with
  | ok nonce =>
    rw [hc] at h
    simp [Aead.seal?, hlen] at h
  | error cause' =>
    unfold Nonces.current at hc
    split at hc
    · exact absurd hc (by simp)
    · rename_i hm
      split at hc
      · exact absurd hc (by simp)
      · rename_i hn
        exact ⟨hm, hn⟩

end SessionKeys

/-- The texts are sealed in turn, from the first nonces to the last. -/
inductive Sealing (keys : SessionKeys) : Nonces → List String → List Bytes → Nonces → Prop
  | nil (n : Nonces) : Sealing keys n [] [] n
  | cons {n next last : Nonces} {text : String} {sealed : Bytes} {texts : List String}
      {all : List Bytes} :
      keys.encrypt n (Utf8.encode text) = (.ok sealed, next) → Sealing keys next texts all last →
      Sealing keys n (text :: texts) (sealed :: all) last

namespace Sealing

variable {keys : SessionKeys} {first last : Nonces} {texts : List String} {all : List Bytes}

theorem concat (h : Sealing keys first texts all last) {text : String} {sealed : Bytes}
    {next : Nonces} (he : keys.encrypt last (Utf8.encode text) = (.ok sealed, next)) :
    Sealing keys first (texts ++ [text]) (all ++ [sealed]) next := by
  induction h with
  | nil n => exact .cons he (.nil next)
  | cons hc _ ih => exact .cons hc (ih he)

theorem split {done left : List Bytes} (h : Sealing keys first texts (done ++ left) last) :
    ∃ before after middle, texts = before ++ after ∧ Sealing keys first before done middle ∧
      Sealing keys middle after left last := by
  induction done generalizing first texts with
  | nil => exact ⟨[], texts, first, rfl, .nil first, h⟩
  | cons c done ih =>
    cases h with
    | cons hc hrest =>
      obtain ⟨before, after, middle, rfl, hb, ha⟩ := ih hrest
      exact ⟨_ :: before, after, middle, rfl, .cons hc hb, ha⟩

theorem fits (h : Sealing keys first texts all last)
    (ht : ∀ text ∈ texts, text.utf8ByteSize ≤ 1024) :
    ∀ c ∈ all, Frame.Fits Frame.maxPayload c := by
  induction h with
  | nil n => exact fun c hc => absurd hc (by simp)
  | @cons n next last text sealed texts all hc _ ih =>
    intro c hm
    rcases List.mem_cons.mp hm with rfl | hm
    · have hlen := SessionKeys.length_of_encrypt hc
      have hsize := ht text (List.mem_cons_self ..)
      rw [Utf8.length_encode] at hlen
      have htag : Aead.tagSize = 16 := rfl
      have hmax : Frame.maxPayload = 65536 := rfl
      exact ⟨by omega, by omega⟩
    · exact ih (fun t hm => ht t (List.mem_cons_of_mem text hm)) c hm

/-- Counted nonces move on by one with each message. -/
theorem next_toNat (h : Sealing keys first texts all last) {count : UInt64}
    (hm : first.mode = .counter) (hn : first.next = some count) :
    last.mode = .counter ∧ (last.next = none → 2 ^ 64 ≤ count.toNat + texts.length) ∧
      ∀ c, last.next = some c → c.toNat = count.toNat + texts.length := by
  induction h generalizing count with
  | nil n =>
    refine ⟨hm, ?_, ?_⟩
    · intro hnone
      rw [hn] at hnone
      exact absurd hnone (by simp)
    · intro c hc
      rw [hn] at hc
      rw [Option.some.inj hc]
      rfl
  | @cons n next last text sealed texts all hc hrest ih =>
    obtain ⟨-, -, -, rfl⟩ := SessionKeys.encrypt_eq_ok_iff.mp hc
    have hadv : n.advance = { n with next := if count = -1 then none else some (count + 1) } := by
      rw [Nonces.advance]
      simp only [hm, hn]
    have hmode : n.advance.mode = .counter := by rw [hadv]; exact hm
    by_cases hlast : count = -1
    · -- The last number has been used, so nothing can follow.
      have hnone : n.advance.next = none := by rw [hadv]; simp [hlast]
      cases hrest with
      | nil _ =>
        refine ⟨hmode, fun _ => ?_, fun c hc => ?_⟩
        · rw [hlast]
          exact (by decide : 2 ^ 64 ≤ (-1 : UInt64).toNat + 1)
        · rw [hnone] at hc
          exact absurd hc (by simp)
      | cons hc' _ =>
        obtain ⟨nonce, hcur, -, -⟩ := SessionKeys.encrypt_eq_ok_iff.mp hc'
        rw [Nonces.current, hmode, hnone] at hcur
        exact absurd hcur (by simp)
    · have hsome : n.advance.next = some (count + 1) := by rw [hadv]; simp [hlast]
      have hsucc : (count + 1).toNat = count.toNat + 1 := by
        have hne : count.toNat ≠ 2 ^ 64 - 1 := by
          intro he
          exact hlast (UInt64.toNat_inj.mp he)
        have hlt := count.toNat_lt
        rw [UInt64.toNat_add]
        change (count.toNat + 1) % 2 ^ 64 = _
        exact Nat.mod_eq_of_lt (by omega)
      obtain ⟨hl, hnone, hc⟩ := ih hmode hsome
      rw [List.length_cons]
      refine ⟨hl, fun h => ?_, fun c h => ?_⟩
      · have := hnone h
        omega
      · have := hc c h
        omega

theorem mode_eq (h : Sealing keys first texts all last) : last.mode = first.mode := by
  induction h with
  | nil n => rfl
  | @cons n next last text sealed texts all hc _ ih =>
    obtain ⟨-, -, -, rfl⟩ := SessionKeys.encrypt_eq_ok_iff.mp hc
    rw [ih, Nonces.advance]
    split
    · rfl
    · split <;> rfl

/-- A sequence that starts with the first nonce runs out only after `2 ^ 64` messages. -/
theorem exhausted {iv : Aead.Nonce} {sender : Role} {mode : NonceMode}
    (h : Sealing keys (.ofSender iv sender mode) texts all last) (hm : last.mode = .counter)
    (hn : last.next = none) : mode = .counter ∧ 2 ^ 64 ≤ texts.length := by
  have hmode : mode = .counter := by
    rw [h.mode_eq] at hm
    cases mode with
    | counter => rfl
    | static => exact hm
  subst hmode
  have hlen := (h.next_toNat rfl rfl).2.1 hn
  exact ⟨rfl, by simpa using hlen⟩

end Sealing

end PeerChat
