import Mathlib.Data.List.Nodup
import Mathlib.Data.Nat.Init
import PeerChat.Proofs.Session.Sealed
import PeerChat.Session.Attempts

/-!
# Nonces are used once, and in step

A counted nonce tells who sent the message and which of the sender's messages it is: the sender is in
a bit of the first byte, the number in the last eight (`add_marked_inj`).  Sealing and opening
move a sequence on when they succeed and only then, so the two ends of a direction use the same nonces
in the same order (`current_after_of_used`).
-/

namespace PeerChat

namespace Nonces

/-! ## One nonce -/

theorem toUInt8_shiftRight (count : UInt64) {k : Nat} (hk : k < 64) :
    (count >>> UInt64.ofNat k).toUInt8 = UInt8.ofNat (count.toNat / 2 ^ k) := by
  apply UInt8.toNat_inj.mp
  simp [UInt64.toNat_shiftRight, Nat.shiftRight_eq_div_pow, Nat.mod_eq_of_lt hk]

/-- The number stands in the last eight bytes, most significant byte first. -/
theorem toList_mask (count : UInt64) :
    (mask count).toList = List.replicate 4 0 ++ Bytes.bigEndian 8 count.toNat := by
  have digit := fun k (hk : k < 64) => toUInt8_shiftRight count hk
  have last : count.toUInt8 = UInt8.ofNat count.toNat := by
    apply UInt8.toNat_inj.mp
    simp
  have hbytes : Bytes.bigEndian 8 count.toNat =
      [UInt8.ofNat (count.toNat / 2 ^ 56), UInt8.ofNat (count.toNat / 2 ^ 48),
        UInt8.ofNat (count.toNat / 2 ^ 40), UInt8.ofNat (count.toNat / 2 ^ 32),
        UInt8.ofNat (count.toNat / 2 ^ 24), UInt8.ofNat (count.toNat / 2 ^ 16),
        UInt8.ofNat (count.toNat / 2 ^ 8), UInt8.ofNat count.toNat] := by
    simp only [Bytes.bigEndian, Bytes.littleEndian, Nat.div_div_eq_div_mul]
    rfl
  rw [hbytes, ← digit 56 (by decide), ← digit 48 (by decide), ← digit 40 (by decide),
    ← digit 32 (by decide), ← digit 24 (by decide), ← digit 16 (by decide), ← digit 8 (by decide),
    ← last]
  rfl

theorem mask_injective : Function.Injective mask := by
  intro a b h
  have hlist := congrArg Vector.toList h
  rw [toList_mask, toList_mask] at hlist
  have hnumber := congrArg Bytes.ofBigEndian (List.append_cancel_left hlist)
  rw [Bytes.ofBigEndian_bigEndian, Bytes.ofBigEndian_bigEndian] at hnumber
  have ha := a.toNat_lt
  have hb := b.toNat_lt
  apply UInt64.toNat_inj.mp
  omega

theorem add_left_injective (base : Aead.Nonce) : Function.Injective (add base) := by
  intro m m' h
  apply Vector.ext
  intro i hi
  have hbyte := congrArg (fun v : Aead.Nonce => v[i]) h
  simp only [add, Vector.getElem_zipWith] at hbyte
  exact (UInt8.xor_right_inj _).mp hbyte

theorem marker_injective : Function.Injective marker := by
  intro r s h
  cases r <;> cases s <;> first | rfl | exact absurd h (by decide)

theorem add_marked_inj {iv : Aead.Nonce} {r s : Role} {a b : UInt64}
    (h : add (marked iv r) (mask a) = add (marked iv s) (mask b)) : r = s ∧ a = b := by
  have hhead := congrArg (fun v : Aead.Nonce => v[0]) h
  simp only [head_add_mask] at hhead
  obtain rfl := marker_injective ((UInt8.xor_right_inj _).mp hhead)
  exact ⟨rfl, mask_injective (add_left_injective _ h)⟩

/-! ## The sequence -/

theorem after_advance (n : Nonces) (count : Nat) : n.advance.after count = n.after (count + 1) := by
  induction count with
  | zero => rfl
  | succ count ih => exact congrArg advance ih

/-- Every number is used, from zero on. -/
theorem after_counter (base : Aead.Nonce) {count : Nat} (h : count < 2 ^ 64) :
    after ⟨base, .counter, some 0⟩ count = ⟨base, .counter, some (UInt64.ofNat count)⟩ := by
  induction count with
  | zero => rfl
  | succ count ih =>
    have hlast : UInt64.ofNat count ≠ -1 := by
      intro he
      have hnumber := congrArg UInt64.toNat he
      rw [UInt64.toNat_ofNat'] at hnumber
      have hmax : (-1 : UInt64).toNat = 2 ^ 64 - 1 := rfl
      omega
    rw [after, ih (by omega), advance]
    simp only [if_neg hlast, UInt64.ofNat_add, UInt64.ofNat_one]

/-- Once all numbers have been used, there is no nonce any more. -/
theorem next_after_counter (base : Aead.Nonce) {count : Nat} (h : 2 ^ 64 ≤ count) :
    after ⟨base, .counter, some 0⟩ count = ⟨base, .counter, none⟩ := by
  induction count, h using Nat.le_induction with
  | base =>
    have hlast : UInt64.ofNat (2 ^ 64 - 1) = -1 := rfl
    rw [show 2 ^ 64 = (2 ^ 64 - 1) + 1 from rfl, after, after_counter base (by decide), hlast]
    rfl
  | succ count _ ih =>
    rw [after, ih]
    rfl

theorem outbound_counter (keys : SessionKeys) (sender : Role) :
    outbound keys sender .counter = ⟨marked keys.iv sender, .counter, some 0⟩ := rfl

theorem current_outbound_after (keys : SessionKeys) (sender : Role) (index : UInt64) :
    ((outbound keys sender .counter).after index.toNat).current =
      .ok (add (marked keys.iv sender) (mask index)) := by
  rw [outbound_counter, after_counter _ index.toNat_lt, UInt64.ofNat_toNat]
  rfl

/-- A nonce tells its number, and there is none for a number that does not fit. -/
theorem exists_of_current_after {keys : SessionKeys} {sender : Role} {count : Nat}
    {nonce : Aead.Nonce} (h : ((outbound keys sender .counter).after count).current = .ok nonce) :
    ∃ index : UInt64, index.toNat = count ∧ nonce = add (marked keys.iv sender) (mask index) := by
  by_cases hc : count < 2 ^ 64
  · have hcount : (UInt64.ofNat count).toNat = count := by
      rw [UInt64.toNat_ofNat', Nat.mod_eq_of_lt hc]
    rw [← hcount, current_outbound_after] at h
    exact ⟨UInt64.ofNat count, hcount, (Except.ok.inj h).symm⟩
  · rw [outbound_counter, next_after_counter _ (by omega)] at h
    exact absurd h (by simp [current])

/-! ## Attempts -/

section Attempts

variable {α β : Type} {f : Nonces → α → Except CryptoError β × Nonces}

/-- An attempt that succeeds takes the next nonce and moves the sequence on by one; one that fails
leaves the sequence alone. -/
structure Draws (f : Nonces → α → Except CryptoError β × Nonces) : Prop where
  moves : ∀ ⦃n a result later⦄, f n a = (.ok result, later) →
    (∃ nonce, n.current = .ok nonce) ∧ later = n.advance
  stays : ∀ ⦃n a cause later⦄, f n a = (.error cause, later) → later = n

theorem used_of_error {n next : Nonces} {a : α} {cause : CryptoError} (h : f n a = (.error cause, next))
    (later : List α) : used (attemptAll f n (a :: later)).1 = used (attemptAll f next later).1 := by
  rw [attemptAll, h]
  rfl

theorem used_of_ok {n next : Nonces} {a : α} {result : β} {nonce : Aead.Nonce}
    (h : f n a = (.ok result, next)) (hn : n.current = .ok nonce) (later : List α) :
    used (attemptAll f n (a :: later)).1 = nonce :: used (attemptAll f next later).1 := by
  rw [attemptAll, h]
  simp only [used, List.filterMap_cons, hn]

/-- The nonce of the success number `k`, whatever failed between. -/
theorem current_after_of_used (hf : Draws f) {inputs : List α} :
    ∀ {n : Nonces} {k : Nat} {nonce : Aead.Nonce},
      (used (attemptAll f n inputs).1)[k]? = some nonce → (n.after k).current = .ok nonce := by
  induction inputs with
  | nil =>
    intro n k nonce h
    exact absurd h (by simp [attemptAll, used])
  | cons a later ih =>
    intro n k nonce h
    obtain ⟨outcome, next, hr⟩ : ∃ outcome next, f n a = (outcome, next) := ⟨_, _, rfl⟩
    cases outcome with
    | error cause =>
      obtain rfl := hf.stays hr
      rw [used_of_error hr] at h
      exact ih h
    | ok result =>
      obtain ⟨⟨first, hfirst⟩, rfl⟩ := hf.moves hr
      rw [used_of_ok hr hfirst] at h
      cases k with
      | zero =>
        rw [List.getElem?_cons_zero] at h
        exact hfirst.trans (congrArg _ (Option.some.inj h))
      | succ k =>
        rw [List.getElem?_cons_succ] at h
        rw [← after_advance]
        exact ih h

end Attempts

theorem draws_encrypt (keys : SessionKeys) : Draws keys.encrypt where
  moves n message sealed later h := by
    obtain ⟨nonce, hn, -, hl⟩ := SessionKeys.encrypt_eq_ok_iff.mp h
    exact ⟨⟨nonce, hn⟩, hl⟩
  stays _ _ _ _ h := SessionKeys.eq_of_encrypt_error h

theorem draws_decrypt (keys : SessionKeys) : Draws keys.decrypt where
  moves _ _ _ _ h := (draws_encrypt keys).moves (SessionKeys.decrypt_eq_ok_iff.mp h)
  stays _ _ _ _ h := SessionKeys.eq_of_decrypt_error h

/-! ## A whole session -/

/-- The nonces with which an end has sealed messages, if these were all it was asked to seal. -/
def sealedWith (keys : SessionKeys) (sender : Role) (messages : List Bytes) : List Aead.Nonce :=
  used (attemptAll keys.encrypt (outbound keys sender .counter) messages).1

theorem exists_of_sealedWith {keys : SessionKeys} {sender : Role} {messages : List Bytes} {k : Nat}
    {nonce : Aead.Nonce} (h : (sealedWith keys sender messages)[k]? = some nonce) :
    ∃ index : UInt64, index.toNat = k ∧ nonce = add (marked keys.iv sender) (mask index) :=
  exists_of_current_after (current_after_of_used (draws_encrypt keys) h)

theorem nodup_sealedWith (keys : SessionKeys) (sender : Role) (messages : List Bytes) :
    (sealedWith keys sender messages).Nodup := by
  rw [List.nodup_iff_getElem?_ne_getElem?]
  intro i j hij hj he
  obtain ⟨a, ha, hna⟩ := exists_of_sealedWith (he.trans (List.getElem?_eq_getElem hj))
  obtain ⟨b, hb, hnb⟩ := exists_of_sealedWith (List.getElem?_eq_getElem hj)
  obtain ⟨-, rfl⟩ := add_marked_inj (hna.symm.trans hnb)
  omega

theorem disjoint_sealedWith (keys : SessionKeys) {r s : Role} (h : r ≠ s)
    (messages messages' : List Bytes) :
    (sealedWith keys r messages).Disjoint (sealedWith keys s messages') := by
  intro nonce hr hs
  obtain ⟨i, hi⟩ := List.mem_iff_getElem?.mp hr
  obtain ⟨j, hj⟩ := List.mem_iff_getElem?.mp hs
  obtain ⟨a, -, ha⟩ := exists_of_sealedWith hi
  obtain ⟨b, -, hb⟩ := exists_of_sealedWith hj
  exact h (add_marked_inj (ha.symm.trans hb)).1

/-- The nonces with which an end has opened messages, if these were all it was given to open. -/
def openedWith (keys : SessionKeys) (here : Role) (inputs : List Bytes) : List Aead.Nonce :=
  used (attemptAll keys.decrypt (inbound keys here .counter) inputs).1

theorem inbound_peer (keys : SessionKeys) (sender : Role) (mode : NonceMode) :
    inbound keys sender.peer mode = outbound keys sender mode := by
  cases sender <;> rfl

/-- The first `2 ^ 64` nonces of both directions are all different, so no two messages of a session
are sealed with the same nonce; and the success number `k` at opening has the nonce of the success
number `k` at sealing, whatever was refused in between. -/
theorem nonces_fresh_and_in_step (keys : SessionKeys) :
    (∀ (sender : Role) (index : UInt64), ∃ nonce,
      ((outbound keys sender .counter).after index.toNat).current = .ok nonce) ∧
    (Function.Injective fun p : Role × UInt64 =>
      ((outbound keys p.1 .counter).after p.2.toNat).current) ∧
    (∀ messages messages' : List Bytes,
      (sealedWith keys .initiator messages ++ sealedWith keys .responder messages').Nodup) ∧
    ∀ (key : Aead.Key) (sender : Role) (messages inputs : List Bytes) (k : Nat)
      (hk : k < (sealedWith keys sender messages).length)
      (hk' : k < (openedWith ⟨key, keys.iv⟩ sender.peer inputs).length),
      (openedWith ⟨key, keys.iv⟩ sender.peer inputs)[k] = (sealedWith keys sender messages)[k] := by
  refine ⟨fun sender index => ⟨_, current_outbound_after keys sender index⟩, ?_, ?_, ?_⟩
  · intro p q h
    simp only [current_outbound_after, Except.ok.injEq] at h
    obtain ⟨hrole, hindex⟩ := add_marked_inj h
    exact Prod.ext hrole hindex
  · intro messages messages'
    exact List.Nodup.append (nodup_sealedWith ..) (nodup_sealedWith ..)
      (disjoint_sealedWith keys (by decide) ..)
  · intro key sender messages inputs k hk hk'
    have hsealed := current_after_of_used (draws_encrypt keys) (List.getElem?_eq_getElem hk)
    have hopened := current_after_of_used (draws_decrypt ⟨key, keys.iv⟩)
      (List.getElem?_eq_getElem hk')
    have hsame : outbound ⟨key, keys.iv⟩ sender .counter = outbound keys sender .counter := rfl
    rw [inbound_peer, hsame, hsealed] at hopened
    exact (Except.ok.inj hopened).symm

end Nonces

end PeerChat
