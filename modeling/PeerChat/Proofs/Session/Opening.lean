import PeerChat.Proofs.Session.Nonces

/-!
# Opening accepts what sealing makes, and nothing else

Under the next nonce of a sequence a byte string opens exactly if it is a sealed message, and the
refusal of any other leaves no trace (`decrypt_iff_encrypt`).  So whatever is put between sealed
messages, they open in order (`gained_of_mixed`).
-/

namespace PeerChat

namespace Aead

variable {key : Key} {nonce : Nonce} {message text mac : Bytes}

/-- A sealed message ends in the tag of what precedes it. -/
theorem eq_tag_of_seal? (h : seal? key nonce message = some (text ++ mac))
    (hlen : mac.length = tagSize) : mac = tag key nonce text := by
  obtain ⟨-, he⟩ := seal?_eq_some_iff.mp h
  obtain ⟨rfl, htag⟩ := List.append_inj' he (by rw [hlen, length_tag])
  exact htag

end Aead

namespace SessionKeys

variable {keys : SessionKeys} {n next last : Nonces} {nonce : Aead.Nonce}
  {message sealed text mac mac' : Bytes}

/-- The byte string is a message sealed under the next nonce. -/
def IsSealed (keys : SessionKeys) (n : Nonces) (sealed : Bytes) : Prop :=
  ∃ message later, keys.encrypt n message = (.ok sealed, later)

/-! ## What is refused -/

theorem exists_error_of_not_isSealed (h : ¬ keys.IsSealed n sealed) :
    ∃ cause, keys.decrypt n sealed = (.error cause, n) := by
  obtain ⟨outcome, later, hd⟩ : ∃ outcome later, keys.decrypt n sealed = (outcome, later) :=
    ⟨_, _, rfl⟩
  cases outcome with
  | error cause =>
    obtain rfl := eq_of_decrypt_error hd
    exact ⟨cause, hd⟩
  | ok message => exact absurd ⟨message, later, decrypt_eq_ok_iff.mp hd⟩ h

/-- While there is a nonce, every refusal is for the same reason. -/
theorem decrypt_eq_openFailed (hn : n.current = .ok nonce) (h : ¬ keys.IsSealed n sealed) :
    keys.decrypt n sealed = (.error .openFailed, n) := by
  obtain ⟨cause, hcause⟩ := exists_error_of_not_isSealed h
  have hopen := hcause
  unfold decrypt at hopen
  split at hopen
  · rw [hcause, ← hopen]
  · rw [hn] at hopen
    dsimp only at hopen
    split at hopen
    · exact absurd (Prod.mk.inj hopen).1 (by simp)
    · rw [hcause, ← hopen]

theorem not_isSealed_of_short (h : sealed.length < Aead.tagSize) : ¬ keys.IsSealed n sealed := by
  rintro ⟨message, later, he⟩
  have hlen := length_of_encrypt he
  omega

/-- No two tags go with one text. -/
theorem not_isSealed_of_tag_ne (he : keys.encrypt n message = (.ok (text ++ mac), next))
    (hlen : mac.length = Aead.tagSize) (hlen' : mac'.length = Aead.tagSize) (hne : mac' ≠ mac) :
    ¬ keys.IsSealed n (text ++ mac') := by
  rintro ⟨other, later, he'⟩
  obtain ⟨nonce, hn, hs, -⟩ := encrypt_eq_ok_iff.mp he
  obtain ⟨nonce', hn', hs', -⟩ := encrypt_eq_ok_iff.mp he'
  obtain rfl := Except.ok.inj (hn.symm.trans hn')
  exact hne ((Aead.eq_tag_of_seal? hs' hlen').trans (Aead.eq_tag_of_seal? hs hlen).symm)

/-! ## Sealed messages among others -/

/-- What arrives at an end: the sealed messages in order, with anything between them that is not a
sealed message at its place. -/
inductive Mixed (keys : SessionKeys) : Nonces → List Bytes → List Bytes → Prop
  | nil (n : Nonces) : Mixed keys n [] []
  | genuine {n : Nonces} {sealed : Bytes} {all arrived : List Bytes} :
      Mixed keys n.advance all arrived → Mixed keys n (sealed :: all) (sealed :: arrived)
  | stray {n : Nonces} {other : Bytes} {all arrived : List Bytes} :
      ¬ keys.IsSealed n other → Mixed keys n all arrived → Mixed keys n all (other :: arrived)

theorem encryptAll_cons {later : List Bytes} {all : List Bytes}
    (h : keys.encryptAll n (message :: later) = .ok (all, last)) :
    ∃ sealed next rest, all = sealed :: rest ∧ keys.encrypt n message = (.ok sealed, next) ∧
      keys.encryptAll next later = .ok (rest, last) := by
  rw [encryptAll] at h
  obtain ⟨outcome, next, he⟩ : ∃ outcome next, keys.encrypt n message = (outcome, next) :=
    ⟨_, _, rfl⟩
  rw [he] at h
  cases outcome with
  | error cause => exact absurd h (by simp)
  | ok sealed =>
    simp only [bind, Except.bind] at h
    cases hr : keys.encryptAll next later with
    | error cause =>
      rw [hr] at h
      exact absurd h (by simp)
    | ok rest =>
      obtain ⟨rest, last'⟩ := rest
      rw [hr] at h
      simp only [pure, Except.pure, Except.ok.injEq, Prod.mk.injEq] at h
      obtain ⟨rfl, rfl⟩ := h
      exact ⟨sealed, next, rest, rfl, he, hr⟩

/-- What opens of what arrives is the messages, in order, and the sequence ends where sealing them
ended. -/
theorem gained_of_mixed {all arrived : List Bytes} (h : Mixed keys n all arrived) :
    ∀ {messages : List Bytes}, keys.encryptAll n messages = .ok (all, last) →
      Nonces.gained (Nonces.attemptAll keys.decrypt n arrived).1 = messages ∧
        (Nonces.attemptAll keys.decrypt n arrived).2 = last := by
  induction h with
  | nil n =>
    intro messages hm
    cases messages with
    | nil => exact ⟨rfl, (Prod.mk.inj (Except.ok.inj hm)).2⟩
    | cons message later =>
      obtain ⟨sealed, next, rest, he, -⟩ := encryptAll_cons hm
      exact absurd he (by simp)
  | @genuine n sealed all arrived _ ih =>
    intro messages hm
    cases messages with
    | nil => exact absurd (Prod.mk.inj (Except.ok.inj hm)).1 (by simp)
    | cons message later =>
      obtain ⟨sealed, next, rest, he, hs, hrest⟩ := encryptAll_cons hm
      obtain ⟨rfl, rfl⟩ := List.cons.inj he
      obtain ⟨-, rfl⟩ := (Nonces.draws_encrypt keys).moves hs
      obtain ⟨hgained, hlast⟩ := ih hrest
      rw [Nonces.attemptAll, decrypt_eq_ok_iff.mpr hs]
      exact ⟨congrArg (message :: ·) hgained, hlast⟩
  | @stray n other all arrived hstray _ ih =>
    intro messages hm
    obtain ⟨cause, hrefused⟩ := exists_error_of_not_isSealed hstray
    rw [Nonces.attemptAll, hrefused]
    exact ih hm

/-- As long as there is a nonce: a byte string opens to a message exactly if the message is sealed to
it, and the sequence moves on alike; any other is refused and the sequence stays.  So sealed messages
open in order whatever stands between them, such as sealed texts with another tag and byte strings
that have no room for a tag. -/
theorem decrypt_iff_encrypt (keys : SessionKeys) (hn : n.current = .ok nonce) :
    (∀ message sealed later, keys.decrypt n sealed = (.ok message, later) ↔
      keys.encrypt n message = (.ok sealed, later)) ∧
    (∀ sealed, ¬ keys.IsSealed n sealed → keys.decrypt n sealed = (.error .openFailed, n)) ∧
    (∀ messages all last arrived, keys.encryptAll n messages = .ok (all, last) →
      Mixed keys n all arrived →
      Nonces.gained (Nonces.attemptAll keys.decrypt n arrived).1 = messages ∧
        (Nonces.attemptAll keys.decrypt n arrived).2 = last) ∧
    (∀ sealed, sealed.length < Aead.tagSize → ¬ keys.IsSealed n sealed) ∧
    ∀ message text mac mac' later, keys.encrypt n message = (.ok (text ++ mac), later) →
      mac.length = Aead.tagSize → mac'.length = Aead.tagSize → mac' ≠ mac →
      ¬ keys.IsSealed n (text ++ mac') := by
  refine ⟨fun _ _ _ => decrypt_eq_ok_iff, fun _ h => decrypt_eq_openFailed hn h, ?_,
    fun _ h => not_isSealed_of_short h, ?_⟩
  · intro messages all last arrived hm hmixed
    exact gained_of_mixed hmixed hm
  · intro message text mac mac' later he hlen hlen' hne
    exact not_isSealed_of_tag_ne he hlen hlen' hne

/-- Two messages, the second of them empty, behind a byte string without a tag and one with a tag that
is not its own. -/
theorem decrypt_iff_encrypt_hi :
    let keys : SessionKeys := ⟨.replicate 32 7, .replicate 12 9⟩
    let n := Nonces.outbound keys .responder .counter
    let text : Bytes := [123, 137]
    let mac : Bytes := [2, 189, 181, 107, 253, 68, 49, 134, 33, 99, 221, 227, 146, 57, 13, 47]
    let mac' : Bytes := [2, 189, 181, 107, 253, 68, 49, 134, 33, 99, 221, 227, 146, 57, 13, 46]
    let empty : Bytes := [107, 49, 103, 234, 193, 69, 165, 120, 230, 160, 108, 188, 138, 219, 220, 119]
    (∃ nonce, n.current = .ok nonce) ∧ keys.decrypt n (text ++ mac) = (.ok [104, 105], n.advance) ∧
      keys.decrypt n (text ++ mac') = (.error .openFailed, n) ∧
      Nonces.gained (Nonces.attemptAll keys.decrypt n
        [[1, 2, 3], text ++ mac', text ++ mac, [1, 2, 3], empty]).1 = [[104, 105], []] := by
  intro keys n text mac mac' empty
  have hn : n.current = .ok #v[137, 9, 9, 9, 9, 9, 9, 9, 9, 9, 9, 9] := by decide +kernel
  have hfirst : keys.encrypt n [104, 105] = (.ok (text ++ mac), n.advance) := by decide +kernel
  have hall : keys.encryptAll n [[104, 105], []] =
      .ok ([text ++ mac, empty], n.advance.advance) := by decide +kernel
  obtain ⟨hiff, hrefused, hmixed, hshort, htag⟩ := decrypt_iff_encrypt keys hn
  have hforged : ¬ keys.IsSealed n (text ++ mac') :=
    htag _ text mac mac' _ hfirst (by decide) (by decide) (by decide)
  have hsecond : ¬ keys.IsSealed n.advance [1, 2, 3] := not_isSealed_of_short (by decide)
  refine ⟨⟨_, hn⟩, (hiff _ _ _).mpr hfirst, hrefused _ hforged, ?_⟩
  exact (hmixed _ _ _ _ hall (.stray (hshort _ (by decide)) (.stray hforged
    (.genuine (.stray hsecond (.genuine (.nil _))))))).1

end SessionKeys

end PeerChat
