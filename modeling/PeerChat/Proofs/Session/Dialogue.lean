import PeerChat.Proofs.Kem.Encoding
import PeerChat.Proofs.Session.Joining

/-!
# A direct connection from the request to the end of the chat

Whatever two honest ends type, and however their bytes are cut and their steps interleaved, each
shows a beginning of what the other has sent, and all of it once everything has arrived
(`faithful_run`), to which it always can come (`exists_settled_run`).
-/

namespace PeerChat.Dialogue

variable {u : Setup} {d : Dialogue}

/-! ## What an end may rely on -/

/-- What holds of an end at every moment of a call. -/
structure Faithful (u : Setup) (d : Dialogue) (r : Role) : Prop where
  /-- What it has shown is the beginning of what the other end has sent. -/
  heard_sent : (d.side r).heard <+: (d.side r.peer).sent
  senders : ∀ m ∈ messages (d.side r).shown, m.1 = u.label r
  /-- Each text that was too long is reported, and nothing else is. -/
  sizes_eq : sizes (d.side r).shown = oversized (d.side r).typed
  intact : ∀ name, .decryptionFailed name ∉ (d.side r).shown
  /-- The other end is shown to be gone after all that it has sent. -/
  closed : ∀ name, .closed name ∈ (d.side r).shown →
    (d.side r).heard = (d.side r.peer).sent ∧ (d.side r.peer).isOver = true
  /-- Nothing is lost: once nothing is on the way, all has been shown. -/
  whole : ∀ chat, (d.side r).stage = .chatting chat → chat.result = none → d.toward r = [] →
    (d.side r).heard = (d.side r.peer).sent
  keys_eq : ∀ chat chat', (d.side r).stage = .chatting chat →
    (d.side r.peer).stage = .chatting chat' → chat.keys = chat'.keys
  /-- The counter is the only reason for a text not to be sealed. -/
  exhausted : ∀ chat, (d.side r).stage = .chatting chat → chat.result = some .encryptionFailed →
    u.mode = .counter ∧ 2 ^ 64 ≤ (d.side r).sent.length
  failed : (d.side r).stage = .failed → u.Fails
  /-- The call comes to a chat as soon as everything has arrived. -/
  settled : (∀ q, d.toward q = []) → u.Fails ∨ ∃ chat, (d.side r).stage = .chatting chat

theorem sent_of_not_chatting {s : Side} (h : ∀ chat, s.stage ≠ .chatting chat) : s.sent = [] := by
  unfold Side.sent
  split
  · rename_i chat hs
    exact absurd hs (h chat)
  · rfl

theorem faithful_of_blank {r : Role} (hb : (d.side r).Blank)
    (hs : ∀ chat, (d.side r).stage ≠ .chatting chat) (hf : (d.side r).stage = .failed → u.Fails)
    (ht : (∀ q, d.toward q = []) → u.Fails) : Faithful u d r where
  heard_sent := by
    rw [Side.heard, hb.2]
    exact List.nil_prefix
  senders := by
    rw [hb.2]
    exact fun _ hm => absurd hm (by simp [messages])
  sizes_eq := by
    rw [hb.1, hb.2]
    rfl
  intact := by
    rw [hb.2]
    exact fun _ hm => absurd hm (by simp)
  closed := by
    rw [hb.2]
    exact fun _ hm => absurd hm (by simp)
  whole chat hc := absurd hc (hs chat)
  keys_eq chat _ hc := absurd hc (hs chat)
  exhausted chat hc := absurd hc (hs chat)
  failed := hf
  settled h := .inl (ht h)

theorem faithful_of_talks {r : Role} {keys : SessionKeys} {chat : Chat} {last : Nonces} {gone : Prop}
    (h : Talks u r keys (d.side r) chat (d.side r.peer).sent last gone (d.toward r))
    (ho : gone → (d.side r.peer).isOver = true)
    (hk : ∀ chat', (d.side r.peer).stage = .chatting chat' → chat'.keys = keys) : Faithful u d r := by
  have hchat : ∀ chat', (d.side r).stage = .chatting chat' → chat' = chat := by
    intro chat' hs
    rw [h.stage_eq] at hs
    exact (Stage.chatting.inj hs).symm
  refine ⟨h.heard_start, h.senders, h.sizes_eq, h.intact, fun name hm => ?_, fun chat' hs hr ht => ?_,
    fun chat' other hs hp => ?_, fun chat' hs hr => ?_, fun hs => ?_, fun _ => .inr ⟨chat, h.stage_eq⟩⟩
  · obtain ⟨hall, hover⟩ := h.closed name hm
    exact ⟨hall, ho hover⟩
  · rw [hchat chat' hs] at hr
    rw [ht] at h
    exact h.heard_eq hr
  · rw [hchat chat' hs, h.keys_eq, hk other hp]
  · rw [hchat chat' hs] at hr
    exact h.exhausted hr
  · rw [h.stage_eq] at hs
    exact absurd hs (by simp)

theorem Phase.faithful (h : Phase u d) (r : Role) : Faithful u d r := by
  cases h with
  | requested hi hr _ tr _ hb =>
    refine faithful_of_blank (hb r) (by cases r <;> simp [hi, hr]) (by cases r <;> simp [hi, hr]) ?_
    intro ht
    have hnil := ht .responder
    rw [tr, Negotiation.request_eq, Utf8.encode_append] at hnil
    exact absurd (List.append_eq_nil_iff.mp hnil).2 (by decide)
  | accepted hi hr ti _ _ hb =>
    refine faithful_of_blank (hb r) (by cases r <;> simp [hi, hr]) (by cases r <;> simp [hi, hr]) ?_
    intro ht
    have hnil := ht .initiator
    rw [ti, Negotiation.answer_true_eq] at hnil
    exact absurd hnil (by decide)
  | offered _ hi hr _ tr _ hb =>
    refine faithful_of_blank (hb r) (by cases r <;> simp [hi, hr]) (by cases r <;> simp [hi, hr]) ?_
    intro ht
    have hnil := ht .responder
    rw [tr] at hnil
    exact absurd hnil (Frame.write_ne_nil _)
  | @answered key wrapped keys chat all hi hb _ ti _ ht =>
    have hidle : ∀ chat', (d.side .initiator).stage ≠ .chatting chat' := by
      intro chat' hc
      rw [hi] at hc
      exact absurd hc (by simp)
    cases r with
    | initiator =>
      refine faithful_of_blank hb hidle (by simp [hi]) fun ht => ?_
      have hnil := ht .initiator
      rw [ti, List.append_assoc] at hnil
      exact absurd (List.append_eq_nil_iff.mp hnil).1 (Frame.write_ne_nil _)
    | responder =>
      rw [← sent_of_not_chatting hidle] at ht
      exact faithful_of_talks ht False.elim fun chat' hc => absurd hc (hidle chat')
  | talking keys chat ht =>
    refine faithful_of_talks (ht r) id fun chat' hc => ?_
    have hp := ht r.peer
    rw [hp.stage_eq] at hc
    rw [← Stage.chatting.inj hc]
    exact hp.keys_eq
  | @broken fails q hq hp hb =>
    exact faithful_of_blank (hb r) (not_chatting_of_broken hq hp r) (fun _ => fails) fun _ => fails

/-- However far a call has come: unless the key exchange fails, bytes need only arrive and ends go on, and
both chat, nothing is on the way any more, and all that has been sent has been shown where the chat is not
over. -/
theorem exists_settled_run (hn : isName u.caller = true) (hagrees : u.Agrees) (hk : ¬ u.Fails)
    (steps : List Step) : ∃ later : List Step, (∀ f ∈ later, f.Delivers) ∧ ∀ r,
      (run u (steps ++ later)).toward r = [] ∧
        ((run u (steps ++ later)).side r).typed = ((run u steps).side r).typed ∧
          ∃ chat, ((run u (steps ++ later)).side r).stage = .chatting chat ∧ (chat.result = none →
            ((run u (steps ++ later)).side r).heard = ((run u (steps ++ later)).side r.peer).sent) := by
  obtain ⟨h, he⟩ := phase_run hn hagrees steps
  obtain ⟨later, hlater, hsettled⟩ := exists_settled h he hn hagrees hk
  have hrun : run u (steps ++ later) = later.foldl (step u) (run u steps) := List.foldl_append
  refine ⟨later, hlater, fun r => ?_⟩
  have hfaithful := (phase_run hn hagrees (steps ++ later)).1.faithful r
  rw [hrun] at hfaithful ⊢
  obtain ⟨hread, chat, hs⟩ := hsettled r
  exact ⟨hread, typed_of_delivers hlater r, chat, hs, fun hopen => hfaithful.whole chat hs hopen hread⟩

/-! ## The key exchange -/

/-- With these keys, only want of random bytes makes the key exchange fail. -/
theorem not_fails (hk : u.kem.keyPair = MlKem512.keyPair) (hc : u.kem.encapsulate = MlKem512.encapsulate)
    (hcaller : 64 ≤ (u.pool .initiator).length) (hcallee : 32 ≤ (u.pool .responder).length) :
    ¬ u.Fails := by
  obtain ⟨d, z, hpair⟩ := MlKem512.exists_keyPair hcaller
  obtain ⟨wrapped, secret, hwrapped⟩ := MlKem512.exists_encapsulate hpair hcallee
  rw [← hk] at hpair
  rw [← hc] at hwrapped
  rintro (⟨cause, pool, h⟩ | ⟨pair, pool, cause, pool', h, h'⟩)
  · exact absurd (hpair.symm.trans h) (by simp)
  · obtain rfl := Except.ok.inj (Prod.mk.inj (hpair.symm.trans h)).1
    exact absurd (hwrapped.symm.trans h') (by simp)

/-- A mechanism that unwraps what is wrapped with these random bytes by recalling the secret. -/
def recalling (kem : Kem) (caller callee : Entropy) : Kem :=
  { kem with
    decapsulate := fun _ _ =>
      match kem.keyPair caller with
      | (.ok pair, _) =>
        match kem.encapsulate pair.publicKey callee with
        | (.ok (_, secret), _) => secret
        | (.error _, _) => Vector.replicate 32 0
      | (.error _, _) => Vector.replicate 32 0 }

theorem agrees_recalling (kem : Kem) (mode : NonceMode) (caller callee : String)
    (pool : Role → Entropy) :
    (Setup.mk (recalling kem (pool .initiator) (pool .responder)) mode caller callee pool).Agrees := by
  intro pair left wrapped secret later hk hc
  have hk' : kem.keyPair (pool .initiator) = (.ok pair, left) := hk
  have hc' : kem.encapsulate pair.publicKey (pool .responder) = (.ok (wrapped, secret), later) := hc
  simp only [recalling, hk', hc']

/-! ## A call -/

/-- The dialogue of two ends, with what has been written for each. -/
def both (i r : Side) (toI toR : Bytes) : Dialogue where
  side
    | .initiator => i
    | .responder => r
  wire
    | .initiator => toI
    | .responder => toR

theorem eq_both (d : Dialogue) :
    d = both (d.side .initiator) (d.side .responder) (d.wire .initiator) (d.wire .responder) := by
  obtain ⟨side, wire⟩ := d
  have hside : side = fun | .initiator => side .initiator | .responder => side .responder := by
    funext q
    cases q <;> rfl
  have hwire : wire = fun | .initiator => wire .initiator | .responder => wire .responder := by
    funext q
    cases q <;> rfl
  rw [both]
  congr

section Both

variable {i r next : Side} {stage : Stage} {pool : Entropy} {typed : List String}
  {shown : List ChatEvent} {toI toR sent : Bytes} {count : Nat}

theorem deliver_initiator (hcount : toI.length ≤ count)
    (h : Side.advance u ⟨stage, toI, false, pool, typed, shown⟩ = (next, sent)) :
    deliver u (both ⟨stage, [], false, pool, typed, shown⟩ r toI toR) .initiator count =
      both next r [] (toR ++ sent) := by
  have hstep : deliver u (both ⟨stage, [], false, pool, typed, shown⟩ r toI toR) .initiator count =
      both (Side.advance u ⟨stage, toI.take count, false, pool, typed, shown⟩).1 r (toI.drop count)
        (toR ++ (Side.advance u ⟨stage, toI.take count, false, pool, typed, shown⟩).2) := eq_both _
  rw [hstep, List.take_of_length_le hcount, List.drop_of_length_le hcount, h]

theorem deliver_responder (h : Side.advance u ⟨stage, toR.take count, false, pool, typed, shown⟩ =
      (next, sent)) :
    deliver u (both i ⟨stage, [], false, pool, typed, shown⟩ toI toR) .responder count =
      both i next (toI ++ sent) (toR.drop count) := by
  have hstep : deliver u (both i ⟨stage, [], false, pool, typed, shown⟩ toI toR) .responder count =
      both i (Side.advance u ⟨stage, toR.take count, false, pool, typed, shown⟩).1
        (toI ++ (Side.advance u ⟨stage, toR.take count, false, pool, typed, shown⟩).2)
        (toR.drop count) := eq_both _
  rw [hstep, h]

theorem deliver_responder_all (hcount : toR.length ≤ count)
    (h : Side.advance u ⟨stage, toR, false, pool, typed, shown⟩ = (next, sent)) :
    deliver u (both i ⟨stage, [], false, pool, typed, shown⟩ toI toR) .responder count =
      both i next (toI ++ sent) [] := by
  rw [← List.take_of_length_le hcount] at h
  rw [deliver_responder h, List.drop_of_length_le hcount]

theorem advanced_initiator (h : i.advance u = (next, sent)) :
    step u (both i r toI toR) (.advanced .initiator) = both next r toI (toR ++ sent) := by
  have hstep : step u (both i r toI toR) (.advanced .initiator) =
      both (i.advance u).1 r toI (toR ++ (i.advance u).2) := eq_both _
  rw [hstep, h]

theorem typed_initiator {line : String} (h : i.typeLine true line = (next, sent)) :
    step u (both i r toI toR) (.typed .initiator line true) = both next r toI (toR ++ sent) := by
  have hstep : step u (both i r toI toR) (.typed .initiator line true) =
      both (i.typeLine true line).1 r toI (toR ++ (i.typeLine true line).2) := eq_both _
  rw [hstep, h]

theorem typed_responder {line : String} (h : r.typeLine true line = (next, sent)) :
    step u (both i r toI toR) (.typed .responder line true) = both i next (toI ++ sent) toR := by
  have hstep : step u (both i r toI toR) (.typed .responder line true) =
      both i (r.typeLine true line).1 (toI ++ (r.typeLine true line).2) toR := eq_both _
  rw [hstep, h]

end Both

/-- The first message of an end, as it is sent and as it is read by the other. -/
structure First (keys : SessionKeys) (sender : Role) (mode : NonceMode) (text : String) (sealed : Bytes) :
    Prop where
  length_eq : sealed.length = text.utf8ByteSize + 16
  typed : ∀ remote unread inbound,
    (Chat.mk remote keys (.ofSender keys.iv sender mode) inbound unread none).typeLine true text =
      (⟨remote, keys, (Nonces.ofSender keys.iv sender mode).advance, inbound, unread, none⟩,
        { sent := Frame.write sealed })
  awaited : ∀ remote outbound part rest, rest ≠ [] → part ++ rest = Frame.write sealed →
    (Chat.mk remote keys outbound (.ofSender keys.iv sender mode) [] none).receive false part =
      (⟨remote, keys, outbound, .ofSender keys.iv sender mode, part, none⟩, [])
  read : ∀ remote outbound part rest, part ++ rest = Frame.write sealed →
    (Chat.mk remote keys outbound (.ofSender keys.iv sender mode) part none).receive false rest =
      (⟨remote, keys, outbound, (Nonces.ofSender keys.iv sender mode).advance, [], none⟩,
        [.message remote text])

theorem exists_first (keys : SessionKeys) (sender : Role) (mode : NonceMode) (text : String)
    (htext : Text.trimLineEnd text = text) (hquit : text ≠ Chat.quitWord) (hempty : text ≠ "")
    (hsize : text.utf8ByteSize ≤ Chat.maxMessage) : ∃ sealed, First keys sender mode text sealed := by
  have hlen : (Utf8.encode text).length < Aead.maxMessage := by
    rw [Utf8.length_encode]
    exact Nat.lt_of_le_of_lt hsize (by decide)
  obtain ⟨nonce, hn⟩ : ∃ nonce, (Nonces.ofSender keys.iv sender mode).current = .ok nonce := by
    cases mode <;> exact ⟨_, rfl⟩
  obtain ⟨sealed, hs⟩ : ∃ sealed, Aead.seal? keys.key nonce (Utf8.encode text) = some sealed :=
    ⟨_, if_pos hlen⟩
  have he : keys.encrypt (.ofSender keys.iv sender mode) (Utf8.encode text) =
      (.ok sealed, (Nonces.ofSender keys.iv sender mode).advance) :=
    SessionKeys.encrypt_eq_ok_iff.mpr ⟨nonce, hn, hs, rfl⟩
  have hsealed : sealed.length = text.utf8ByteSize + 16 := by
    rw [SessionKeys.length_of_encrypt he, Utf8.length_encode]
    rfl
  have hsmall : sealed.length ≤ Frame.maxPayload := by
    have hmax : Chat.maxMessage + 16 ≤ Frame.maxPayload := by decide
    omega
  have hwidth : sealed.length < 2 ^ 32 := Nat.lt_of_le_of_lt hsmall (by decide)
  refine ⟨sealed, hsealed, fun remote unread inbound => ?_, fun remote outbound part rest hr hb => ?_,
    fun remote outbound part rest hb => ?_⟩
  · simp [Chat.typeLine, htext, hquit, hempty, Nat.not_lt.mpr hsize, he]
  · have hitems := Frame.items_of_incomplete (Frame.read_incomplete hsmall hwidth hr hb)
    simp [Chat.receive, hitems, Chat.takeItems]
  · have hitems : Frame.items Frame.maxPayload false (Frame.write sealed ++ []) =
        ([.payload sealed], []) := by
      rw [Frame.items_write hsmall hwidth, Frame.items_of_incomplete rfl]
    rw [List.append_nil] at hitems
    have htake := Chat.takeItem_payload (c := ⟨remote, keys, outbound, .ofSender keys.iv sender mode, [],
      none⟩) rfl he
    simp [Chat.receive, hb, hitems, Chat.takeItems, htake]

/-- The request, its acceptance and the key, delivered in turn. -/
theorem deliver_key {pair : KeyPair} {pool later left : Entropy} {wrapped : WrappedSecret}
    {secret : SharedSecret} {iv : Aead.Nonce} {a b c : Nat} (hn : isName u.caller = true)
    (hk : u.kem.keyPair (u.pool .initiator) = (.ok pair, pool))
    (hc : u.kem.encapsulate pair.publicKey (u.pool .responder) = (.ok (wrapped, secret), later))
    (hiv : Handshake.drawIv later = (iv, left)) (ha : (Negotiation.request u.caller).length ≤ a)
    (hb : (Negotiation.answer true).length ≤ b) (hlen : (Frame.write pair.publicKey.toList).length ≤ c) :
    deliver u (deliver u (deliver u (start u) .responder a) .initiator b) .responder c =
      both ⟨.concluding pair.secretKey, [], false, pool, [], []⟩
        ⟨.chatting (.start u.caller .responder u.mode ⟨secret, iv⟩ []), [], false, left, [], []⟩
        (Frame.write wrapped.toList ++ iv.toList) [] := by
  have hstart : start u = both ⟨.asking, [], false, u.pool .initiator, [], []⟩
      ⟨.listening, [], false, u.pool .responder, [], []⟩ [] (Negotiation.request u.caller) := eq_both _
  have haccept : Side.advance u
      ⟨.listening, Negotiation.request u.caller, false, u.pool .responder, [], []⟩ =
        (⟨.responding u.caller, [], false, u.pool .responder, [], []⟩, Negotiation.answer true) :=
    advance_listening_done rfl rfl hn rfl
  have hoffer : Side.advance u ⟨.asking, Negotiation.answer true, false, u.pool .initiator, [], []⟩ =
      (⟨.concluding pair.secretKey, [], false, pool, [], []⟩, Frame.write pair.publicKey.toList) :=
    advance_asking_done rfl rfl rfl hk
  have hanswer : Side.advance u
      ⟨.responding u.caller, Frame.write pair.publicKey.toList, false, u.pool .responder, [], []⟩ =
        (⟨.chatting (.start u.caller .responder u.mode ⟨secret, iv⟩ []), [], false, left, [], []⟩,
          Frame.write wrapped.toList ++ iv.toList) := by
    have hdone := advance_responding_done (u := u) (s := ⟨.responding u.caller,
      Frame.write pair.publicKey.toList, false, u.pool .responder, [], []⟩) rfl rfl rfl hc
    rwa [hiv] at hdone
  rw [hstart, deliver_responder_all ha haccept, List.nil_append, deliver_initiator hb hoffer,
    List.nil_append, deliver_responder_all hlen hanswer, List.nil_append]

/-- Alice calls, and there is a message each way. -/
def aliceCalls : List Step :=
  [.arrived .responder 22, .advanced .responder, .arrived .initiator 7, .advanced .initiator,
    .arrived .responder 804, .advanced .responder, .typed .responder "hi" true,
    .arrived .initiator 810, .advanced .initiator, .typed .initiator "hello" true,
    .arrived .responder 9, .advanced .responder, .advanced .initiator, .arrived .responder 100,
    .advanced .responder]

theorem shown_aliceCalls {pair : KeyPair} {pool later : Entropy} {wrapped : WrappedSecret}
    {secret : SharedSecret} (hcaller : u.caller = "alice")
    (hk : u.kem.keyPair (u.pool .initiator) = (.ok pair, pool))
    (hc : u.kem.encapsulate pair.publicKey (u.pool .responder) = (.ok (wrapped, secret), later))
    (hs : u.kem.decapsulate pair.secretKey wrapped = secret) :
    ((run u aliceCalls).side .initiator).shown = [.message u.callee "hi"] ∧
      ((run u aliceCalls).side .responder).shown = [.message "alice" "hello"] := by
  have hn : isName u.caller = true := by
    rw [hcaller]
    decide
  have hrequest : (Negotiation.request u.caller).length ≤ 22 := by
    rw [hcaller]
    decide +kernel
  have haccepted : (Negotiation.answer true).length ≤ 7 := by decide +kernel
  have hkey : (Frame.write pair.publicKey.toList).length ≤ 804 := by
    rw [Frame.write, List.length_append, Bytes.length_bigEndian, Vector.length_toList]
  obtain ⟨iv, left, hiv⟩ : ∃ iv left, Handshake.drawIv later = (iv, left) := ⟨_, _, rfl⟩
  obtain ⟨hi, hfirst⟩ := exists_first ⟨secret, iv⟩ .responder u.mode "hi"
    (by decide +kernel) (by decide) (by decide) (by decide)
  obtain ⟨hello, hsecond⟩ := exists_first ⟨secret, iv⟩ .initiator u.mode "hello"
    (by decide +kernel) (by decide) (by decide) (by decide)
  have hall : (Frame.write wrapped.toList ++ iv.toList ++ Frame.write hi).length ≤ 810 := by
    simp only [Frame.write, List.length_append, Bytes.length_bigEndian, Vector.length_toList,
      hfirst.length_eq]
    decide
  have hlength : ((Frame.write hello).drop 9).length = 16 := by
    rw [List.length_drop, Frame.write, List.length_append, Bytes.length_bigEndian, hsecond.length_eq]
    rfl
  have hrest : (Frame.write hello).drop 9 ≠ [] := by
    rw [← List.length_pos_iff, hlength]
    decide
  have hlast : ((Frame.write hello).drop 9).length ≤ 100 := by
    rw [hlength]
    decide
  have hconclude : Side.advance u ⟨.concluding pair.secretKey,
      Frame.write wrapped.toList ++ iv.toList ++ Frame.write hi, false, pool, [], []⟩ =
        (⟨.chatting (.start u.callee .initiator u.mode ⟨secret, iv⟩ []), Frame.write hi, false, pool,
          [], []⟩, []) := by
    have hdone := advance_concluding_done (u := u) (s := ⟨.concluding pair.secretKey,
      Frame.write wrapped.toList ++ iv.toList ++ Frame.write hi, false, pool, [], []⟩) rfl wrapped iv rfl
    rwa [hs] at hdone
  -- a message each way; the one of the caller comes in two pieces
  have htype : Side.typeLine
      ⟨.chatting (.start u.caller .responder u.mode ⟨secret, iv⟩ []), [], false, left, [], []⟩ true "hi" =
        (⟨.chatting ⟨u.caller, ⟨secret, iv⟩, (Nonces.ofSender iv .responder u.mode).advance,
          .ofSender iv .initiator u.mode, [], none⟩, [], false, left, ["hi"], []⟩, Frame.write hi) := by
    rw [typeLine_of_open rfl rfl, Chat.start, Nonces.outbound, hfirst.typed]
    rfl
  have htype' : Side.typeLine ⟨.chatting (.start u.callee .initiator u.mode ⟨secret, iv⟩ []),
      Frame.write hi, false, pool, [], []⟩ true "hello" =
        (⟨.chatting ⟨u.callee, ⟨secret, iv⟩, (Nonces.ofSender iv .initiator u.mode).advance,
          .ofSender iv .responder u.mode, [], none⟩, Frame.write hi, false, pool, ["hello"], []⟩,
          Frame.write hello) := by
    rw [typeLine_of_open rfl rfl, Chat.start, Nonces.outbound, hsecond.typed]
    rfl
  have hawait : Side.advance u ⟨.chatting ⟨u.caller, ⟨secret, iv⟩,
      (Nonces.ofSender iv .responder u.mode).advance, .ofSender iv .initiator u.mode, [], none⟩,
      (Frame.write hello).take 9, false, left, ["hi"], []⟩ =
        (⟨.chatting ⟨u.caller, ⟨secret, iv⟩, (Nonces.ofSender iv .responder u.mode).advance,
          .ofSender iv .initiator u.mode, (Frame.write hello).take 9, none⟩, [], false, left, ["hi"],
          []⟩, []) := by
    rw [advance_of_chatting rfl]
    simp only [hsecond.awaited _ _ _ _ hrest (List.take_append_drop 9 _)]
    rfl
  have hshow : Side.advance u ⟨.chatting ⟨u.callee, ⟨secret, iv⟩,
      (Nonces.ofSender iv .initiator u.mode).advance, .ofSender iv .responder u.mode, [], none⟩,
      Frame.write hi, false, pool, ["hello"], []⟩ =
        (⟨.chatting ⟨u.callee, ⟨secret, iv⟩, (Nonces.ofSender iv .initiator u.mode).advance,
          (Nonces.ofSender iv .responder u.mode).advance, [], none⟩, [], false, pool, ["hello"],
          [.message u.callee "hi"]⟩, []) := by
    rw [advance_of_chatting rfl]
    simp only [hfirst.read _ _ _ _ (List.nil_append _)]
    rfl
  have hshow' : Side.advance u ⟨.chatting ⟨u.caller, ⟨secret, iv⟩,
      (Nonces.ofSender iv .responder u.mode).advance, .ofSender iv .initiator u.mode,
      (Frame.write hello).take 9, none⟩, (Frame.write hello).drop 9, false, left, ["hi"], []⟩ =
        (⟨.chatting ⟨u.caller, ⟨secret, iv⟩, (Nonces.ofSender iv .responder u.mode).advance,
          (Nonces.ofSender iv .initiator u.mode).advance, [], none⟩, [], false, left, ["hi"],
          [.message u.caller "hello"]⟩, []) := by
    rw [advance_of_chatting rfl]
    simp only [hsecond.read _ _ _ _ (List.take_append_drop 9 _)]
    rfl
  have hsteps : run u aliceCalls = deliver u (step u (deliver u (step u (deliver u (step u (deliver u
      (deliver u (deliver u (start u) .responder 22) .initiator 7) .responder 804)
      (.typed .responder "hi" true)) .initiator 810) (.typed .initiator "hello" true)) .responder 9)
      (.advanced .initiator)) .responder 100 := rfl
  rw [hsteps, deliver_key hn hk hc hiv hrequest haccepted hkey, typed_responder htype,
    deliver_initiator hall hconclude, List.nil_append, typed_initiator htype', List.nil_append,
    deliver_responder hawait, List.append_nil, advanced_initiator hshow, List.append_nil,
    deliver_responder_all hlast hshow', List.append_nil, hcaller]
  exact ⟨rfl, rfl⟩

/-- Whatever is typed, and in whatever order bytes arrive and ends move, each end shows the texts of
the other from the first on, in turn and unchanged, and all of them once everything has arrived. -/
theorem faithful_run (hn : isName u.caller = true) (hagrees : u.Agrees) (steps : List Step) (r : Role) :
    Faithful u (run u steps) r :=
  (phase_run hn hagrees steps).1.faithful r

/-- A message each way: the callee writes before the caller has its key, and what the caller writes
arrives in two pieces. -/
theorem faithful_run_alice :
    let pool : Role → Entropy
      | .initiator => List.replicate 64 7
      | .responder => List.replicate 44 9
    let u : Setup :=
      ⟨recalling MlKem512.kem (pool .initiator) (pool .responder), .counter, "alice", "bob", pool⟩
    isName "alice" = true ∧ u.Agrees ∧ ¬ u.Fails ∧ (∀ r, Faithful u (run u aliceCalls) r) ∧
      ((run u aliceCalls).side .initiator).shown = [.message "bob" "hi"] ∧
      ((run u aliceCalls).side .responder).shown = [.message "alice" "hello"] := by
  intro pool u
  have hn : isName "alice" = true := by decide
  have hagrees : u.Agrees := agrees_recalling MlKem512.kem .counter "alice" "bob" pool
  obtain ⟨d, z, hk⟩ : ∃ d z, MlKem512.keyPair (pool .initiator) =
      (.ok (MlKem512.keysOfSeeds d z), (pool .initiator).drop 64) := MlKem512.exists_keyPair (by decide)
  obtain ⟨wrapped, secret, hc⟩ : ∃ wrapped secret, MlKem512.encapsulate _ (pool .responder) =
      (.ok (wrapped, secret), (pool .responder).drop 32) := MlKem512.exists_encapsulate hk (by decide)
  have hs := hagrees _ _ _ _ _ hk hc
  have hfails : ¬ u.Fails := not_fails rfl rfl (by decide) (by decide)
  exact ⟨hn, hagrees, hfails, faithful_run hn hagrees aliceCalls, shown_aliceCalls rfl hk hc hs⟩

end PeerChat.Dialogue
