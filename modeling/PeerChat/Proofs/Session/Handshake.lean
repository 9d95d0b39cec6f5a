import PeerChat.Proofs.Stream.Frame
import PeerChat.Session.Handshake

/-!
# The two sides of a key exchange

The responder understands the frame of the initiator, and the initiator the frame and the initial
vector of the responder.  Each waits until the last byte of these is there, and leaves all that
follows.  Against anything else a side fails at the first thing that is wrong with it, and a responder
that fails has said nothing (`outcome_of_stream`).
-/

namespace PeerChat

namespace Handshake

variable {ended : Bool}

theorem lt_of_le_maxPayload {n : Nat} (h : n ≤ maxPayload) : n < 2 ^ 32 :=
  Nat.lt_of_le_of_lt h (by decide)

theorem readFrame_write {n : Nat} (hn : n ≤ maxPayload) (payload : Vector UInt8 n) (rest : Bytes) :
    readFrame ended (Frame.write payload.toList ++ rest) = .done (payload.toList, rest) := by
  have hlen : payload.toList.length ≤ maxPayload := by rwa [payload.length_toList]
  rw [readFrame, Frame.read_write hlen (lt_of_le_maxPayload hlen)]

theorem readFrame_waiting {n : Nat} (hn : n ≤ maxPayload) (payload : Vector UInt8 n)
    {data rest : Bytes} (hr : rest ≠ []) (hd : data ++ rest = Frame.write payload.toList) :
    readFrame false data = .waiting := by
  have hlen : payload.toList.length ≤ maxPayload := by rwa [payload.length_toList]
  rw [readFrame, Frame.read_incomplete hlen (lt_of_le_maxPayload hlen) hr hd]

/-! ## The responder -/

section Respond

variable {kem : Kem} {pool : Entropy} {key : PublicKey}

theorem respond_waiting {data rest : Bytes} (hr : rest ≠ [])
    (hd : data ++ rest = Frame.write key.toList) :
    respond kem pool false data = (.waiting, pool) := by
  rw [respond, readFrame_waiting (by decide) key hr hd]

theorem respond_ok {wrapped : WrappedSecret} {secret : SharedSecret} {later : Entropy}
    (h : kem.encapsulate key pool = (.ok (wrapped, secret), later)) (rest : Bytes) :
    respond kem pool ended (Frame.write key.toList ++ rest) =
      (.done ⟨⟨secret, (drawIv later).1⟩,
        Frame.write wrapped.toList ++ (drawIv later).1.toList, rest⟩, (drawIv later).2) := by
  rw [respond, readFrame_write (by decide)]
  simp only [Bytes.exactly?_toList, h]

theorem respond_error {cause : KemError} {later : Entropy}
    (h : kem.encapsulate key pool = (.error cause, later)) (rest : Bytes) :
    respond kem pool ended (Frame.write key.toList ++ rest) =
      (.failed (.crypto (.kem cause)), later) := by
  rw [respond, readFrame_write (by decide)]
  simp only [Bytes.exactly?_toList, h]

end Respond

/-! ## The initiator -/

section Conclude

variable {kem : Kem} {key : SecretKey} (wrapped : WrappedSecret) (iv : Aead.Nonce)

theorem conclude_done (rest : Bytes) :
    conclude kem key ended (Frame.write wrapped.toList ++ iv.toList ++ rest) =
      .done (⟨kem.decapsulate key wrapped, iv⟩, rest) := by
  rw [List.append_assoc, conclude, readFrame_write (by decide)]
  simp only [Bytes.exactly?_toList, Bytes.cut?_append]

/-- The initiator waits for the initial vector as well. -/
theorem conclude_waiting {data rest : Bytes} (hr : rest ≠ [])
    (hd : data ++ rest = Frame.write wrapped.toList ++ iv.toList) :
    conclude kem key false data = .waiting := by
  rcases Bytes.cases_of_append_eq hd with ⟨missing, hnil, hm, -⟩ | ⟨later, rfl, hl⟩
  · rw [conclude, readFrame_waiting (by decide) wrapped hnil hm.symm]
  · have hlen : later.length < 12 := by
      have := congrArg List.length hl
      have hpos : 0 < rest.length := List.length_pos_iff.mpr hr
      rw [List.length_append, Vector.length_toList] at this
      omega
    rw [conclude, readFrame_write (by decide)]
    simp only [Bytes.exactly?_toList, Bytes.cut?_eq_none hlen]
    rfl

end Conclude

/-! ## Any stream -/

/-- What is wrong with a stream that is to begin with a frame of `size` bytes, and how it is told. -/
inductive Flaw (what : String) (size : Nat) : Bytes → Failure → Prop
  | nothing : Flaw what size [] .peerClosed
  | partLength {data : Bytes} (nonempty : data ≠ []) (short : data.length < 4) :
      Flaw what size data (.transport .cutLength)
  | tooLarge {announced : Nat} (large : maxPayload < announced) (bound : announced < 2 ^ 32)
      (rest : Bytes) :
      Flaw what size (Bytes.bigEndian 4 announced ++ rest)
        (.wire (.frameTooLarge announced maxPayload))
  | partPayload {announced : Nat} {rest : Bytes} (small : announced ≤ maxPayload)
      (short : rest.length < announced) :
      Flaw what size (Bytes.bigEndian 4 announced ++ rest) (.transport .cutPayload)
  | wrongSize {payload : Bytes} (small : payload.length ≤ maxPayload) (other : payload.length ≠ size)
      (rest : Bytes) :
      Flaw what size (Frame.write payload ++ rest) (.crypto (.wrongLength what size payload.length))

/-- Either no frame is read, or one of another size. -/
theorem Flaw.readFrame {what : String} {size : Nat} {data : Bytes} {cause : Failure}
    (h : Flaw what size data cause) :
    readFrame true data = .failed cause ∨ ∃ payload rest,
      readFrame true data = .done (payload, rest) ∧ Bytes.exactly? size payload = none ∧
        cause = .crypto (.wrongLength what size payload.length) := by
  cases h with
  | nothing => exact .inl rfl
  | partLength nonempty short =>
    left
    rw [Handshake.readFrame, Frame.read_partLength nonempty short]
  | tooLarge large bound rest =>
    left
    rw [Handshake.readFrame, Frame.read_tooLarge large bound]
  | partPayload small short =>
    left
    rw [Handshake.readFrame, Frame.read_partPayload small (lt_of_le_maxPayload small) short, if_pos rfl]
  | @wrongSize payload small other rest =>
    refine .inr ⟨payload, rest, ?_, dif_neg other, rfl⟩
    rw [Handshake.readFrame, Frame.read_write small (lt_of_le_maxPayload small)]

theorem exists_frame_or_flaw (what : String) (size : Nat) (data : Bytes) :
    (∃ (payload : Vector UInt8 size) (rest : Bytes), data = Frame.write payload.toList ++ rest) ∨
      ∃ cause, Flaw what size data cause := by
  cases Frame.front maxPayload data with
  | nothing => exact .inr ⟨_, .nothing⟩
  | partLength nonempty short => exact .inr ⟨_, .partLength nonempty short⟩
  | tooLarge large bound rest => exact .inr ⟨_, .tooLarge large bound rest⟩
  | partPayload small bound short => exact .inr ⟨_, .partPayload small short⟩
  | @frame payload fits rest =>
    by_cases hsize : payload.length = size
    · obtain ⟨v, hv⟩ := Bytes.exists_vector hsize
      exact .inl ⟨v, rest, by rw [hv]⟩
    · exact .inr ⟨_, .wrongSize fits.1 hsize rest⟩

section Outcome

variable {kem : Kem} {pool : Entropy} {incoming : Bytes} {result : Result}

/-- What comes of the initiator's part, by its key pair and by what there is to read. -/
inductive Initiated (kem : Kem) (pool : Entropy) : Bytes → Result → Prop
  | keyless {cause : KemError} {left : Entropy} (lacks : kem.keyPair pool = (.error cause, left))
      (incoming : Bytes) : Initiated kem pool incoming (.failed [] (.crypto (.kem cause)) left)
  | agreed {pair : KeyPair} {left : Entropy} (draws : kem.keyPair pool = (.ok pair, left))
      (wrapped : WrappedSecret) (iv : Aead.Nonce) (rest : Bytes) :
      Initiated kem pool (Frame.write wrapped.toList ++ iv.toList ++ rest)
        ⟨Frame.write pair.publicKey.toList, .ok ⟨kem.decapsulate pair.secretKey wrapped, iv⟩, rest,
          left⟩
  | cutIv {pair : KeyPair} {left : Entropy} (draws : kem.keyPair pool = (.ok pair, left))
      (wrapped : WrappedSecret) {rest : Bytes} (short : rest.length < 12) :
      Initiated kem pool (Frame.write wrapped.toList ++ rest)
        (.failed (Frame.write pair.publicKey.toList) (.transport .cutPayload) left)
  | flawed {pair : KeyPair} {left : Entropy} (draws : kem.keyPair pool = (.ok pair, left))
      {incoming : Bytes} {cause : Failure} (flaw : Flaw "KEM ciphertext" 768 incoming cause) :
      Initiated kem pool incoming (.failed (Frame.write pair.publicKey.toList) cause left)

/-- What comes of the responder's part, by what there is to read and what the key is good for. -/
inductive Responded (kem : Kem) (pool : Entropy) : Bytes → Result → Prop
  | agreed {key : PublicKey} {wrapped : WrappedSecret} {secret : SharedSecret} {left : Entropy}
      (accepts : kem.encapsulate key pool = (.ok (wrapped, secret), left)) (rest : Bytes) :
      Responded kem pool (Frame.write key.toList ++ rest)
        ⟨Frame.write wrapped.toList ++ (drawIv left).1.toList, .ok ⟨secret, (drawIv left).1⟩, rest,
          (drawIv left).2⟩
  | refused {key : PublicKey} {cause : KemError} {left : Entropy}
      (refuses : kem.encapsulate key pool = (.error cause, left)) (rest : Bytes) :
      Responded kem pool (Frame.write key.toList ++ rest) (.failed [] (.crypto (.kem cause)) left)
  | flawed {incoming : Bytes} {cause : Failure} (flaw : Flaw "encapsulation key" 800 incoming cause) :
      Responded kem pool incoming (.failed [] cause pool)

theorem conclude_cutIv (key : SecretKey) (wrapped : WrappedSecret) {rest : Bytes}
    (h : rest.length < 12) :
    conclude kem key true (Frame.write wrapped.toList ++ rest) =
      .failed (.transport .cutPayload) := by
  rw [conclude, readFrame_write (by decide)]
  simp only [Bytes.exactly?_toList, Bytes.cut?_eq_none h]
  rfl

theorem conclude_flawed (key : SecretKey) {cause : Failure}
    (h : Flaw "KEM ciphertext" 768 incoming cause) :
    conclude kem key true incoming = .failed cause := by
  rcases h.readFrame with hread | ⟨payload, rest, hread, hsize, rfl⟩
  · rw [conclude, hread]
  · rw [conclude, hread]
    simp only [hsize]
    rfl

theorem respond_flawed {cause : Failure} (h : Flaw "encapsulation key" 800 incoming cause) :
    respond kem pool true incoming = (.failed cause, pool) := by
  rcases h.readFrame with hread | ⟨payload, rest, hread, hsize, rfl⟩
  · rw [respond, hread]
  · rw [respond, hread]
    simp only [hsize]
    rfl

theorem runInitiator_of_keyPair {pair : KeyPair} {left : Entropy}
    (h : kem.keyPair pool = (.ok pair, left)) :
    runInitiator kem pool true incoming =
      match conclude kem pair.secretKey true incoming with
      | .done (keys, rest) => ⟨Frame.write pair.publicKey.toList, .ok keys, rest, left⟩
      | .failed cause => .failed (Frame.write pair.publicKey.toList) cause left
      | .waiting => .failed (Frame.write pair.publicKey.toList) .peerClosed left := by
  rw [runInitiator, offer, h]
  rfl

theorem Initiated.eq_run (h : Initiated kem pool incoming result) :
    result = runInitiator kem pool true incoming := by
  cases h with
  | keyless lacks incoming => rw [runInitiator, offer, lacks]
  | agreed draws wrapped iv rest => rw [runInitiator_of_keyPair draws, conclude_done]
  | cutIv draws wrapped short => rw [runInitiator_of_keyPair draws, conclude_cutIv _ wrapped short]
  | flawed draws flaw => rw [runInitiator_of_keyPair draws, conclude_flawed _ flaw]

theorem exists_initiated (kem : Kem) (pool : Entropy) (incoming : Bytes) :
    ∃ result, Initiated kem pool incoming result := by
  match hk : kem.keyPair pool with
  | (.error cause, left) => exact ⟨_, .keyless hk incoming⟩
  | (.ok pair, left) =>
    rcases exists_frame_or_flaw "KEM ciphertext" 768 incoming with ⟨wrapped, rest, rfl⟩ | ⟨cause, hflaw⟩
    · by_cases hshort : rest.length < 12
      · exact ⟨_, .cutIv hk wrapped hshort⟩
      · obtain ⟨iv, later, rfl⟩ := Bytes.exists_append_of_le (Nat.le_of_not_lt hshort)
        rw [← List.append_assoc]
        exact ⟨_, .agreed hk wrapped iv later⟩
    · exact ⟨_, .flawed hk hflaw⟩

theorem Responded.eq_run (h : Responded kem pool incoming result) :
    result = runResponder kem pool true incoming := by
  cases h with
  | agreed accepts rest =>
    rw [runResponder, respond_ok accepts]
    rfl
  | refused refuses rest => rw [runResponder, respond_error refuses]
  | flawed flaw => rw [runResponder, respond_flawed flaw]

theorem exists_responded (kem : Kem) (pool : Entropy) (incoming : Bytes) :
    ∃ result, Responded kem pool incoming result := by
  rcases exists_frame_or_flaw "encapsulation key" 800 incoming with ⟨key, rest, rfl⟩ | ⟨cause, hflaw⟩
  · match he : kem.encapsulate key pool with
    | (.error cause, left) => exact ⟨_, .refused he rest⟩
    | (.ok (wrapped, secret), left) => exact ⟨_, .agreed he rest⟩
  · exact ⟨_, .flawed hflaw⟩

end Outcome

/-- Whatever bytes there are to read before the stream ends, and whatever the random sources give, both
sides come out as listed. -/
theorem outcome_of_stream (kem : Kem) (pool : Entropy) (incoming : Bytes) (result : Result) :
    (Initiated kem pool incoming result ↔ result = runInitiator kem pool true incoming) ∧
      (Responded kem pool incoming result ↔ result = runResponder kem pool true incoming) := by
  refine ⟨⟨Initiated.eq_run, fun hresult => ?_⟩, ⟨Responded.eq_run, fun hresult => ?_⟩⟩
  · obtain ⟨listed, h⟩ := exists_initiated kem pool incoming
    rwa [hresult, ← h.eq_run]
  · obtain ⟨listed, h⟩ := exists_responded kem pool incoming
    rwa [hresult, ← h.eq_run]

end Handshake

end PeerChat
