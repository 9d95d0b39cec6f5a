import PeerChat.Proofs.Session.Chat
import PeerChat.Proofs.Session.Opening

/-!
# What a chat makes of any stream

Whatever bytes arrive, and however they are cut, a chat shows the messages of the sealed frames at the
front of the stream, as many as there are, and ends at what follows them (`hear_spec`).
-/

namespace PeerChat

namespace Chat

/-- What is shown when a chat ends. -/
def ending (remote : String) : ChatEnd → ChatEvent
  | .decryptionFailed => .decryptionFailed remote
  | _ => .closed remote

def showAll (remote : String) (messages : List Bytes) : List ChatEvent :=
  messages.map fun message => .message remote (Utf8.decode message)

/-- What can follow the last frame that opens, and how a chat ends at it. -/
inductive Remainder (keys : SessionKeys) (n : Nonces) : Bytes → ChatEnd → Prop
  | nothing : Remainder keys n [] .peerClosed
  | partLength {rest : Bytes} (nonempty : rest ≠ []) (short : rest.length < 4) :
      Remainder keys n rest .transportFailed
  | tooLarge {size : Nat} (large : Frame.maxPayload < size) (bound : size < 2 ^ 32) (rest : Bytes) :
      Remainder keys n (Bytes.bigEndian 4 size ++ rest) .transportFailed
  | partPayload {size : Nat} {rest : Bytes} (small : size ≤ Frame.maxPayload)
      (short : rest.length < size) :
      Remainder keys n (Bytes.bigEndian 4 size ++ rest) .transportFailed
  | unsealed {payload : Bytes} (small : payload.length ≤ Frame.maxPayload)
      (other : ¬ keys.IsSealed n payload) (rest : Bytes) :
      Remainder keys n (Frame.write payload ++ rest) .decryptionFailed

/-- A stream is the frames of these messages, sealed in turn, and a remainder. -/
inductive Heard (keys : SessionKeys) : Nonces → Bytes → List Bytes → ChatEnd → Prop
  | stop {n : Nonces} {rest : Bytes} {result : ChatEnd} :
      Remainder keys n rest result → Heard keys n rest [] result
  | message {n next : Nonces} {message sealed rest : Bytes} {messages : List Bytes}
      {result : ChatEnd} : keys.encrypt n message = (.ok sealed, next) →
      sealed.length ≤ Frame.maxPayload → Heard keys next rest messages result →
      Heard keys n (Frame.write sealed ++ rest) (message :: messages) result

theorem lt_of_le_maxPayload {size : Nat} (h : size ≤ Frame.maxPayload) : size < 2 ^ 32 :=
  Nat.lt_of_le_of_lt h (by decide)

/-! ## A stream has one reading -/

section Stream

variable {keys : SessionKeys} {n last : Nonces} {rest stream : Bytes} {messages : List Bytes}
  {result : ChatEnd}

/-- How a chat ends at what the next read gives, if it ends there. -/
def endAt : Frame.Outcome → ChatEnd
  | .ended => .peerClosed
  | .frame _ _ => .decryptionFailed
  | _ => .transportFailed

theorem Remainder.eq_endAt (h : Remainder keys n rest result) :
    result = endAt (Frame.read Frame.maxPayload true rest) := by
  cases h with
  | nothing => rfl
  | partLength nonempty short => rw [Frame.read_partLength nonempty short, endAt] <;> simp
  | tooLarge large bound rest => rw [Frame.read_tooLarge large bound, endAt] <;> simp
  | partPayload small short =>
    rw [Frame.read_partPayload small (lt_of_le_maxPayload small) short, if_pos rfl, endAt] <;> simp
  | unsealed small other rest => rw [Frame.read_write small (lt_of_le_maxPayload small), endAt]

/-- What remains tells how the chat ends. -/
theorem Remainder.unique (h : Remainder keys n rest result) {result' : ChatEnd} :
    Remainder keys n rest result' ↔ result' = result := by
  constructor
  · intro h'
    rw [h.eq_endAt, h'.eq_endAt]
  · intro he
    rw [he]
    exact h

/-- No sealed frame comes after the last. -/
theorem Remainder.not_isSealed {sealed : Bytes} (hlen : sealed.length ≤ Frame.maxPayload)
    (h : Remainder keys n (Frame.write sealed ++ rest) result) : ¬ keys.IsSealed n sealed := by
  have hread : Frame.read Frame.maxPayload true (Frame.write sealed ++ rest) = .frame sealed rest :=
    Frame.read_write hlen (lt_of_le_maxPayload hlen) rest
  have hresult := h.eq_endAt
  rw [hread, endAt] at hresult
  subst hresult
  generalize hstream : Frame.write sealed ++ rest = stream at h hread
  cases h with
  | unsealed small other rest =>
    rw [Frame.read_write small (lt_of_le_maxPayload small)] at hread
    obtain ⟨rfl, -⟩ := Frame.Outcome.frame.inj hread
    exact other

/-- The frames at the front of the stream, and what follows them. -/
theorem Heard.frames (h : Heard keys n stream messages result) :
    ∃ all last rest, keys.encryptAll n messages = .ok (all, last) ∧
      (∀ sealed ∈ all, sealed.length ≤ Frame.maxPayload) ∧
      stream = Frame.writeAll all ++ rest ∧ Remainder keys last rest result := by
  induction h with
  | @stop n rest result hr => exact ⟨[], n, rest, rfl, by simp, rfl, hr⟩
  | @message n next message sealed rest messages result he hlen _ ih =>
    obtain ⟨all, last, left, hall, hsizes, rfl, hr⟩ := ih
    refine ⟨sealed :: all, last, left, ?_, ?_, ?_, hr⟩
    · simp only [SessionKeys.encryptAll, he, hall, bind, Except.bind]
      rfl
    · exact List.forall_mem_cons.mpr ⟨hlen, hsizes⟩
    · rw [Frame.writeAll_cons, List.append_assoc]

/-- All messages whose frames are at the front of the stream have been heard. -/
theorem Heard.prefix_of_frames (h : Heard keys n stream messages result) :
    ∀ {others all : List Bytes}, keys.encryptAll n others = .ok (all, last) →
      (∀ sealed ∈ all, sealed.length ≤ Frame.maxPayload) → Frame.writeAll all <+: stream →
      others <+: messages := by
  induction h with
  | @stop n rest result hr =>
    intro others all hall hsizes hpre
    cases others with
    | nil => exact List.nil_prefix
    | cons other others =>
      obtain ⟨sealed, next, more, rfl, hs, -⟩ := SessionKeys.encryptAll_cons hall
      obtain ⟨later, hlater⟩ := hpre
      rw [Frame.writeAll_cons, List.append_assoc] at hlater
      rw [← hlater] at hr
      exact absurd ⟨other, next, hs⟩ (hr.not_isSealed (hsizes sealed (List.mem_cons_self ..)))
  | @message n next message sealed rest messages result he hlen _ ih =>
    intro others all hall hsizes hpre
    cases others with
    | nil => exact List.nil_prefix
    | cons other others =>
      obtain ⟨sealed', next', more, rfl, hs, hmore⟩ := SessionKeys.encryptAll_cons hall
      obtain ⟨later, hlater⟩ := hpre
      rw [Frame.writeAll_cons, List.append_assoc] at hlater
      have hlen' := hsizes sealed' (List.mem_cons_self ..)
      -- Both frames are read off the front of one stream.
      have hread : Frame.read Frame.maxPayload true (Frame.write sealed ++ rest) =
          .frame sealed' (Frame.writeAll more ++ later) := by
        rw [← hlater]
        exact Frame.read_write hlen' (lt_of_le_maxPayload hlen') _
      rw [Frame.read_write hlen (lt_of_le_maxPayload hlen)] at hread
      obtain ⟨rfl, rfl⟩ := Frame.Outcome.frame.inj hread
      have hsame := (SessionKeys.decrypt_eq_ok_iff.mpr he).symm.trans
        (SessionKeys.decrypt_eq_ok_iff.mpr hs)
      obtain ⟨hmessage, rfl⟩ := Prod.mk.inj hsame
      obtain rfl := Except.ok.inj hmessage
      obtain ⟨tail, htail⟩ := ih hmore (fun c hc => hsizes c (List.mem_cons_of_mem _ hc))
        ⟨later, rfl⟩
      exact ⟨tail, congrArg (message :: ·) htail⟩

end Stream

/-! ## Receiving -/

variable {c : Chat}

theorem takeItems_of_over (h : c.result ≠ none) (items : List Frame.Item) :
    c.takeItems items = (c, []) := by
  have hover : c.result.isSome = true := Option.isSome_iff_ne_none.mpr h
  induction items with
  | nil => rfl
  | cons item items ih => simp only [takeItems, takeItem, if_pos hover, ih, List.append_nil]

theorem hear_of_over (h : c.result ≠ none) (pieces : List Bytes) : c.hear pieces = (c, []) := by
  have hover : c.result.isSome = true := Option.isSome_iff_ne_none.mpr h
  induction pieces with
  | nil => rw [hear, receive, if_pos hover]
  | cons piece pieces ih => simp only [hear, receive, if_pos hover, ih, List.append_nil]

/-- Where a chat is that has read `data`: further on in the stream, or at its end. -/
inductive Receipt (c : Chat) (ended : Bool) (data : Bytes) (unread : Bytes) :
    Chat → List ChatEvent → Prop
  | goesOn {messages : List Bytes} {inbound : Nonces} : ended = false →
      Frame.read Frame.maxPayload false unread = .incomplete →
      (∀ later messages' result, Heard c.keys inbound (unread ++ later) messages' result →
        Heard c.keys c.inbound (data ++ later) (messages ++ messages') result) →
      Receipt c ended data unread { c with inbound } (showAll c.remote messages)
  | ends {messages : List Bytes} {inbound : Nonces} {result : ChatEnd} :
      (∀ later, (ended = true → later = []) →
        Heard c.keys c.inbound (data ++ later) messages result) →
      Receipt c ended data unread { c with inbound, result := some result }
        (showAll c.remote messages ++ [ending c.remote result])

/-- A frame that opens comes before all that is read behind it. -/
theorem Receipt.message {ended : Bool} {data unread payload message : Bytes} {inbound : Nonces}
    {d : Chat} {events : List ChatEvent} (he : c.keys.encrypt c.inbound message = (.ok payload, inbound))
    (hlen : payload.length ≤ Frame.maxPayload)
    (h : Receipt { c with inbound } ended data unread d events) :
    Receipt c ended (Frame.write payload ++ data) unread d
      (.message c.remote (Utf8.decode message) :: events) := by
  cases h with
  | @goesOn messages inbound' hended hread hall =>
    have hmore : ∀ later messages' result, Heard c.keys inbound' (unread ++ later) messages' result →
        Heard c.keys c.inbound (Frame.write payload ++ data ++ later)
          (message :: messages ++ messages') result := by
      intro later messages' result hheard
      rw [List.append_assoc]
      exact .message he hlen (hall later messages' result hheard)
    exact .goesOn hended hread hmore
  | @ends messages inbound' result hall =>
    have hmore : ∀ later, (ended = true → later = []) →
        Heard c.keys c.inbound (Frame.write payload ++ data ++ later) (message :: messages) result := by
      intro later hl
      rw [List.append_assoc]
      exact .message he hlen (hall later hl)
    exact .ends hmore

/-- The chat that has taken all items of `data`, with what it has shown. -/
def Takes (c : Chat) (ended : Bool) (data : Bytes) : Prop :=
  Receipt c ended data (Frame.items Frame.maxPayload ended data).2
    (c.takeItems (Frame.items Frame.maxPayload ended data).1).1
    (c.takeItems (Frame.items Frame.maxPayload ended data).1).2

section Takes

variable {ended : Bool} {data : Bytes}

/-- The chat ends at an item that stands alone. -/
theorem takes_of_last {item : Frame.Item} (result : ChatEnd)
    (hi : Frame.items Frame.maxPayload ended data = ([item], []))
    (hc : c.takeItem item = (c.finish result, [ending c.remote result]))
    (hrest : ∀ later, (ended = true → later = []) → Remainder c.keys c.inbound (data ++ later) result) :
    c.Takes ended data := by
  have hstop : ∀ later, (ended = true → later = []) → Heard c.keys c.inbound (data ++ later) [] result :=
    fun later hl => .stop (hrest later hl)
  rw [Takes, hi]
  simp only [takeItems, hc, List.append_nil]
  exact .ends hstop

theorem takes_of_incomplete (h : Frame.read Frame.maxPayload false data = .incomplete) :
    c.Takes false data := by
  have hsame : ∀ later messages' result, Heard c.keys c.inbound (data ++ later) messages' result →
      Heard c.keys c.inbound (data ++ later) ([] ++ messages') result :=
    fun _ _ _ hheard => hheard
  rw [Takes, Frame.items_of_incomplete h]
  exact .goesOn rfl h hsame

theorem takeItem_of_sealed (hr : c.result = none) {message payload : Bytes} {inbound : Nonces}
    (h : c.keys.encrypt c.inbound message = (.ok payload, inbound)) :
    c.takeItem (.payload payload) =
      ({ c with inbound }, [.message c.remote (Utf8.decode message)]) := by
  have hopen : ¬ c.result.isSome = true := by simp [hr]
  simp only [takeItem, if_neg hopen, SessionKeys.decrypt_eq_ok_iff.mpr h]

theorem takeItem_of_unsealed (hr : c.result = none) {payload : Bytes}
    (h : ¬ c.keys.IsSealed c.inbound payload) :
    c.takeItem (.payload payload) = (c.finish .decryptionFailed, [.decryptionFailed c.remote]) := by
  obtain ⟨cause, hd⟩ := SessionKeys.exists_error_of_not_isSealed h
  have hopen : ¬ c.result.isSome = true := by simp [hr]
  simp only [takeItem, if_neg hopen, hd]

/-- The first frame is opened and the rest is taken, or the chat ends there. -/
theorem takes_of_frame (hr : c.result = none) {payload rest : Bytes}
    (hfits : Frame.Fits Frame.maxPayload payload)
    (hrest : ∀ {c : Chat}, c.result = none → c.Takes ended rest) :
    c.Takes ended (Frame.write payload ++ rest) := by
  rw [Takes, Frame.items_write hfits.1 hfits.2]
  by_cases hs : c.keys.IsSealed c.inbound payload
  · obtain ⟨message, inbound, he⟩ := hs
    simp only [takeItems, takeItem_of_sealed hr he]
    have hlater : Takes { c with inbound } ended rest := hrest hr
    exact hlater.message he hfits.1
  · have hstop : ∀ later, (ended = true → later = []) →
        Heard c.keys c.inbound (Frame.write payload ++ rest ++ later) [] .decryptionFailed := by
      intro later _
      rw [List.append_assoc]
      exact .stop (.unsealed hfits.1 hs _)
    have hover : (c.finish .decryptionFailed).result ≠ none := by simp [finish]
    simp only [takeItems, takeItem_of_unsealed hr hs, takeItems_of_over hover, List.append_nil]
    exact .ends hstop

end Takes

/-- By induction on the bytes: whatever they begin with, taking them ends the chat there or leaves
fewer to take. -/
theorem takes (ended : Bool) (data : Bytes) (hr : c.result = none) : c.Takes ended data := by
  induction hn : data.length using Nat.strongRecOn generalizing data c with
  | ind k ih =>
    cases Frame.front Frame.maxPayload data with
    | nothing =>
      cases ended with
      | false => exact takes_of_incomplete rfl
      | true =>
        refine takes_of_last .peerClosed (Frame.items_of_ended rfl) ?_ (fun later hl => ?_)
        · simp [takeItem, hr, ending]
        · rw [hl rfl]
          exact .nothing
    | partLength nonempty short =>
      cases ended with
      | false => exact takes_of_incomplete (Frame.read_of_short short)
      | true =>
        refine takes_of_last .transportFailed
          (Frame.items_of_cutLength (Frame.read_partLength nonempty short)) ?_ (fun later hl => ?_)
        · simp [takeItem, hr, ending]
        · rw [hl rfl, List.append_nil]
          exact .partLength nonempty short
    | tooLarge large bound rest =>
      refine takes_of_last .transportFailed
        (Frame.items_of_tooLarge (Frame.read_tooLarge large bound rest)) ?_ (fun later _ => ?_)
      · simp [takeItem, hr, ending]
      · rw [List.append_assoc]
        exact .tooLarge large bound _
    | partPayload small bound short =>
      cases ended with
      | false => exact takes_of_incomplete (Frame.read_partPayload small bound short)
      | true =>
        refine takes_of_last .transportFailed
          (Frame.items_of_cutPayload (Frame.read_partPayload small bound short)) ?_ (fun later hl => ?_)
        · simp [takeItem, hr, ending]
        · rw [hl rfl, List.append_nil]
          exact .partPayload small short
    | @frame payload fits rest =>
      have hshorter : rest.length < k := by
        rw [← hn, List.length_append]
        have := List.length_pos_iff.mpr (Frame.write_ne_nil payload)
        omega
      exact takes_of_frame hr fits fun hr => ih rest.length hshorter rest hr rfl

/-! ## The whole stream -/

theorem receive_receipt (hr : c.result = none) (ended : Bool) (bytes : Bytes) :
    ∃ unread, Receipt { c with unread } ended (c.unread ++ bytes) unread
      (c.receive ended bytes).1 (c.receive ended bytes).2 := by
  have hopen : ¬ c.result.isSome = true := by simp [hr]
  refine ⟨(Frame.items Frame.maxPayload ended (c.unread ++ bytes)).2, ?_⟩
  rw [receive, if_neg hopen]
  exact takes ended (c.unread ++ bytes) hr

/-- By induction on the pieces: a piece that does not end the chat leaves it waiting further on in
the stream. -/
theorem hear_spec (hr : c.result = none) (pieces : List Bytes) :
    ∃ messages result, Heard c.keys c.inbound (c.unread ++ pieces.flatten) messages result ∧
      (c.hear pieces).2 = showAll c.remote messages ++ [ending c.remote result] ∧
      (c.hear pieces).1.result = some result := by
  induction pieces generalizing c with
  | nil =>
    obtain ⟨unread, h⟩ := receive_receipt hr true []
    rw [hear, List.flatten_nil]
    generalize c.receive true [] = received at h
    obtain ⟨d, events⟩ := received
    cases h with
    | goesOn hended _ _ => exact absurd hended (by simp)
    | @ends messages inbound result hall =>
      have hheard := hall [] fun _ => rfl
      rw [List.append_nil, List.append_nil] at hheard
      exact ⟨messages, result, by rwa [List.append_nil], rfl, rfl⟩
  | cons piece pieces ih =>
    obtain ⟨unread, h⟩ := receive_receipt hr false piece
    rw [hear, List.flatten_cons, ← List.append_assoc]
    generalize c.receive false piece = received at h
    obtain ⟨d, events⟩ := received
    cases h with
    | @goesOn messages inbound _ _ hall =>
      have hopen : { c with unread, inbound }.result = none := hr
      obtain ⟨messages', result, hheard, hevents, hresult⟩ := ih hopen
      refine ⟨messages ++ messages', result, hall _ _ _ hheard, ?_, hresult⟩
      show showAll c.remote messages ++ _ = _
      rw [hevents, showAll, showAll, showAll, List.map_append, List.append_assoc]
    | @ends messages inbound result hall =>
      have hover : { c with unread, inbound, result := some result }.result ≠ none := by simp
      refine ⟨messages, result, hall _ (by simp), ?_, ?_⟩
      · simp only [hear_of_over hover, List.append_nil]
        rfl
      · simp only [hear_of_over hover]

/-- However a stream is cut into pieces: its front is the frames of messages that were sealed in turn
by the peer, they are shown, the chat ends in the way that tells what follows them, and that is no
frame of a further message. -/
theorem hear_stream (remote : String) (role : Role) (mode : NonceMode) (keys : SessionKeys)
    (first : Bytes) (pieces : List Bytes) :
    ∃ messages all last rest result,
      keys.encryptAll (.outbound keys role.peer mode) messages = .ok (all, last) ∧
      (∀ sealed ∈ all, sealed.length ≤ Frame.maxPayload) ∧
      first ++ pieces.flatten = Frame.writeAll all ++ rest ∧
      (∀ result', Remainder keys last rest result' ↔ result' = result) ∧
      (∀ others more last', keys.encryptAll (.outbound keys role.peer mode) others = .ok (more, last') →
        (∀ sealed ∈ more, sealed.length ≤ Frame.maxPayload) →
        Frame.writeAll more <+: first ++ pieces.flatten → others <+: messages) ∧
      ((start remote role mode keys first).hear pieces).2 =
        showAll remote messages ++ [ending remote result] ∧
      ((start remote role mode keys first).hear pieces).1.result = some result := by
  have hopen : (start remote role mode keys first).result = none := rfl
  obtain ⟨messages, result, hheard, hevents, hresult⟩ := hear_spec hopen pieces
  obtain ⟨all, last, rest, hall, hsizes, hstream, hrest⟩ := hheard.frames
  exact ⟨messages, all, last, rest, result, hall, hsizes, hstream, fun _ => hrest.unique,
    fun _ _ _ hmore hfits hpre => hheard.prefix_of_frames hmore hfits hpre, hevents, hresult⟩

end Chat

end PeerChat
