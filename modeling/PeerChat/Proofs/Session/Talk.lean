import Mathlib.Data.List.TakeWhile
import PeerChat.Proofs.Session.Chat
import PeerChat.Session.Dialogue

/-!
# One end of a chat, while it lasts and after

`Talks` is what holds of an end from the start of its chat on: what it has sent is sealed in order,
what it has shown is the beginning of what the other end has sent, and the rest is under way to it.
Typing (`Talks.typeLine`), the end of the input (`Talks.endInput`) and reading (`Talks.advance`)
keep it, and so does all that the other end does (`Talks.hear`).
-/

namespace PeerChat.Dialogue

/-! ## Typed lines -/

/-- No line among them is the quit word. -/
def NoQuit (lines : List String) : Prop := ∀ line ∈ lines, Text.trimLineEnd line ≠ Chat.quitWord

section Lines

variable {lines : List String} {line : String}

theorem texts_concat (h : NoQuit lines) (line : String) :
    texts (lines ++ [line]) = texts lines ++ texts [line] := by
  have hall : ∀ text ∈ lines.map Text.trimLineEnd, decide (text ≠ Chat.quitWord) = true := by
    intro text hm
    obtain ⟨line, hl, rfl⟩ := List.mem_map.mp hm
    exact decide_eq_true (h line hl)
  rw [texts, texts, texts, List.map_append, List.takeWhile_append_of_pos hall,
    List.takeWhile_eq_self_iff.mpr hall]

theorem sendable_concat (h : NoQuit lines) (line : String) :
    sendable (lines ++ [line]) = sendable lines ++ sendable [line] := by
  rw [sendable, texts_concat h, List.filter_append]
  rfl

theorem oversized_concat (h : NoQuit lines) (line : String) :
    oversized (lines ++ [line]) = oversized lines ++ oversized [line] := by
  rw [oversized, texts_concat h, List.map_append, List.filter_append]
  rfl

theorem texts_quit (h : Text.trimLineEnd line = Chat.quitWord) : texts [line] = [] := by
  simp [texts, h]

theorem texts_single (h : Text.trimLineEnd line ≠ Chat.quitWord) :
    texts [line] = [Text.trimLineEnd line] := by
  simp [texts, h]

theorem NoQuit.concat (h : NoQuit lines) (hl : Text.trimLineEnd line ≠ Chat.quitWord) :
    NoQuit (lines ++ [line]) := by
  intro l hm
  rcases List.mem_append.mp hm with hm | hm
  · exact h l hm
  · rw [List.mem_singleton.mp hm]
    exact hl

theorem size_le_of_mem_sendable {text : String} (h : text ∈ sendable lines) :
    text.utf8ByteSize ≤ Chat.maxMessage := by
  have := (List.mem_filter.mp h).2
  simp only [decide_eq_true_eq] at this
  exact this.2

end Lines

/-! ## What is shown -/

theorem messages_append (events later : List ChatEvent) :
    messages (events ++ later) = messages events ++ messages later := List.filterMap_append

theorem sizes_append (events later : List ChatEvent) :
    sizes (events ++ later) = sizes events ++ sizes later := List.filterMap_append

theorem messages_map_message (sender : String) (texts : List String) :
    messages (texts.map (.message sender)) = texts.map fun text => (sender, text) := by
  simp [messages, List.filterMap_map]

theorem sizes_map_message (sender : String) (texts : List String) :
    sizes (texts.map (.message sender)) = [] := by
  simp [sizes, List.filterMap_map]

/-- The texts of the messages that an end has shown. -/
def Side.heard (s : Side) : List String := (messages s.shown).map (·.2)

/-! ## One end -/

/-- What an end calls the other. -/
def Setup.label (u : Setup) : Role → String
  | .initiator => u.callee
  | .responder => u.caller

/-- An end `s` in role `r` whose chat is `chat`.  The other end has sent the texts `sent`, its nonces
are `last`, `gone` says that it is over, and `bytes` have not been read yet. -/
structure Talks (u : Setup) (r : Role) (keys : SessionKeys) (s : Side) (chat : Chat)
    (sent : List String) (last : Nonces) (gone : Prop) (bytes : Bytes) : Prop where
  stage_eq : s.stage = .chatting chat
  keys_eq : chat.keys = keys
  remote_eq : chat.remote = u.label r
  unread_incomplete : Frame.read Frame.maxPayload false chat.unread = .incomplete
  sealing : ∃ all, Sealing keys (.ofSender keys.iv r u.mode) s.sent all chat.outbound
  sizes_eq : sizes s.shown = oversized s.typed
  noQuit : chat.result = none → NoQuit s.typed
  exhausted : chat.result = some .encryptionFailed → u.mode = .counter ∧ 2 ^ 64 ≤ s.sent.length
  senders : ∀ m ∈ messages s.shown, m.1 = u.label r
  heard_start : s.heard <+: sent
  underway : chat.result = none → ∃ left, sent = s.heard ++ left ∧
    chat.Underway left last (chat.unread ++ bytes)
  intact : ∀ name, .decryptionFailed name ∉ s.shown
  closed : ∀ name, .closed name ∈ s.shown → s.heard = sent ∧ gone

theorem sent_of_chatting {s : Side} {chat : Chat} (h : s.stage = .chatting chat) :
    s.sent = if chat.result = some .encryptionFailed ∨ chat.result = some .transportFailed then
      sendable s.typed.dropLast else sendable s.typed := by
  rw [Side.sent, h]

/-- Nothing is under way to the end, and its chat goes on. -/
theorem Talks.heard_eq {u : Setup} {r : Role} {keys : SessionKeys} {s : Side} {chat : Chat}
    {sent : List String} {last : Nonces} {gone : Prop} (h : Talks u r keys s chat sent last gone [])
    (hr : chat.result = none) : s.heard = sent := by
  obtain ⟨left, hs, hu⟩ := h.underway hr
  rw [List.append_nil] at hu
  rw [hs, hu.eq_nil h.unread_incomplete, List.append_nil]

/-- An end at the start of its chat, with all that the other end has sent so far still to come. -/
theorem Talks.start {u : Setup} {r : Role} {keys : SessionKeys} {s : Side} {chat : Chat}
    {sent : List String} {all : List Bytes} {last : Nonces} {gone : Prop}
    (hc : chat = .start (u.label r) r u.mode keys []) (hs : s.stage = .chatting chat)
    (ht : s.typed = []) (hw : s.shown = [])
    (hseal : Sealing keys (.ofSender keys.iv r.peer u.mode) sent all last)
    (hsize : ∀ text ∈ sent, text.utf8ByteSize ≤ Chat.maxMessage) :
    Talks u r keys s chat sent last gone (Frame.writeAll all) := by
  subst hc
  have hsent : s.sent = [] := by
    rw [sent_of_chatting hs, ht]
    rfl
  have hheard : s.heard = [] := by
    rw [Side.heard, hw]
    rfl
  refine ⟨hs, rfl, rfl, rfl, ⟨[], ?_⟩, ?_, ?_, ?_, ?_, ?_, ?_, ?_, ?_⟩
  · rw [hsent]
    exact .nil _
  · rw [ht, hw]
    rfl
  · rw [ht]
    exact fun _ _ hm => absurd hm (by simp)
  · exact fun he => absurd he (by simp [Chat.start])
  · rw [hw]
    exact fun _ hm => absurd hm (by simp [messages])
  · rw [hheard]
    exact List.nil_prefix
  · intro _
    rw [hheard]
    exact ⟨sent, rfl, all, hseal, rfl, hsize⟩
  · rw [hw]
    exact fun _ hm => absurd hm (by simp)
  · rw [hw]
    exact fun _ hm => absurd hm (by simp)

/-- What has arrived and is not read, and the random bytes, do not matter. -/
theorem Talks.congr {u : Setup} {r : Role} {keys : SessionKeys} {s : Side} {chat : Chat}
    {sent : List String} {last : Nonces} {gone : Prop} {bytes : Bytes}
    (h : Talks u r keys s chat sent last gone bytes) {s' : Side} (hs : s'.stage = s.stage)
    (ht : s'.typed = s.typed) (hw : s'.shown = s.shown) :
    Talks u r keys s' chat sent last gone bytes := by
  obtain ⟨stage, incoming, ended, pool, typed, shown⟩ := s
  obtain ⟨stage', incoming', ended', pool', typed', shown'⟩ := s'
  obtain rfl : stage' = stage := hs
  obtain rfl : typed' = typed := ht
  obtain rfl : shown' = shown := hw
  exact ⟨h.stage_eq, h.keys_eq, h.remote_eq, h.unread_incomplete, h.sealing, h.sizes_eq, h.noQuit,
    h.exhausted, h.senders, h.heard_start, h.underway, h.intact, h.closed⟩

theorem sent_congr {s s' : Side} (hs : s'.stage = s.stage) (ht : s'.typed = s.typed) :
    s'.sent = s.sent := by
  rw [Side.sent, Side.sent, hs, ht]

/-- What a step of an end adds to what it has sent: nothing, or one sealed text. -/
inductive Emits (keys : SessionKeys) (sent : List String) (out : Nonces) :
    List String → Nonces → Bytes → Prop
  | nothing : Emits keys sent out sent out []
  | frame {text : String} {sealed : Bytes} {next : Nonces} :
      text.utf8ByteSize ≤ Chat.maxMessage →
      keys.encrypt out (Utf8.encode text) = (.ok sealed, next) →
      Emits keys sent out (sent ++ [text]) next (Frame.write sealed)

theorem Emits.underway {chat : Chat} {sent sent' left : List String} {last last' : Nonces}
    {heard : List String} {bytes more : Bytes} (he : Emits chat.keys sent last sent' last' more)
    (hs : sent = heard ++ left) (h : chat.Underway left last bytes) :
    ∃ left', sent' = heard ++ left' ∧ chat.Underway left' last' (bytes ++ more) := by
  cases he with
  | nothing => exact ⟨left, hs, by rw [List.append_nil]; exact h⟩
  | @frame text sealed next hsize henc =>
    obtain ⟨all, hseal, rfl, ht⟩ := h
    refine ⟨left ++ [text], by rw [hs, List.append_assoc], all ++ [sealed], hseal.concat henc, ?_, ?_⟩
    · rw [Frame.writeAll, Frame.writeAll, List.flatMap_append, List.flatMap_singleton]
    · intro t hm
      rcases List.mem_append.mp hm with hm | hm
      · exact ht t hm
      · rw [List.mem_singleton.mp hm]
        exact hsize

theorem Emits.sealing {keys : SessionKeys} {first last last' : Nonces} {sent sent' : List String}
    {all : List Bytes} {more : Bytes} (he : Emits keys sent last sent' last' more)
    (h : Sealing keys first sent all last) :
    ∃ all', Sealing keys first sent' all' last' ∧
      Frame.writeAll all' = Frame.writeAll all ++ more := by
  cases he with
  | nothing => exact ⟨all, h, (List.append_nil _).symm⟩
  | frame _ henc =>
    refine ⟨_, h.concat henc, ?_⟩
    rw [Frame.writeAll, Frame.writeAll, List.flatMap_append, List.flatMap_singleton]

theorem Emits.grows {keys : SessionKeys} {sent sent' : List String} {last last' : Nonces}
    {more : Bytes} (he : Emits keys sent last sent' last' more) : sent <+: sent' := by
  cases he with
  | nothing => exact List.prefix_rfl
  | frame => exact List.prefix_append sent _

theorem size_le_of_mem_sent {s : Side} {text : String} (h : text ∈ s.sent) :
    text.utf8ByteSize ≤ Chat.maxMessage := by
  unfold Side.sent at h
  split at h
  · split at h
    · exact size_le_of_mem_sendable h
    · exact size_le_of_mem_sendable h
  · exact absurd h (by simp)

/-! ## Typing -/

section Steps

variable {u : Setup} {r : Role} {keys : SessionKeys} {s : Side} {chat : Chat} {sent : List String}
  {last : Nonces} {gone : Prop} {bytes : Bytes}

theorem typeLine_of_over (hs : s.stage = .chatting chat) (ho : chat.result ≠ none) (writable : Bool)
    (line : String) : s.typeLine writable line = (s, []) := by
  have hsome : chat.result.isSome = true := Option.isSome_iff_ne_none.mpr ho
  rw [Side.typeLine, hs]
  simp only [if_pos hsome]

theorem typeLine_of_open (hs : s.stage = .chatting chat) (ho : chat.result = none) (writable : Bool)
    (line : String) : s.typeLine writable line =
      ({ s with
        stage := .chatting (chat.typeLine writable line).1
        typed := s.typed ++ [line]
        shown := s.shown ++ (chat.typeLine writable line).2.events },
        (chat.typeLine writable line).2.sent) := by
  have hopen : ¬ chat.result.isSome = true := by simp [ho]
  rw [Side.typeLine, hs]
  simp only [if_neg hopen]

/-- A typed line changes the chat's result and its outbound nonces at most, and shows nothing but
its own size. -/
theorem Talks.typed (h : Talks u r keys s chat sent last gone bytes) {chat' : Chat}
    {outbound : Nonces} {result : Option ChatEnd} (hc : chat' = { chat with outbound, result })
    (hresult : chat.result = none) {line : String} {events : List ChatEvent}
    (hevents : events = (oversized [line]).map .messageTooLong) {s' : Side}
    (hs' : s' = { s with
      stage := .chatting chat', typed := s.typed ++ [line], shown := s.shown ++ events })
    (hseal : ∃ all, Sealing keys (.ofSender keys.iv r u.mode) s'.sent all outbound)
    (hquit : result = none → NoQuit s'.typed)
    (hex : result = some .encryptionFailed → u.mode = .counter ∧ 2 ^ 64 ≤ s'.sent.length) :
    Talks u r keys s' chat' sent last gone bytes := by
  have hmessages : messages events = [] := by
    rw [hevents]
    simp [messages, List.filterMap_map]
  have hsizes : sizes events = oversized [line] := by
    rw [hevents]
    simp [sizes, List.filterMap_map]
  have hshown : messages s'.shown = messages s.shown := by
    rw [hs', messages_append, hmessages, List.append_nil]
  have hheard : s'.heard = s.heard := by rw [Side.heard, hshown, Side.heard]
  have hmem : ∀ {e}, e ∈ s'.shown → (∀ size, e ≠ .messageTooLong size) → e ∈ s.shown := by
    intro e he hne
    rw [hs'] at he
    rcases List.mem_append.mp he with he | he
    · exact he
    · rw [hevents] at he
      obtain ⟨size, -, rfl⟩ := List.mem_map.mp he
      exact absurd rfl (hne size)
  refine ⟨by rw [hs'], by rw [hc]; exact h.keys_eq, by rw [hc]; exact h.remote_eq,
    by rw [hc]; exact h.unread_incomplete, ?_, ?_, ?_, ?_, ?_, ?_, ?_, ?_, ?_⟩
  · rw [hc]
    exact hseal
  · rw [hs', sizes_append, hsizes, h.sizes_eq, oversized_concat (h.noQuit hresult)]
  · rw [hc]
    exact hquit
  · rw [hc]
    exact hex
  · rw [hshown]
    exact h.senders
  · rw [hheard]
    exact h.heard_start
  · intro _
    rw [hheard, hc]
    exact h.underway hresult
  · exact fun name he => h.intact name (hmem he (by simp))
  · intro name he
    rw [hheard]
    exact h.closed name (hmem he (by simp))

/-- What the typed lines come to, as long as the chat does not break down at the last of them. -/
theorem sent_mk {chat : Chat} (hr : chat.result ≠ some .encryptionFailed)
    (hr' : chat.result ≠ some .transportFailed) (incoming : Bytes) (ended : Bool) (pool : Entropy)
    (lines : List String) (shown : List ChatEvent) :
    Side.sent ⟨.chatting chat, incoming, ended, pool, lines, shown⟩ = sendable lines := by
  rw [sent_of_chatting rfl, if_neg]
  rintro (he | he)
  · exact hr he
  · exact hr' he

theorem sent_mk_of_broken {chat : Chat}
    (hr : chat.result = some .encryptionFailed ∨ chat.result = some .transportFailed)
    (incoming : Bytes) (ended : Bool) (pool : Entropy) (lines : List String) (line : String)
    (shown : List ChatEvent) :
    Side.sent ⟨.chatting chat, incoming, ended, pool, lines ++ [line], shown⟩ = sendable lines := by
  rw [sent_of_chatting rfl, if_pos hr]
  simp

/-- What a line does to an open chat, to what it has sent and to what is shown. -/
theorem typeLine_spec (hs : s.stage = .chatting chat) (hresult : chat.result = none)
    (hq : NoQuit s.typed) (writable : Bool) (line : String) :
    ∃ outbound result, (chat.typeLine writable line).1 = { chat with outbound, result } ∧
      (chat.typeLine writable line).2.events = (oversized [line]).map .messageTooLong ∧
      Emits chat.keys s.sent chat.outbound (s.typeLine writable line).1.sent outbound
        (chat.typeLine writable line).2.sent ∧
      (result = none → Text.trimLineEnd line ≠ Chat.quitWord) ∧
      (result = some .encryptionFailed →
        chat.outbound.mode = .counter ∧ chat.outbound.next = none) := by
  have hsent : s.sent = sendable s.typed := by
    rw [sent_of_chatting hs, if_neg]
    simp [hresult]
  have hconcat := sendable_concat hq line
  have hcases := Chat.typeLine_cases hresult writable line
  rw [typeLine_of_open hs hresult, hsent]
  generalize hnext : (chat.typeLine writable line).1 = next at hcases ⊢
  generalize heffects : (chat.typeLine writable line).2 = effects at hcases ⊢
  cases hcases with
  | quit hquit =>
    have hnone : sendable [line] = [] := by rw [sendable, texts_quit hquit]; rfl
    refine ⟨_, some .localQuit, rfl, ?_, ?_, by simp, by simp⟩
    · rw [oversized, texts_quit hquit]
      rfl
    · rw [sent_mk (by simp [Chat.finish]) (by simp [Chat.finish]), hconcat, hnone, List.append_nil]
      exact .nothing
  | empty hquit hempty =>
    have hnone : sendable [line] = [] := by simp [sendable, texts_single hquit, hempty]
    refine ⟨_, chat.result, rfl, ?_, ?_, fun _ => hquit, by simp [hresult]⟩
    · simp [oversized, texts_single hquit, hempty]
    · rw [sent_mk (by simp [hresult]) (by simp [hresult]), hconcat, hnone, List.append_nil]
      exact .nothing
  | tooLong hquit hempty hlong =>
    have hnone : sendable [line] = [] := by
      simp [sendable, texts_single hquit, Nat.not_le.mpr hlong]
    refine ⟨_, chat.result, rfl, ?_, ?_, fun _ => hquit, by simp [hresult]⟩
    · simp [oversized, texts_single hquit, hlong]
    · rw [sent_mk (by simp [hresult]) (by simp [hresult]), hconcat, hnone, List.append_nil]
      exact .nothing
  | unsealed hquit hempty hsize henc =>
    have hlen : (Utf8.encode (Text.trimLineEnd line)).length < Aead.maxMessage := by
      have hmax : Chat.maxMessage < Aead.maxMessage := by decide
      rw [Utf8.length_encode]
      omega
    refine ⟨_, some .encryptionFailed, rfl, ?_, ?_, by simp,
      fun _ => SessionKeys.current_eq_error_of_encrypt hlen henc⟩
    · simp [oversized, texts_single hquit, Nat.not_lt.mpr hsize]
    · rw [sent_mk_of_broken (.inl rfl)]
      exact .nothing
  | unsent hquit hempty hsize henc =>
    refine ⟨_, some .transportFailed, rfl, ?_, ?_, by simp, by simp⟩
    · simp [oversized, texts_single hquit, Nat.not_lt.mpr hsize]
    · rw [sent_mk_of_broken (.inr rfl)]
      exact .nothing
  | @sent sealed outbound hquit hempty hsize henc =>
    have hone : sendable [line] = [Text.trimLineEnd line] := by
      simp [sendable, texts_single hquit, hempty, hsize]
    refine ⟨outbound, chat.result, rfl, ?_, ?_, fun _ => hquit, by simp [hresult]⟩
    · simp [oversized, texts_single hquit, Nat.not_lt.mpr hsize]
    · rw [sent_mk (by simp [hresult]) (by simp [hresult]), hconcat, hone]
      exact .frame hsize henc

theorem Talks.typeLine (h : Talks u r keys s chat sent last gone bytes) (writable : Bool)
    (line : String) : ∃ chat', Talks u r keys (s.typeLine writable line).1 chat' sent last gone bytes ∧
      Emits keys s.sent chat.outbound (s.typeLine writable line).1.sent chat'.outbound
        (s.typeLine writable line).2 ∧
      (chat.result ≠ none → chat'.result ≠ none) := by
  by_cases hresult : chat.result = none
  · obtain ⟨all, hseal⟩ := h.sealing
    obtain ⟨outbound, result, hc, hevents, hemits, hquit, hex⟩ :=
      typeLine_spec h.stage_eq hresult (h.noQuit hresult) writable line
    rw [h.keys_eq] at hemits
    have hnext : (s.typeLine writable line).2 = (chat.typeLine writable line).2.sent := by
      rw [typeLine_of_open h.stage_eq hresult]
    refine ⟨_, h.typed hc hresult hevents (by rw [typeLine_of_open h.stage_eq hresult]) ?_ ?_ ?_, ?_,
      fun hne => absurd hresult hne⟩
    · obtain ⟨all', hseal', -⟩ := hemits.sealing hseal
      exact ⟨all', hseal'⟩
    · intro hr
      rw [typeLine_of_open h.stage_eq hresult]
      exact (h.noQuit hresult).concat (hquit hr)
    · intro hr
      obtain ⟨hmode, hnone⟩ := hex hr
      obtain ⟨hcounter, hlen⟩ := hseal.exhausted hmode hnone
      exact ⟨hcounter, Nat.le_trans hlen hemits.grows.length_le⟩
    · rw [hnext, hc]
      exact hemits
  · rw [typeLine_of_over h.stage_eq hresult]
    exact ⟨chat, h, .nothing, id⟩

/-! ## The other steps -/

theorem Talks.endInput (h : Talks u r keys s chat sent last gone bytes) :
    Talks u r keys s.endInput chat.endInput sent last gone bytes ∧ s.endInput.sent = s.sent ∧
      chat.endInput.outbound = chat.outbound ∧ chat.endInput.result ≠ none := by
  have hs : s.endInput = { s with stage := .chatting chat.endInput } := by
    rw [Side.endInput, h.stage_eq]
  have hc : ∃ result, chat.endInput = { chat with result } ∧ result ≠ none ∧
      (chat.result ≠ none → result = chat.result) ∧
      (chat.result = none → result = some .localQuit) := by
    unfold Chat.endInput Chat.finish
    split
    · rename_i hr
      exact ⟨chat.result, rfl, Option.isSome_iff_ne_none.mp hr, fun _ => rfl, fun hn => by simp [hn] at hr⟩
    · rename_i hr
      exact ⟨_, rfl, by simp, fun hn => absurd (Option.isSome_iff_ne_none.mpr hn) hr, fun _ => rfl⟩
  obtain ⟨result, hc, hne, hsame, hquit⟩ := hc
  have hbroken : ∀ e, e ≠ .localQuit → (result = some e ↔ chat.result = some e) := by
    intro e he
    by_cases hr : chat.result = none
    · rw [hquit hr, hr]
      simp [Ne.symm he]
    · rw [hsame hr]
  have hsent : s.endInput.sent = s.sent := by
    rw [sent_of_chatting h.stage_eq, sent_of_chatting (by rw [hs]), hc]
    simp only [hbroken .encryptionFailed (by simp), hbroken .transportFailed (by simp)]
    rw [hs]
  refine ⟨?_, hsent, by rw [hc], by rw [hc]; exact hne⟩
  refine ⟨by rw [hs], by rw [hc]; exact h.keys_eq, by rw [hc]; exact h.remote_eq,
    by rw [hc]; exact h.unread_incomplete, ?_, by rw [hs]; exact h.sizes_eq, fun hr => absurd hr (by rw [hc]; exact hne), ?_,
    by rw [hs]; exact h.senders, by rw [hs]; exact h.heard_start,
    fun hr => absurd hr (by rw [hc]; exact hne), by rw [hs]; exact h.intact,
    by rw [hs]; exact h.closed⟩
  · rw [hsent, hc]
    exact h.sealing
  · rw [hsent, hc]
    intro hr
    exact h.exhausted ((hbroken .encryptionFailed (by simp)).mp hr)

/-- The other end moves. -/
theorem Talks.hear (h : Talks u r keys s chat sent last gone bytes) {sent' : List String}
    {last' : Nonces} {gone' : Prop} {more : Bytes} (he : Emits keys sent last sent' last' more)
    (ho : gone → gone') (hstill : gone → sent' = sent) :
    Talks u r keys s chat sent' last' gone' (bytes ++ more) := by
  refine ⟨h.stage_eq, h.keys_eq, h.remote_eq, h.unread_incomplete, h.sealing, h.sizes_eq, h.noQuit,
    h.exhausted, h.senders, h.heard_start.trans he.grows, ?_, h.intact, ?_⟩
  · intro hr
    obtain ⟨left, hs, hu⟩ := h.underway hr
    rw [← List.append_assoc]
    rw [← h.keys_eq] at he
    exact he.underway hs hu
  · intro name hm
    obtain ⟨hsame, hover⟩ := h.closed name hm
    exact ⟨by rw [hstill hover, hsame], ho hover⟩

/-! ## Reading -/

theorem heard_append (s : Side) {texts : List String} {tail : List ChatEvent} {sender : String}
    (ht : messages tail = []) (stage : Stage) (incoming : Bytes) :
    Side.heard { s with stage, incoming, shown := s.shown ++ (texts.map (.message sender) ++ tail) } =
      s.heard ++ texts := by
  rw [Side.heard, Side.heard, messages_append, messages_append, messages_map_message, ht]
  simp [Function.comp_def]

/-- What is shown besides texts was shown before, or is shown after them. -/
theorem mem_of_mem_shown {shown tail : List ChatEvent} {texts : List String} {sender : String}
    {e : ChatEvent} (hm : e ∈ shown ++ (texts.map (.message sender) ++ tail))
    (he : ∀ text, e ≠ .message sender text) : e ∈ shown ∨ e ∈ tail := by
  rcases List.mem_append.mp hm with hm | hm
  · exact .inl hm
  · rcases List.mem_append.mp hm with hm | hm
    · obtain ⟨text, -, ht⟩ := List.mem_map.mp hm
      exact absurd ht.symm (he text)
    · exact .inr hm

/-- An end shows texts, and maybe that the other end is gone. -/
theorem Talks.show (h : Talks u r keys s chat sent last gone bytes) (hresult : chat.result = none)
    {chat' : Chat} {inbound : Nonces} {unread : Bytes} (result : Option ChatEnd)
    (hc : chat' = { chat with inbound, unread, result })
    (hu : Frame.read Frame.maxPayload false unread = .incomplete)
    (hr : result = none ∨ result = some .peerClosed) {texts : List String} (tail : List ChatEvent)
    (htail : tail = [] ∨ tail = [.closed chat.remote] ∧ sent = s.heard ++ texts ∧ gone)
    (hstart : s.heard ++ texts <+: sent) (rest : Bytes)
    (hunder : result = none → ∃ left, sent = s.heard ++ texts ++ left ∧
      chat'.Underway left last (chat'.unread ++ rest)) {s' : Side}
    (hs' : s' = { s with
      stage := .chatting chat', incoming := [],
      shown := s.shown ++ (texts.map (.message chat.remote) ++ tail) }) :
    Talks u r keys s' chat' sent last gone rest ∧ s'.sent = s.sent := by
  have hmessages : messages tail = [] := by
    rcases htail with rfl | ⟨rfl, -⟩
    · rfl
    · rfl
  have hsizes : sizes tail = [] := by
    rcases htail with rfl | ⟨rfl, -⟩
    · rfl
    · rfl
  have hheard : s'.heard = s.heard ++ texts := by
    rw [hs']
    exact heard_append s hmessages _ _
  have hwhole : chat'.result ≠ some .encryptionFailed ∧ chat'.result ≠ some .transportFailed := by
    rw [hc]
    rcases hr with rfl | rfl
    · simp
    · simp
  have hsent : s'.sent = s.sent := by
    rw [hs', sent_mk hwhole.1 hwhole.2, sent_of_chatting h.stage_eq, if_neg]
    simp [hresult]
  refine ⟨⟨by rw [hs'], by rw [hc]; exact h.keys_eq, by rw [hc]; exact h.remote_eq,
    by rw [hc]; exact hu, ?_, ?_, ?_, ?_, ?_, by rw [hheard]; exact hstart, ?_, ?_, ?_⟩, hsent⟩
  · rw [hsent, hc]
    exact h.sealing
  · rw [hs', sizes_append, sizes_append, sizes_map_message, hsizes, List.append_nil, List.append_nil]
    exact h.sizes_eq
  · intro _
    rw [hs']
    exact h.noQuit hresult
  · exact fun he => absurd he hwhole.1
  · intro m hm
    rw [hs', messages_append, messages_append, messages_map_message, hmessages, List.append_nil] at hm
    rcases List.mem_append.mp hm with hm | hm
    · exact h.senders m hm
    · obtain ⟨text, -, rfl⟩ := List.mem_map.mp hm
      exact h.remote_eq
  · intro hn
    obtain ⟨left, hs, hu⟩ := hunder (by rw [hc] at hn; exact hn)
    exact ⟨left, by rw [hheard]; exact hs, hu⟩
  · intro name hm
    rw [hs'] at hm
    rcases mem_of_mem_shown hm (by simp) with hm | hm
    · exact h.intact name hm
    · rcases htail with rfl | ⟨rfl, -⟩
      · exact absurd hm (by simp)
      · exact absurd hm (by simp)
  · intro name hm
    rw [hheard]
    rw [hs'] at hm
    rcases mem_of_mem_shown hm (by simp) with hm | hm
    · -- What was closed before has shown everything already, so nothing is shown after it.
      obtain ⟨hall, hover⟩ := h.closed name hm
      have hnil : texts = [] := by
        have hlen := hstart.length_le
        rw [hall, List.length_append] at hlen
        exact List.length_eq_zero_iff.mp (by omega)
      rw [hnil, List.append_nil]
      exact ⟨hall, hover⟩
    · rcases htail with rfl | ⟨rfl, hall, hover⟩
      · exact absurd hm (by simp)
      · exact ⟨hall.symm, hover⟩

theorem advance_of_chatting (hs : s.stage = .chatting chat) : s.advance u =
    ({ s with
      stage := .chatting (chat.receive s.ended s.incoming).1, incoming := []
      shown := s.shown ++ (chat.receive s.ended s.incoming).2 }, []) := by
  rw [Side.advance, hs]

theorem Talks.advance {rest : Bytes}
    (h : Talks u r keys s chat sent last gone (s.incoming ++ rest))
    (hended : s.ended = true → rest = [] ∧ gone) :
    ∃ chat', Talks u r keys (s.advance u).1 chat' sent last gone rest ∧
      (s.advance u).1.sent = s.sent ∧ chat'.outbound = chat.outbound ∧
      (chat.result ≠ none → chat'.result ≠ none) := by
  rw [advance_of_chatting h.stage_eq]
  by_cases hresult : chat.result = none
  · obtain ⟨left, hs, hu⟩ := h.underway hresult
    rw [← List.append_assoc] at hu
    cases he : s.ended with
    | false =>
      obtain ⟨texts, left', hl, hevents, hu', hn, inbound, unread, hc⟩ :=
        Chat.receive_underway hresult hu
      rw [hc] at hn
      have hall : sent = s.heard ++ texts ++ left' := by rw [hs, hl, List.append_assoc]
      obtain ⟨ht, hsent⟩ := h.show hresult chat.result hc hn (.inl hresult) [] (.inl rfl)
        (hall ▸ List.prefix_append _ left') rest (fun _ => ⟨left', hall, hu'⟩) rfl
      rw [he] at ht hsent
      rw [hevents, ← List.append_nil (texts.map _)]
      exact ⟨_, ht, hsent, by rw [hc], fun hn => absurd hresult hn⟩
    | true =>
      obtain ⟨rfl, hover⟩ := hended he
      rw [List.append_nil] at hu
      obtain ⟨hevents, inbound, hc⟩ := Chat.receive_underway_ended hresult hu
      obtain ⟨ht, hsent⟩ := h.show hresult (some .peerClosed) hc rfl (.inr rfl)
        [.closed chat.remote] (.inr ⟨rfl, hs, hover⟩) (hs ▸ List.prefix_rfl) [] (by simp) rfl
      rw [he] at ht hsent
      rw [hevents]
      exact ⟨_, ht, hsent, by rw [hc], fun hn => absurd hresult hn⟩
  · have hsome : chat.result.isSome = true := Option.isSome_iff_ne_none.mpr hresult
    have hrec : chat.receive s.ended s.incoming = (chat, []) := by rw [Chat.receive, if_pos hsome]
    rw [hrec, List.append_nil]
    have hsame : Side.sent { s with stage := .chatting chat, incoming := [] } = s.sent := by
      rw [sent_of_chatting rfl, sent_of_chatting h.stage_eq]
    refine ⟨chat, ⟨rfl, h.keys_eq, h.remote_eq, h.unread_incomplete, ?_, h.sizes_eq, h.noQuit, ?_, h.senders,
      h.heard_start, fun hn => absurd hn hresult, h.intact, h.closed⟩, hsame, rfl, id⟩
    · rw [hsame]
      exact h.sealing
    · rw [hsame]
      exact h.exhausted

end Steps

end PeerChat.Dialogue
