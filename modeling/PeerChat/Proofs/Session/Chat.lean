import PeerChat.Proofs.Session.Sealed
import PeerChat.Session.Chat

/-!
# One step of a chat

What a typed line does (`typeLine_cases`), and what the payloads of a sealed sequence do to the chat
that receives them (`takeItems_sealing`).
-/

namespace PeerChat.Chat

variable {c : Chat}

/-! ## Typing -/

/-- All that a line can do to a chat that is not over. -/
inductive Typed (c : Chat) (writable : Bool) (text : String) : Chat → Effects → Prop
  | quit : text = quitWord → Typed c writable text (c.finish .localQuit) {}
  | empty : text ≠ quitWord → text = "" → Typed c writable text c {}
  | tooLong : text ≠ quitWord → text ≠ "" → maxMessage < text.utf8ByteSize →
      Typed c writable text c { events := [.messageTooLong text.utf8ByteSize] }
  | unsealed {cause : CryptoError} {outbound : Nonces} : text ≠ quitWord → text ≠ "" →
      text.utf8ByteSize ≤ maxMessage →
      c.keys.encrypt c.outbound (Utf8.encode text) = (.error cause, outbound) →
      Typed c writable text (c.finish .encryptionFailed) {}
  | unsent {sealed : Bytes} {outbound : Nonces} : text ≠ quitWord → text ≠ "" →
      text.utf8ByteSize ≤ maxMessage →
      c.keys.encrypt c.outbound (Utf8.encode text) = (.ok sealed, outbound) →
      Typed c writable text (c.finish .transportFailed) {}
  | sent {sealed : Bytes} {outbound : Nonces} : text ≠ quitWord → text ≠ "" →
      text.utf8ByteSize ≤ maxMessage →
      c.keys.encrypt c.outbound (Utf8.encode text) = (.ok sealed, outbound) →
      Typed c writable text { c with outbound } { sent := Frame.write sealed }

theorem typeLine_cases (hr : c.result = none) (writable : Bool) (line : String) :
    Typed c writable (Text.trimLineEnd line) (c.typeLine writable line).1
      (c.typeLine writable line).2 := by
  have hopen : ¬ c.result.isSome = true := by simp [hr]
  rw [typeLine, if_neg hopen]
  generalize Text.trimLineEnd line = text
  by_cases hquit : text = quitWord
  · simp only [if_pos hquit]
    exact .quit hquit
  · simp only [if_neg hquit]
    by_cases hempty : text = ""
    · simp only [if_pos hempty]
      exact .empty hquit hempty
    · simp only [if_neg hempty]
      by_cases hlong : maxMessage < text.utf8ByteSize
      · simp only [if_pos hlong]
        exact .tooLong hquit hempty hlong
      · simp only [if_neg hlong]
        obtain ⟨result, outbound, he⟩ :
            ∃ result outbound, c.keys.encrypt c.outbound (Utf8.encode text) = (result, outbound) :=
          ⟨_, _, rfl⟩
        rw [he]
        cases result with
        | error cause => exact .unsealed hquit hempty (by omega) he
        | ok sealed =>
          cases writable with
          | true => exact .sent hquit hempty (by omega) he
          | false => exact .unsent hquit hempty (by omega) he

/-! ## Receiving -/

theorem takeItem_payload (hr : c.result = none) {text : String} {sealed : Bytes} {next : Nonces}
    (h : c.keys.encrypt c.inbound (Utf8.encode text) = (.ok sealed, next)) :
    c.takeItem (.payload sealed) = ({ c with inbound := next }, [.message c.remote text]) := by
  have hopen : ¬ c.result.isSome = true := by simp [hr]
  rw [takeItem, if_neg hopen]
  simp only [SessionKeys.decrypt_eq_ok_iff.mpr h, Utf8.decode_encode]

/-- Payloads that were sealed in turn are shown in turn, and reading goes on behind them. -/
theorem takeItems_sealing (hr : c.result = none) {texts : List String} {all : List Bytes}
    {last : Nonces} (h : Sealing c.keys c.inbound texts all last) (later : List Frame.Item) :
    c.takeItems (all.map .payload ++ later) =
      ((takeItems { c with inbound := last } later).1,
        texts.map (.message c.remote) ++ (takeItems { c with inbound := last } later).2) := by
  generalize hk : c.keys = keys at h
  generalize hn : c.inbound = n at h
  induction h generalizing c with
  | nil n =>
    subst hk hn
    rfl
  | @cons n next last text sealed texts all he _ ih =>
    subst hk hn
    rw [List.map_cons, List.cons_append, takeItems, takeItem_payload hr he]
    simp only [ih (c := { c with inbound := next }) hr rfl rfl]
    rfl

theorem takeItems_ended (hr : c.result = none) :
    c.takeItems [.ended] = (c.finish .peerClosed, [.closed c.remote]) := by
  have hopen : ¬ c.result.isSome = true := by simp [hr]
  rw [takeItems, takeItem, if_neg hopen]
  rfl

/-- What is still to come to a chat: texts sealed for it from its nonces on, up to the sender's. -/
def Underway (c : Chat) (texts : List String) (last : Nonces) (bytes : Bytes) : Prop :=
  ∃ all, Sealing c.keys c.inbound texts all last ∧ bytes = Frame.writeAll all ∧
    ∀ text ∈ texts, text.utf8ByteSize ≤ maxMessage

/-- A beginning of what is under way shows the first of the texts, and the others still come. -/
theorem receive_underway (hr : c.result = none) {texts : List String} {last : Nonces}
    {bytes rest : Bytes} (h : c.Underway texts last (c.unread ++ bytes ++ rest)) :
    ∃ done left, texts = done ++ left ∧
      (c.receive false bytes).2 = done.map (.message c.remote) ∧
      (c.receive false bytes).1.Underway left last ((c.receive false bytes).1.unread ++ rest) ∧
      Frame.read Frame.maxPayload false (c.receive false bytes).1.unread = .incomplete ∧
      (∃ inbound unread, (c.receive false bytes).1 = { c with inbound, unread }) := by
  obtain ⟨all, hs, hb, ht⟩ := h
  obtain ⟨done, left, rfl, hi, hu, hn⟩ := Frame.items_of_beginning (hs.fits ht) hb
  obtain ⟨before, after, middle, rfl, hbefore, hafter⟩ := hs.split
  have hopen : ¬ c.result.isSome = true := by simp [hr]
  have hrec : c.receive false bytes =
      ({ c with inbound := middle, unread := (Frame.items Frame.maxPayload false (c.unread ++ bytes)).2 },
        before.map (.message c.remote)) := by
    have htake := takeItems_sealing
      (c := { c with unread := (Frame.items Frame.maxPayload false (c.unread ++ bytes)).2 }) hr
      hbefore []
    rw [List.append_nil] at htake
    rw [receive, if_neg hopen]
    simp only [hi, htake, takeItems, List.append_nil]
  refine ⟨before, after, rfl, by rw [hrec], ?_, by rw [hrec]; exact hn, ⟨_, _, by rw [hrec]⟩⟩
  rw [hrec]
  exact ⟨left, hafter, hu, fun text hm => ht text (List.mem_append_right before hm)⟩

/-- A chat that waits for the rest of a frame, with no bytes on the way to it, has shown all. -/
theorem Underway.eq_nil {texts : List String} {last : Nonces} (h : c.Underway texts last c.unread)
    (hw : Frame.read Frame.maxPayload false c.unread = .incomplete) : texts = [] := by
  obtain ⟨all, hs, hb, ht⟩ := h
  rw [hb] at hw
  obtain rfl := Frame.eq_nil_of_read_writeAll (hs.fits ht) hw
  cases hs
  rfl

/-- All that is under way, with the end of the stream behind it. -/
theorem receive_underway_ended (hr : c.result = none) {texts : List String} {last : Nonces}
    {bytes : Bytes} (h : c.Underway texts last (c.unread ++ bytes)) :
    (c.receive true bytes).2 = texts.map (.message c.remote) ++ [.closed c.remote] ∧
      ∃ inbound, (c.receive true bytes).1 =
        { c with inbound, unread := [], result := some .peerClosed } := by
  obtain ⟨all, hs, hb, ht⟩ := h
  have hopen : ¬ c.result.isSome = true := by simp [hr]
  have hi : Frame.items Frame.maxPayload true (c.unread ++ bytes) =
      (all.map .payload ++ [.ended], []) := by
    rw [hb, Frame.items_writeAll (hs.fits ht)]
  have htake := takeItems_sealing (c := { c with unread := [] }) hr hs [.ended]
  rw [receive, if_neg hopen]
  simp only [hi, htake]
  rw [takeItems_ended (c := { c with unread := [], inbound := last }) hr]
  exact ⟨rfl, last, rfl⟩

end PeerChat.Chat
