import PeerChat.Proofs.Wire.CallMessage
import PeerChat.Proofs.Wire.Command

/-!
# Both languages are read exactly

Commands to the rendezvous server and messages between two peers are languages of lines: a line means
something exactly if its words spell it, and what is written, one line behind the other, is read back
with nothing left over (`languages_read_exactly`).
-/

namespace PeerChat

/-- Of all texts, those with the right words are read, and what is written on lines is read again. -/
structure ReadsExactly {α : Type} (parse : String → Except WireError α) (line : α → String)
    (Spelled : List String → α → Prop) (Valid : α → Prop) : Prop where
  accepts : ∀ s a, parse s = .ok a ↔ ∃ words, Text.Cut s.toList words ∧ Spelled words a
  reads_line : ∀ a, Valid a → parse (line a) = .ok a
  reads_stream : ∀ said : List α, (∀ a ∈ said, Valid a) → ∃ lines : List String,
    Line.items Line.maxSize true (said.flatMap fun a => Utf8.encode (line a)) =
        (lines.map .text ++ [.ended], []) ∧
      lines.map parse = said.map .ok

/-- It is enough to know this of the texts on the lines. -/
theorem ReadsExactly.of_text {α : Type} {parse : String → Except WireError α} {text : α → String}
    {Spelled : List String → α → Prop} {Valid : α → Prop}
    (haccepts : ∀ s a, parse s = .ok a ↔ ∃ words, Text.Cut s.toList words ∧ Spelled words a)
    (hparse : ∀ a, Valid a → parse (text a) = .ok a)
    (hfits : ∀ a, Valid a → Line.Fits Line.maxSize (text a)) :
    ReadsExactly parse (fun a => text a ++ "\n") Spelled Valid := by
  refine ⟨haccepts, fun a ha => ?_, fun said hsaid => ⟨said.map text, ?_, ?_⟩⟩
  · -- The line feed is one more blank.
    obtain ⟨words, hcut, hspelled⟩ := (haccepts _ _).mp (hparse a ha)
    refine (haccepts _ _).mpr ⟨words, ?_, hspelled⟩
    rw [String.toList_append]
    exact hcut.concat (by decide)
  · have hwritten : said.flatMap (fun a => Utf8.encode (text a ++ "\n")) =
        Line.writeAll (said.map text) := by
      rw [Line.writeAll, List.flatMap_map]
    rw [hwritten]
    refine Line.items_writeAll fun s hs => ?_
    obtain ⟨a, ha, rfl⟩ := List.mem_map.mp hs
    exact hfits a (hsaid a ha)
  · rw [List.map_map]
    exact List.map_congr_left fun a ha => hparse a (hsaid a ha)

theorem languages_read_exactly :
    ReadsExactly Command.parse Command.line Command.Spelled Command.Valid ∧
      ReadsExactly CallMessage.parse CallMessage.line CallMessage.Spelled CallMessage.Valid :=
  ⟨.of_text (fun _ _ => Command.parse_eq_ok_iff) (fun _ => Command.parse_text)
      (fun _ => Command.fits_text),
    .of_text (fun _ _ => CallMessage.parse_eq_ok_iff) (fun _ => CallMessage.parse_text)
      (fun _ => CallMessage.fits_text)⟩

end PeerChat
