import PeerChat.Proofs.Text.Words
import PeerChat.Proofs.Wire.Name
import PeerChat.Wire.CallMessage

/-!
# Call messages are understood

A request with a proper name and both answers are read as they were meant
(`CallMessage.parse_text`), and a line is read as a call message only if its words spell one
(`CallMessage.parse_eq_ok_iff`).
-/

namespace PeerChat.CallMessage

/-- The words of a line that is a call message. -/
inductive Spelled : List String → CallMessage → Prop
  | request {name : String} : SpellsName name → Spelled ["CONNECT_REQUEST", name] (.request name)
  | accept : Spelled ["ACCEPT"] .accept
  | deny : Spelled ["DENY"] .deny

/-- Its text can be read back. -/
def Valid : CallMessage → Prop
  | request name => isName name = true
  | accept | deny => True

theorem parse_request {name : String} (h : isName name = true) :
    parse (request name).text = .ok (.request name) := by
  have hword : Text.IsWord "CONNECT_REQUEST" := by decide
  have hwords : Text.words (request name).text = ["CONNECT_REQUEST", name] := by
    rw [text, show "CONNECT_REQUEST " = "CONNECT_REQUEST" ++ " " from rfl,
      Text.words_append hword, Text.words_word (isWord_of_isName h)]
  rw [parse, hwords]
  simp only [(readName_eq_ok_iff.mpr ⟨h, rfl⟩ : readName name = .ok name)]
  rfl

theorem parse_accept : parse accept.text = .ok .accept := by
  rw [parse, text, Text.words_word (by decide)]
  rfl

theorem fits_request {name : String} (h : isName name = true) :
    Line.Fits Line.maxSize (request name).text :=
  Line.fits_append_name (by decide) h (by decide)

theorem fits_accept : Line.Fits Line.maxSize accept.text := ⟨by decide, by decide, by decide⟩

theorem parse_text {m : CallMessage} (h : m.Valid) : parse m.text = .ok m := by
  cases m with
  | request name => exact parse_request h
  | accept => exact parse_accept
  | deny =>
    rw [parse, text, Text.words_word (by decide)]
    rfl

theorem fits_text {m : CallMessage} (h : m.Valid) : Line.Fits Line.maxSize m.text := by
  cases m with
  | request name => exact fits_request h
  | accept => exact fits_accept
  | deny => exact ⟨by decide, by decide, by decide⟩

theorem parse_eq_ok_iff {line : String} {m : CallMessage} :
    parse line = .ok m ↔ ∃ words, Text.Cut line.toList words ∧ Spelled words m := by
  constructor
  · intro h
    refine ⟨Text.words line, Text.cut_iff.mpr rfl, ?_⟩
    have hword : ∀ {w : String}, w ∈ Text.words line → Text.IsWord w := (Text.cut_iff.mpr rfl).isWord
    unfold parse at h
    generalize Text.words line = words at h hword
    split at h
    · exact absurd h (by simp)
    · split at h
      · obtain ⟨name, hn, hread⟩ := bind_eq_ok_iff.mp h
        obtain ⟨hname, rfl⟩ := (readName_word (hword (by simp))).mp hn
        rw [← Except.ok.inj hread]
        exact .request hname
      · exact absurd h (by simp)
    · rw [← Except.ok.inj h]
      exact .accept
    · rw [← Except.ok.inj h]
      exact .deny
    · exact absurd h (by simp)
  · rintro ⟨words, hcut, hspelled⟩
    rw [parse, ← Text.cut_iff.mp hcut]
    cases hspelled with
    | request hname =>
      simp only [(readName_word (hcut.isWord (by simp))).mpr ⟨hname, rfl⟩]
      rfl
    | accept | deny => rfl

end PeerChat.CallMessage
