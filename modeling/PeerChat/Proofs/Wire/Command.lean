import PeerChat.Proofs.Text.Words
import PeerChat.Proofs.Wire.Peer
import PeerChat.Wire.Command

/-!
# Commands are understood

A command with a proper name, and a port other than zero, is read as it was meant
(`Command.parse_text`), and a line is read as a command only if its words spell one
(`Command.parse_eq_ok_iff`).
-/

namespace PeerChat.Command

/-- The words of a line that is a command. -/
inductive Spelled : List String → Command → Prop
  | register {name port : String} {n : UInt16} : SpellsName name → Decimal.Spells port n.toNat →
      n ≠ 0 → Spelled ["REGISTER", name, port] (.register name n)
  | listPeers : Spelled ["GET_PEER_LIST"] .listPeers
  | remove {name : String} : SpellsName name → Spelled ["REMOVE", name] (.remove name)
  | reportGone {name : String} : SpellsName name →
      Spelled ["PEER_DISCONNECTED", name] (.reportGone name)

/-- Its text can be read back. -/
def Valid : Command → Prop
  | register name port => isName name = true ∧ port ≠ 0
  | listPeers => True
  | remove name | reportGone name => isName name = true

theorem text_register (name : String) (port : UInt16) :
    text (.register name port) = "REGISTER" ++ " " ++ (name ++ " " ++ toString port.toNat) := by
  have h : text (.register name port) = "REGISTER " ++ name ++ " " ++ toString port.toNat := rfl
  rw [h, show "REGISTER" ++ " " = "REGISTER " from rfl]
  simp only [String.append_assoc]

theorem text_remove (name : String) : text (.remove name) = "REMOVE" ++ " " ++ name := by
  have h : text (.remove name) = "REMOVE " ++ name := rfl
  rw [h, show "REMOVE" ++ " " = "REMOVE " from rfl]

theorem text_reportGone (name : String) :
    text (.reportGone name) = "PEER_DISCONNECTED" ++ " " ++ name := by
  have h : text (.reportGone name) = "PEER_DISCONNECTED " ++ name := rfl
  rw [h, show "PEER_DISCONNECTED" ++ " " = "PEER_DISCONNECTED " from rfl]

theorem parse_text {c : Command} (h : c.Valid) : parse c.text = .ok c := by
  cases c with
  | register name port =>
    obtain ⟨hn, hp⟩ := h
    have hwords : Text.words (text (.register name port)) =
        ["REGISTER", name, toString port.toNat] := by
      rw [text_register, Text.words_append (by decide), Text.words_append (isWord_of_isName hn),
        Text.words_word (Decimal.isWord_toString _)]
    rw [parse, hwords]
    simp only [(readName_eq_ok_iff.mpr ⟨hn, rfl⟩ : readName name = .ok name), readPort_toString hp]
    rfl
  | listPeers =>
    have htext : text .listPeers = "GET_PEER_LIST" := rfl
    rw [htext, parse, Text.words_word (by decide)]
    rfl
  | remove name =>
    have hwords : Text.words (text (.remove name)) = ["REMOVE", name] := by
      rw [text_remove, Text.words_append (by decide), Text.words_word (isWord_of_isName h)]
    rw [parse, hwords]
    simp only [(readName_eq_ok_iff.mpr ⟨h, rfl⟩ : readName name = .ok name)]
    rfl
  | reportGone name =>
    have hwords : Text.words (text (.reportGone name)) = ["PEER_DISCONNECTED", name] := by
      rw [text_reportGone, Text.words_append (by decide), Text.words_word (isWord_of_isName h)]
    rw [parse, hwords]
    simp only [(readName_eq_ok_iff.mpr ⟨h, rfl⟩ : readName name = .ok name)]
    rfl

theorem parse_eq_ok_iff {line : String} {c : Command} :
    parse line = .ok c ↔ ∃ words, Text.Cut line.toList words ∧ Spelled words c := by
  constructor
  · intro h
    refine ⟨Text.words line, Text.cut_iff.mpr rfl, ?_⟩
    have hword : ∀ {w : String}, w ∈ Text.words line → Text.IsWord w := (Text.cut_iff.mpr rfl).isWord
    unfold parse at h
    generalize Text.words line = words at h hword
    split at h
    · exact absurd h (by simp)
    · split at h
      · obtain ⟨name, hn, hread⟩ := bind_eq_ok_iff.mp h
        obtain ⟨port, hp, hread⟩ := bind_eq_ok_iff.mp hread
        obtain ⟨hname, rfl⟩ := (readName_word (hword (by simp))).mp hn
        obtain ⟨hspells, hport⟩ := readPort_eq_ok_iff.mp hp
        rw [← Except.ok.inj hread]
        exact .register hname hspells hport
      · exact absurd h (by simp)
    · split at h
      · rw [← Except.ok.inj h]
        exact .listPeers
      · exact absurd h (by simp)
    · split at h
      · obtain ⟨name, hn, hread⟩ := bind_eq_ok_iff.mp h
        obtain ⟨hname, rfl⟩ := (readName_word (hword (by simp))).mp hn
        rw [← Except.ok.inj hread]
        exact .remove hname
      · exact absurd h (by simp)
    · split at h
      · obtain ⟨name, hn, hread⟩ := bind_eq_ok_iff.mp h
        obtain ⟨hname, rfl⟩ := (readName_word (hword (by simp))).mp hn
        rw [← Except.ok.inj hread]
        exact .reportGone hname
      · exact absurd h (by simp)
    · exact absurd h (by simp)
  · rintro ⟨words, hcut, hspelled⟩
    rw [parse, ← Text.cut_iff.mp hcut]
    cases hspelled with
    | register hname hspells hport =>
      simp only [(readName_word (hcut.isWord (by simp))).mpr ⟨hname, rfl⟩,
        readPort_eq_ok_iff.mpr ⟨hspells, hport⟩]
      rfl
    | listPeers => rfl
    | remove hname | reportGone hname =>
      simp only [(readName_word (hcut.isWord (by simp))).mpr ⟨hname, rfl⟩]
      rfl

/-- Any blanks will do between words, and a port may have a sign and zeros before it. -/
example : parse "\u3000REGISTER\t日本 +0080\u0085" = .ok (.register "日本" 80) := by decide

/-- Whatever is read as a command could have been written. -/
theorem valid_of_parse {line : String} {c : Command} (h : parse line = .ok c) : c.Valid := by
  obtain ⟨words, hcut, hspelled⟩ := parse_eq_ok_iff.mp h
  cases hspelled with
  | register hname hspells hport =>
    exact ⟨(isName_iff_spellsName (hcut.isWord (by simp))).mpr hname, hport⟩
  | listPeers => trivial
  | remove hname | reportGone hname =>
    exact (isName_iff_spellsName (hcut.isWord (by simp))).mpr hname

theorem fits_text {c : Command} (h : c.Valid) : Line.Fits Line.maxSize c.text := by
  cases c with
  | register name port =>
    obtain ⟨hn, -⟩ := h
    obtain ⟨-, hsize, -⟩ := isName_iff.mp hn
    have hport := Decimal.isWord_toString port.toNat
    have hnot : ∀ {c : Char}, Text.isBlank c = true → c ∉ (toString port.toNat).toList := by
      intro c hc hm
      rw [hport.2 c hm] at hc
      exact absurd hc (by simp)
    rw [text_register, ← String.append_assoc, ← String.append_assoc]
    refine Line.Fits.append ?_ (hnot (by decide)) hport.1 ?_ ?_
    · simp only [String.toList_append, List.mem_append, not_or]
      exact ⟨⟨⟨by decide, by decide⟩, not_mem_of_isName hn (by decide)⟩, by decide⟩
    · intro hr
      exact hnot (c := '\r') (by decide) (List.mem_of_getLast? hr)
    · have hp := Utf8.length_encode_le (toString port.toNat)
      have hd : (toString port.toNat).toList.length ≤ 5 := by
        rw [Decimal.toList_toString]
        exact (Nat.length_toDigits_le_iff (by decide) (by decide)).mpr
          (Nat.lt_trans port.toNat_lt (by decide))
      have hstart : "REGISTER".utf8ByteSize = 8 := by decide
      have hblank : " ".utf8ByteSize = 1 := by decide
      have hmax : 8 + 1 + maxNameSize + 1 + 4 * 5 ≤ Line.maxSize := by decide
      rw [Utf8.length_encode] at hp
      simp only [String.utf8ByteSize_append]
      omega
  | listPeers => exact ⟨by decide, by decide, by decide⟩
  | remove name =>
    rw [text_remove]
    exact Line.fits_append_name (by decide) h (by decide)
  | reportGone name =>
    rw [text_reportGone]
    exact Line.fits_append_name (by decide) h (by decide)

theorem trim_text_ne (c : Command) : Text.trim c.text ≠ "" := by
  intro h
  have hall : ∀ d ∈ c.text.toList, Text.isBlank d = true := Text.trim_eq_empty_iff.mp h
  have hstart : ∃ d ∈ c.text.toList, Text.isBlank d = false := by
    cases c with
    | register name port =>
      refine ⟨'R', ?_, by decide⟩
      rw [text_register]
      simp only [String.toList_append, List.mem_append]
      exact .inl (.inl (by decide))
    | listPeers => exact ⟨'G', by decide, by decide⟩
    | remove name =>
      refine ⟨'R', ?_, by decide⟩
      rw [text_remove]
      simp only [String.toList_append, List.mem_append]
      exact .inl (.inl (by decide))
    | reportGone name =>
      refine ⟨'P', ?_, by decide⟩
      rw [text_reportGone]
      simp only [String.toList_append, List.mem_append]
      exact .inl (.inl (by decide))
  obtain ⟨d, hd, hb⟩ := hstart
  rw [hall d hd] at hb
  exact absurd hb (by simp)

end PeerChat.Command
