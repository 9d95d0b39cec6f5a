import PeerChat.Proofs.Net.Address
import PeerChat.Proofs.Wire.Name

/-!
# Peers on the wire

A peer with a proper name and a port other than zero is read from its line as it was written
(`Peer.parse_line`), and its line has room on the wire.
-/

namespace PeerChat

theorem readPort_eq_ok_iff {s : String} {port : UInt16} :
    readPort s = .ok port ↔ Decimal.Spells s port.toNat ∧ port ≠ 0 := by
  constructor
  · intro h
    unfold readPort at h
    split at h
    · rename_i n hn
      obtain ⟨hspells, hlt⟩ := Decimal.read?_eq_some_iff.mp hn
      have hnat : port.toNat = n + 1 := by
        rw [← Except.ok.inj h, UInt16.toNat_ofNat_of_lt' hlt]
      refine ⟨hnat ▸ hspells, fun hz => ?_⟩
      rw [hz] at hnat
      exact absurd hnat (by simp)
    · exact absurd h (by simp)
  · rintro ⟨hspells, hne⟩
    obtain ⟨n, hn⟩ := Nat.exists_eq_add_one_of_ne_zero fun hz => hne (UInt16.toNat_inj.mp hz)
    have hread := Decimal.read?_eq_some_iff.mpr ⟨hspells, port.toNat_lt⟩
    have hport : UInt16.ofNat (n + 1) = port := by rw [← hn, UInt16.ofNat_toNat]
    rw [hn] at hread
    simp only [readPort, hread, hport]

theorem readPort_toString {port : UInt16} (h : port ≠ 0) :
    readPort (toString port.toNat) = .ok port :=
  readPort_eq_ok_iff.mpr ⟨⟨0, .inl rfl⟩, h⟩

theorem readAddress_text (a : IpAddress) : readAddress a.text = .ok a := by
  rw [readAddress, IpAddress.read?_text]

/-- Its text can be read back: the name is proper, and the port is not zero. -/
structure Peer.Valid (p : Peer) : Prop where
  isName : isName p.name = true
  port_ne : p.port ≠ 0

namespace Peer

variable {p : Peer}

theorem words_line (h : p.Valid) :
    Text.words p.line = [p.name, p.address.text, toString p.port.toNat] := by
  have hline : p.line =
      p.name ++ " " ++ (p.address.text ++ " " ++ toString p.port.toNat) := by
    simp only [line, String.append_assoc]
  rw [hline, Text.words_append (isWord_of_isName h.isName),
    Text.words_append (IpAddress.isWord_text p.address), Text.words_word (Decimal.isWord_toString _)]

theorem parse_line (h : p.Valid) : parse p.line = .ok p := by
  rw [parse, words_line h]
  simp only [(readName_eq_ok_iff.mpr ⟨h.isName, rfl⟩ : readName p.name = .ok p.name),
    readAddress_text, readPort_toString h.port_ne]
  rfl

theorem fits_line (h : p.Valid) : Line.Fits Line.maxSize p.line := by
  obtain ⟨hne, hsize, hchars⟩ := isName_iff.mp h.isName
  have hport := Decimal.isWord_toString p.port.toNat
  have hnot : ∀ {s : String} {c : Char}, Text.IsWord s → Text.isBlank c = true → c ∉ s.toList := by
    intro s c hs hc hm
    rw [hs.2 c hm] at hc
    exact absurd hc (by simp)
  have haddress := IpAddress.isWord_text p.address
  have hstart : '\n' ∉ (p.name ++ " " ++ p.address.text ++ " ").toList := by
    rw [String.toList_append, String.toList_append, String.toList_append]
    simp only [List.mem_append, not_or]
    exact ⟨⟨⟨not_mem_of_isName h.isName (by decide), by decide⟩, hnot haddress (by decide)⟩,
      by decide⟩
  refine Line.Fits.append hstart (hnot hport (by decide)) hport.1 ?_ ?_
  · intro hr
    exact hnot hport (c := '\r') (by decide) (List.mem_of_getLast? hr)
  · have ha := Utf8.length_encode_le p.address.text
    have hl := IpAddress.length_text_le p.address
    have hp := Utf8.length_encode_le (toString p.port.toNat)
    have hd : (toString p.port.toNat).toList.length ≤ 5 := by
      rw [Decimal.toList_toString]
      exact (Nat.length_toDigits_le_iff (by decide) (by decide)).mpr
        (Nat.lt_trans p.port.toNat_lt (by decide))
    have hblank : " ".utf8ByteSize = 1 := by decide
    have hmax : maxNameSize + 1 + 4 * 42 + 1 + 4 * 5 ≤ Line.maxSize := by decide
    rw [Utf8.length_encode] at ha hp
    simp only [String.utf8ByteSize_append]
    omega

end Peer

end PeerChat
