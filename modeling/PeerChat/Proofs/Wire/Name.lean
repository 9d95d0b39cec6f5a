import PeerChat.Proofs.Stream.Line
import PeerChat.Proofs.Text.Blank
import PeerChat.Wire.Peer

/-!
# Names on the wire

A name is one word without an end of a line in it, so it can be put at the end of any line that has
room for it (`fits_append_name`) and is read back from there.
-/

namespace PeerChat

theorem bind_eq_ok_iff {α β : Type} {x : Except WireError α} {f : α → Except WireError β} {b : β} :
    x >>= f = .ok b ↔ ∃ a, x = .ok a ∧ f a = .ok b := by
  cases x with
  | error cause => simp [bind, Except.bind]
  | ok a => simp [bind, Except.bind]

theorem isName_iff {s : String} : isName s = true ↔
    s ≠ "" ∧ s.utf8ByteSize ≤ maxNameSize ∧
      ∀ c ∈ s.toList, Text.isBlank c = false ∧ Text.isControl c = false := by
  simp [isName, and_assoc]

theorem isWord_of_isName {s : String} (h : isName s = true) : Text.IsWord s := by
  obtain ⟨hne, -, hc⟩ := isName_iff.mp h
  exact ⟨hne, fun c hm => (hc c hm).1⟩

theorem readName_eq_ok_iff {s name : String} :
    readName s = .ok name ↔ isName s = true ∧ name = s := by
  unfold readName
  split
  · rename_i h
    simp [h, eq_comm]
  · rename_i h
    simp [h]

/-- What makes a word a name. -/
structure SpellsName (word : String) : Prop where
  size_pos : 1 ≤ word.utf8ByteSize
  size_le : word.utf8ByteSize ≤ 49
  no_control : ∀ c ∈ word.toList, Text.isControl c = false

theorem isName_iff_spellsName {s : String} (h : Text.IsWord s) : isName s = true ↔ SpellsName s := by
  rw [isName_iff]
  refine ⟨fun ⟨hne, hsize, hc⟩ => ⟨?_, hsize, fun c hm => (hc c hm).2⟩, fun hs =>
    ⟨h.1, hs.size_le, fun c hm => ⟨h.2 c hm, hs.no_control c hm⟩⟩⟩
  exact Nat.pos_of_ne_zero fun hz => hne (String.utf8ByteSize_eq_zero_iff.mp hz)

theorem readName_word {s name : String} (h : Text.IsWord s) :
    readName s = .ok name ↔ SpellsName s ∧ name = s := by
  rw [readName_eq_ok_iff, isName_iff_spellsName h]

theorem not_mem_of_isName {s : String} (h : isName s = true) {c : Char}
    (hc : Text.isBlank c = true) : c ∉ s.toList := by
  obtain ⟨-, -, hw⟩ := isName_iff.mp h
  intro hm
  rw [(hw c hm).1] at hc
  exact absurd hc (by simp)

namespace Line

variable {limit : Nat}

/-- Two parts of a line, the second of them not empty. -/
theorem Fits.append {s t : String} (hs : '\n' ∉ s.toList) (ht : '\n' ∉ t.toList) (hne : t ≠ "")
    (hr : t.toList.getLast? ≠ some '\r') (hsize : s.utf8ByteSize + t.utf8ByteSize ≤ limit) :
    Fits limit (s ++ t) := by
  have ht' : t.toList ≠ [] := fun h => hne (String.toList_eq_nil_iff.mp h)
  refine ⟨?_, ?_, ?_⟩
  · rw [String.toList_append, List.mem_append]
    exact not_or.mpr ⟨hs, ht⟩
  · rw [String.toList_append, List.getLast?_append_of_ne_nil _ ht']
    exact hr
  · rw [String.utf8ByteSize_append]
    exact hsize

theorem fits_append_name {s name : String} (hs : '\n' ∉ s.toList) (hn : isName name = true)
    (hsize : s.utf8ByteSize + maxNameSize ≤ limit) : Fits limit (s ++ name) := by
  obtain ⟨hne, hlen, -⟩ := isName_iff.mp hn
  refine Fits.append hs (not_mem_of_isName hn (by decide)) hne ?_ (by omega)
  intro hr
  exact not_mem_of_isName hn (c := '\r') (by decide) (List.mem_of_getLast? hr)

end Line

end PeerChat
