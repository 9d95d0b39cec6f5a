import Mathlib.Data.List.TakeWhile
import PeerChat.Text.Blank

/-!
# Cutting texts into words

Words that are written with single blanks between them are the words that are read
(`words_append`, `words_word`).
-/

namespace PeerChat.Text

/-- One word: at least one character, and no blanks. -/
def IsWord (s : String) : Prop := s ≠ "" ∧ ∀ c ∈ s.toList, isBlank c = false

instance (s : String) : Decidable (IsWord s) :=
  have : Decidable (∀ c ∈ s.toList, isBlank c = false) := List.decidableBAll _ _
  inferInstanceAs (Decidable (_ ∧ _))

theorem cutWord_append {word : List Char} (hw : ∀ c ∈ word, isBlank c = false) (rest : List Char) :
    cutWord (word ++ rest) = (word ++ (cutWord rest).1, (cutWord rest).2) := by
  induction word with
  | nil => rfl
  | cons c word ih =>
    have hc : isBlank c = false := hw c (List.mem_cons_self ..)
    rw [List.cons_append, cutWord, ih fun d hd => hw d (List.mem_cons_of_mem c hd), hc]
    rfl

theorem cutWord_blank {b : Char} (hb : isBlank b = true) (rest : List Char) :
    cutWord (b :: rest) = ([], wordList rest) := by
  rw [cutWord, wordList]
  simp only [hb, if_true]

theorem wordList_append {word : List Char} (hw : ∀ c ∈ word, isBlank c = false) (hne : word ≠ [])
    {b : Char} (hb : isBlank b = true) (rest : List Char) :
    wordList (word ++ b :: rest) = word :: wordList rest := by
  have hempty : word.isEmpty = false := by simpa using hne
  rw [wordList, cutWord_append hw, cutWord_blank hb, List.append_nil]
  simp only [hempty]
  rfl

theorem wordList_word {word : List Char} (hw : ∀ c ∈ word, isBlank c = false) (hne : word ≠ []) :
    wordList word = [word] := by
  have h := cutWord_append hw []
  have hempty : word.isEmpty = false := by simpa using hne
  rw [List.append_nil, cutWord, List.append_nil] at h
  rw [wordList, h]
  simp only [hempty]
  rfl

theorem IsWord.toList_ne_nil {s : String} (h : IsWord s) : s.toList ≠ [] := by
  intro hs
  exact h.1 (String.toList_eq_nil_iff.mp hs)

theorem words_append {word : String} (h : IsWord word) (rest : String) :
    words (word ++ " " ++ rest) = word :: words rest := by
  have hb : isBlank ' ' = true := by decide
  rw [words, words, String.toList_append, String.toList_append, List.append_assoc,
    show " ".toList ++ rest.toList = ' ' :: rest.toList from rfl,
    wordList_append h.2 h.toList_ne_nil hb, List.map_cons, String.ofList_toList]

theorem words_word {word : String} (h : IsWord word) : words word = [word] := by
  rw [words, wordList_word h.2 h.toList_ne_nil, List.map_cons, List.map_nil, String.ofList_toList]

/-! ## Trimming -/

theorem dropEnd_eq_self {p : Char → Bool} {cs : List Char}
    (h : ∀ c, cs.getLast? = some c → p c = false) : dropEnd p cs = cs := by
  rcases List.eq_nil_or_concat cs with rfl | ⟨before, last, rfl⟩
  · rfl
  · rw [List.concat_eq_append] at h ⊢
    have hlast : p last = false := h last (by simp)
    rw [dropEnd, List.reverse_append, List.reverse_singleton, List.singleton_append,
      List.dropWhile_cons_of_neg (by simp [hlast]), List.reverse_cons, List.reverse_reverse]

theorem isLineEnd_eq_false {c : Char} (h : isBlank c = false) : isLineEnd c = false := by
  cases he : isLineEnd c with
  | false => rfl
  | true =>
    simp only [isLineEnd, Bool.or_eq_true, beq_iff_eq] at he
    rcases he with rfl | rfl
    · exact absurd h (by decide)
    · exact absurd h (by decide)

theorem trimLineEnd_eq_self {s : String} (h : ∀ c, s.toList.getLast? = some c → isLineEnd c = false) :
    trimLineEnd s = s := by
  rw [trimLineEnd, dropEnd_eq_self h, String.ofList_toList]

theorem dropEnd_append {p : Char → Bool} (cs : List Char) {after : List Char}
    (h : ∀ c ∈ after, p c = true) : dropEnd p (cs ++ after) = dropEnd p cs := by
  have hafter : ∀ c ∈ after.reverse, p c = true := fun c hc => h c (List.mem_reverse.mp hc)
  rw [dropEnd, List.reverse_append, List.dropWhile_append_of_pos hafter, dropEnd]

/-- Blanks around a word are trimmed away, and nothing of the word. -/
theorem trim_padded {before word after : String} (hw : IsWord word)
    (hb : ∀ c ∈ before.toList, isBlank c = true) (ha : ∀ c ∈ after.toList, isBlank c = true) :
    trim (before ++ word ++ after) = word := by
  have hstart : (word.toList ++ after.toList).dropWhile isBlank = word.toList ++ after.toList := by
    cases hs : word.toList with
    | nil => exact absurd hs hw.toList_ne_nil
    | cons c cs =>
      have hc : isBlank c = false := hw.2 c (hs ▸ List.mem_cons_self ..)
      rw [List.cons_append, List.dropWhile_cons_of_neg (by simp [hc])]
  rw [trim, String.toList_append, String.toList_append, List.append_assoc,
    List.dropWhile_append_of_pos hb, hstart, dropEnd_append word.toList ha,
    dropEnd_eq_self fun c hc => hw.2 c (List.mem_of_getLast? hc), String.ofList_toList]

theorem trim_word {s : String} (h : IsWord s) : trim s = s := by
  have hnone : ∀ c ∈ "".toList, isBlank c = true := by simp
  have hpadded := trim_padded h hnone hnone
  rwa [String.empty_append, String.append_empty] at hpadded

/-- Only blanks are trimmed away altogether. -/
theorem trim_eq_empty_iff {s : String} : trim s = "" ↔ ∀ c ∈ s.toList, isBlank c = true := by
  constructor
  · intro h c hc
    have hnil : dropEnd isBlank (s.toList.dropWhile isBlank) = [] := by
      have := congrArg String.toList h
      rw [trim, String.toList_ofList] at this
      exact this
    rw [dropEnd, List.reverse_eq_nil_iff, List.dropWhile_eq_nil_iff] at hnil
    rw [← List.takeWhile_append_dropWhile (p := isBlank) (l := s.toList), List.mem_append] at hc
    rcases hc with hc | hc
    · exact (List.mem_takeWhile_imp hc)
    · exact hnil c (List.mem_reverse.mpr hc)
  · intro h
    have hnil : s.toList.dropWhile isBlank = [] := List.dropWhile_eq_nil_iff.mpr h
    rw [trim, hnil]
    rfl

/-! ## Beginnings -/

theorem dropStart?_append (start rest : List Char) : dropStart? start (start ++ rest) = some rest := by
  induction start with
  | nil => rfl
  | cons c start ih => rw [List.cons_append, dropStart?, if_pos rfl, ih]

theorem eq_append_of_dropStart? {start cs rest : List Char} (h : dropStart? start cs = some rest) :
    cs = start ++ rest := by
  induction start generalizing cs with
  | nil => exact Option.some.inj h
  | cons a start ih =>
    cases cs with
    | nil => exact absurd h (by simp [dropStart?])
    | cons c cs =>
      rw [dropStart?] at h
      split at h
      · rename_i hac
        rw [hac, ih h, List.cons_append]
      · exact absurd h (by simp)

theorem after?_append (start rest : String) : after? start (start ++ rest) = some rest := by
  rw [after?, String.toList_append, dropStart?_append, Option.map_some, String.ofList_toList]

theorem eq_append_of_after? {start s rest : String} (h : after? start s = some rest) :
    s = start ++ rest := by
  obtain ⟨cs, hc, rfl⟩ := Option.map_eq_some_iff.mp h
  apply String.toList_inj.mp
  rw [eq_append_of_dropStart? hc, String.toList_append, String.toList_ofList]

end PeerChat.Text
