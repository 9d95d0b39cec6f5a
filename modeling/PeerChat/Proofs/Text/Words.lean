import PeerChat.Proofs.Text.Blank

/-!
# The words of a text

A text has one sequence of words: however it is taken apart into words with blanks between them, the
words are those that are read (`cut_iff`).
-/

namespace PeerChat.Text

/-- The words that characters are made of, with blanks between any two and maybe around them. -/
inductive Cut : List Char → List String → Prop
  | done : Cut [] []
  | blank {c : Char} {cs : List Char} {words : List String} :
      isBlank c = true → Cut cs words → Cut (c :: cs) words
  | last {word : String} : IsWord word → Cut word.toList [word]
  | word {word : String} {c : Char} {cs : List Char} {words : List String} :
      IsWord word → isBlank c = true → Cut cs words → Cut (word.toList ++ c :: cs) (word :: words)

variable {cs : List Char}

theorem Cut.isWord {words : List String} (h : Cut cs words) {word : String} (hw : word ∈ words) :
    IsWord word := by
  induction h with
  | done => exact absurd hw List.not_mem_nil
  | blank hb hcut ih => exact ih hw
  | last hword => exact List.mem_singleton.mp hw ▸ hword
  | word hword hb hcut ih =>
    rcases List.mem_cons.mp hw with rfl | hw
    · exact hword
    · exact ih hw

/-- A blank at the end changes no word. -/
theorem Cut.concat {words : List String} (h : Cut cs words) {b : Char} (hb : isBlank b = true) :
    Cut (cs ++ [b]) words := by
  induction h with
  | done => exact .blank hb .done
  | blank hc hcut ih => exact .blank hc ih
  | last hword => exact .word hword hb .done
  | word hword hc hcut ih =>
    rw [List.append_assoc]
    exact .word hword hc ih

theorem wordList_blank {b : Char} (hb : isBlank b = true) (rest : List Char) :
    wordList (b :: rest) = wordList rest := by
  rw [wordList, cutWord_blank hb]
  rfl

theorem isWord_ofList {word : List Char} (hw : ∀ c ∈ word, isBlank c = false) (hne : word ≠ []) :
    IsWord (String.ofList word) := by
  refine ⟨fun h => hne ?_, fun c hc => hw c (by rwa [String.toList_ofList] at hc)⟩
  have hnil := congrArg String.toList h
  rw [String.toList_ofList] at hnil
  exact hnil

theorem cut_wordList (cs : List Char) : Cut cs ((wordList cs).map String.ofList) := by
  induction hn : cs.length using Nat.strongRecOn generalizing cs with
  | ind n ih =>
    subst hn
    have hword : ∀ c ∈ cs.takeWhile fun c => !isBlank c, isBlank c = false := fun c hc => by
      simpa using List.mem_takeWhile_imp hc
    have hsplit := List.takeWhile_append_dropWhile (p := fun c => !isBlank c) (l := cs)
    generalize cs.takeWhile (fun c => !isBlank c) = word at hword hsplit
    cases hrest : cs.dropWhile fun c => !isBlank c with
    | nil =>
      rw [hrest, List.append_nil] at hsplit
      subst hsplit
      by_cases hne : word = []
      · subst hne
        exact .done
      · have hlast := Cut.last (isWord_ofList hword hne)
        rw [String.toList_ofList] at hlast
        rw [wordList_word hword hne]
        exact hlast
    | cons b rest =>
      have hb : isBlank b = true := by
        have := List.dropWhile_get_zero_not (fun c => !isBlank c) cs (by simp [hrest])
        simpa [hrest] using this
      rw [hrest] at hsplit
      subst hsplit
      have hcut := ih rest.length (by simp; omega) rest rfl
      by_cases hne : word = []
      · subst hne
        rw [List.nil_append, wordList_blank hb]
        exact .blank hb hcut
      · have hnext := Cut.word (isWord_ofList hword hne) hb hcut
        rw [String.toList_ofList] at hnext
        rw [wordList_append hword hne hb]
        exact hnext

theorem Cut.eq_wordList {words : List String} (h : Cut cs words) :
    words = (wordList cs).map String.ofList := by
  induction h with
  | done => rfl
  | blank hb hcut ih => rw [wordList_blank hb, ih]
  | last hword =>
    rw [wordList_word hword.2 hword.toList_ne_nil, List.map_cons, List.map_nil, String.ofList_toList]
  | word hword hb hcut ih =>
    rw [wordList_append hword.2 hword.toList_ne_nil hb, List.map_cons, String.ofList_toList, ih]

theorem cut_iff {s : String} {words : List String} : Cut s.toList words ↔ words = Text.words s :=
  ⟨Cut.eq_wordList, fun h => h ▸ cut_wordList s.toList⟩

end PeerChat.Text
