import PeerChat.Net.Address
import PeerChat.Proofs.Text.Decimal

/-!
# Addresses are read back

An address of either family is read as it was written (`read?_text`): the groups that a double colon
leaves out are the longest run of zeros, and the reader fills them in again.
-/

namespace PeerChat.IpAddress

/-! ## Fields -/

section Fields

variable {separator : Char} {word : List Char}

theorem fields_word (h : separator ∉ word) : fields separator word = [word] := by
  induction word with
  | nil => rfl
  | cons c word ih =>
    have hc : c ≠ separator := fun he => h (he ▸ List.mem_cons_self ..)
    rw [fields, if_neg hc, ih fun hm => h (List.mem_cons_of_mem c hm)]

theorem fields_append (h : separator ∉ word) (rest : List Char) :
    fields separator (word ++ separator :: rest) = word :: fields separator rest := by
  induction word with
  | nil => rw [List.nil_append, fields, if_pos rfl]
  | cons c word ih =>
    have hc : c ≠ separator := fun he => h (he ▸ List.mem_cons_self ..)
    rw [List.cons_append, fields, if_neg hc, ih fun hm => h (List.mem_cons_of_mem c hm)]

end Fields

/-! ## Four octets -/

theorem readOctet?_toDigits (n : Fin 256) :
    readOctet? (Nat.toDigits 10 n) = some (UInt8.ofNat n) := by
  revert n
  decide +kernel

theorem readOctet?_octet (a : UInt8) : readOctet? (Nat.toDigits 10 a.toNat) = some a := by
  have h := readOctet?_toDigits ⟨a.toNat, a.toNat_lt⟩
  rw [UInt8.ofNat_toNat] at h
  exact h

theorem not_mem_toDigits {c : Char} (hc : c.isDigit = false) (n : Nat) :
    c ∉ Nat.toDigits 10 n := by
  intro hm
  rw [Decimal.isDigit_of_mem_toDigits hm] at hc
  exact absurd hc (by simp)

theorem fields_octetsText {start : List Char} (h : '.' ∉ start) (a b c d : UInt8) :
    fields '.' (start ++ octetsText a b c d) =
      [start ++ Nat.toDigits 10 a.toNat, Nat.toDigits 10 b.toNat, Nat.toDigits 10 c.toNat,
        Nat.toDigits 10 d.toNat] := by
  have hdot : ∀ n, '.' ∉ Nat.toDigits 10 n := fun n => not_mem_toDigits (by decide) n
  have hfirst : '.' ∉ start ++ Nat.toDigits 10 a.toNat := by
    rw [List.mem_append]
    exact not_or.mpr ⟨h, hdot _⟩
  rw [octetsText, List.append_assoc, List.append_assoc, List.cons_append, List.cons_append,
    ← List.append_assoc, fields_append hfirst, fields_append (hdot _), fields_append (hdot _),
    fields_word (hdot _)]

theorem readV4?_octetsText (a b c d : UInt8) :
    readV4? (octetsText a b c d) = some (a, b, c, d) := by
  have hfields := @fields_octetsText [] (by simp) a b c d
  rw [List.nil_append, List.nil_append] at hfields
  rw [readV4?, hfields]
  simp only [readOctet?_octet]
  rfl

/-- Nothing may stand before the first octet. -/
theorem readV4?_append {start : List Char} (h : '.' ∉ start) (hlen : 3 ≤ start.length)
    (a b c d : UInt8) : readV4? (start ++ octetsText a b c d) = none := by
  have hlong : 3 < (start ++ Nat.toDigits 10 a.toNat).length := by
    have hpos := Nat.length_toDigits_pos (b := 10) (n := a.toNat)
    rw [List.length_append]
    omega
  have hnone : readOctet? (start ++ Nat.toDigits 10 a.toNat) = none := by
    rw [readOctet?, if_pos]
    rw [decide_eq_true hlong, Bool.true_or]
  rw [readV4?, fields_octetsText h]
  simp only [hnone]
  rfl

theorem readV4?_of_not_mem {cs : List Char} (h : '.' ∉ cs) : readV4? cs = none := by
  rw [readV4?, fields_word h]

/-! ## Groups -/

theorem hexValue?_digitChar (d : Fin 16) : hexValue? (Nat.digitChar d) = some d.val := by
  revert d
  decide

theorem foldlM_hexValue? (n : Nat) :
    (Nat.toDigits 16 n).foldlM (fun value c => (hexValue? c).map (16 * value + ·)) 0 = some n := by
  induction n using Nat.strongRecOn with
  | ind n ih =>
    by_cases hn : n < 16
    · rw [Nat.toDigits_of_lt_base hn, List.foldlM_cons, hexValue?_digitChar ⟨n, hn⟩]
      simp
    · have hd := hexValue?_digitChar ⟨n % 16, Nat.mod_lt n (by decide)⟩
      have hsum : 16 * (n / 16) + n % 16 = n := by omega
      rw [Nat.toDigits_of_base_le (by decide) (by omega), List.foldlM_append, ih (n / 16) (by omega)]
      simp only [Option.bind_eq_bind, Option.bind_some, List.foldlM_cons, List.foldlM_nil, hd,
        Option.map_some, hsum]
      rfl

theorem readGroup?_groupText (g : UInt16) : readGroup? (groupText g) = some g := by
  have hempty : (groupText g).isEmpty = false := by
    rw [List.isEmpty_eq_false_iff]
    exact Nat.toDigits_ne_nil
  have hlen : (groupText g).length ≤ 4 :=
    (Nat.length_toDigits_le_iff (by decide) (by decide)).mpr g.toNat_lt
  have hlong : ¬ 4 < (groupText g).length := by omega
  rw [readGroup?, hempty]
  simp only [hlong, decide_false, Bool.or_self, Bool.false_eq_true, if_false]
  rw [groupText, foldlM_hexValue?, Option.map_some, UInt16.ofNat_toNat]

theorem digitChar_ne (d : Fin 16) : Nat.digitChar d ≠ ':' ∧ Nat.digitChar d ≠ '.' ∧
    0x21 ≤ (Nat.digitChar d).toNat ∧ (Nat.digitChar d).toNat ≤ 0x7e := by
  revert d
  decide

theorem mem_groupText {c : Char} {g : UInt16} (h : c ∈ groupText g) :
    c ≠ ':' ∧ c ≠ '.' ∧ 0x21 ≤ c.toNat ∧ c.toNat ≤ 0x7e := by
  have hall : ∀ n, ∀ c ∈ Nat.toDigits 16 n, ∃ d : Fin 16, c = Nat.digitChar d := by
    intro n
    induction n using Nat.strongRecOn with
    | ind n ih =>
      intro c hc
      by_cases hn : n < 16
      · rw [Nat.toDigits_of_lt_base hn] at hc
        exact ⟨⟨n, hn⟩, List.mem_singleton.mp hc⟩
      · rw [Nat.toDigits_of_base_le (by decide) (by omega)] at hc
        rcases List.mem_append.mp hc with hc | hc
        · exact ih (n / 16) (by omega) c hc
        · exact ⟨⟨n % 16, Nat.mod_lt n (by decide)⟩, List.mem_singleton.mp hc⟩
  obtain ⟨d, rfl⟩ := hall g.toNat c h
  exact digitChar_ne d

theorem colon_not_mem_groupText (g : UInt16) : ':' ∉ groupText g :=
  fun h => (mem_groupText h).1 rfl

theorem mem_groupsText {c : Char} {groups : List UInt16} (h : c ∈ groupsText groups) :
    c = ':' ∨ ∃ g ∈ groups, c ∈ groupText g := by
  induction groups with
  | nil => exact absurd h (by simp [groupsText])
  | cons g groups ih =>
    cases groups with
    | nil => exact .inr ⟨g, List.mem_cons_self .., h⟩
    | cons g' groups =>
      rw [groupsText] at h
      · rcases List.mem_append.mp h with h | h
        · exact .inr ⟨g, List.mem_cons_self .., h⟩
        · rcases List.mem_cons.mp h with h | h
          · exact .inl h
          · obtain hc | ⟨g'', hg, hc⟩ := ih h
            · exact .inl hc
            · exact .inr ⟨g'', List.mem_cons_of_mem g hg, hc⟩
      · simp

theorem dot_not_mem_groupsText (groups : List UInt16) : '.' ∉ groupsText groups := by
  intro h
  rcases mem_groupsText h with h | ⟨g, -, h⟩
  · exact absurd h (by decide)
  · exact (mem_groupText h).2.1 rfl

theorem fields_groupsText (g : UInt16) (groups : List UInt16) :
    fields ':' (groupsText (g :: groups)) = (g :: groups).map groupText := by
  induction groups generalizing g with
  | nil => rw [groupsText, fields_word (colon_not_mem_groupText g)]; rfl
  | cons g' groups ih =>
    rw [groupsText, fields_append (colon_not_mem_groupText g), ih]
    · rfl
    · simp

theorem readGroups?_map (groups : List UInt16) :
    readGroups? (groups.map groupText) = some groups := by
  induction groups with
  | nil => rfl
  | cons g groups ih =>
    cases groups with
    | nil =>
      have hdot : '.' ∉ groupText g := fun h => (mem_groupText h).2.1 rfl
      simp only [List.map_cons, List.map_nil, readGroups?, readV4?_of_not_mem hdot,
        readGroup?_groupText, Option.map_some]
    | cons g' groups =>
      rw [List.map_cons, List.map_cons, readGroups?]
      · rw [List.map_cons] at ih
        rw [readGroup?_groupText, ih]
        rfl
      · simp

theorem mapM_readGroup? (groups : List UInt16) :
    (groups.map groupText).mapM readGroup? = some groups := by
  induction groups with
  | nil => rfl
  | cons g groups ih =>
    rw [List.map_cons, List.mapM_cons, readGroup?_groupText, ih]
    rfl

theorem groupsText_ne_nil (g : UInt16) (groups : List UInt16) : groupsText (g :: groups) ≠ [] := by
  cases groups with
  | nil => exact Nat.toDigits_ne_nil
  | cons g' groups =>
    rw [groupsText]
    · simp
    · simp

theorem partFields_groupsText (groups : List UInt16) :
    partFields (groupsText groups) = groups.map groupText := by
  cases groups with
  | nil => rfl
  | cons g groups =>
    have hempty : (groupsText (g :: groups)).isEmpty = false := by
      rw [List.isEmpty_eq_false_iff]
      exact groupsText_ne_nil g groups
    rw [partFields, hempty]
    exact fields_groupsText g groups

/-! ## The double colon -/

theorem cutGap?_append {word : List Char} (h : ':' ∉ word) (rest : List Char) :
    cutGap? (word ++ rest) = (cutGap? rest).map fun (before, after) => (word ++ before, after) := by
  induction word with
  | nil =>
    cases hr : cutGap? rest with
    | none => rw [List.nil_append, hr]; rfl
    | some parts => rw [List.nil_append, hr]; rfl
  | cons c word ih =>
    have hc : c ≠ ':' := fun he => h (he ▸ List.mem_cons_self ..)
    rw [List.cons_append, cutGap?, ih fun hm => h (List.mem_cons_of_mem c hm)]
    · cases cutGap? rest with
      | none => rfl
      | some parts => rfl
    · intro rest' hcolon
      exact absurd hcolon hc

theorem cutGap?_word {word : List Char} (h : ':' ∉ word) : cutGap? word = none := by
  have := cutGap?_append h []
  rw [List.append_nil] at this
  rw [this]
  rfl

theorem cutGap?_colon {c : Char} (hc : c ≠ ':') (rest : List Char) :
    cutGap? (':' :: c :: rest) =
      (cutGap? (c :: rest)).map fun (before, after) => (':' :: before, after) := by
  rw [cutGap?]
  intro rest' _ he
  exact hc (List.cons.inj he).1

/-- The text of groups does not begin with a colon. -/
theorem exists_groupsText (g : UInt16) (groups : List UInt16) :
    ∃ c rest, groupsText (g :: groups) = c :: rest ∧ c ≠ ':' := by
  obtain ⟨c, rest, hg⟩ := List.exists_cons_of_ne_nil (Nat.toDigits_ne_nil (b := 16) (n := g.toNat))
  have hm : c ∈ groupText g := by
    rw [groupText, hg]
    exact List.mem_cons_self ..
  have hc : c ≠ ':' := (mem_groupText hm).1
  cases groups with
  | nil => exact ⟨c, rest, hg, hc⟩
  | cons g' groups =>
    refine ⟨c, rest ++ ':' :: groupsText (g' :: groups), ?_, hc⟩
    rw [groupsText, groupText, hg]
    · rfl
    · simp

theorem cutGap?_groupsText (groups : List UInt16) (rest : List Char) :
    cutGap? (groupsText groups ++ ':' :: ':' :: rest) = some (groupsText groups, rest) := by
  induction groups with
  | nil => rfl
  | cons g groups ih =>
    cases groups with
    | nil =>
      rw [groupsText, cutGap?_append (colon_not_mem_groupText g)]
      simp [cutGap?]
    | cons g' groups =>
      obtain ⟨c, later, hl, hc⟩ := exists_groupsText g' groups
      rw [groupsText, List.append_assoc, cutGap?_append (colon_not_mem_groupText g), List.cons_append]
      · rw [hl, List.cons_append, cutGap?_colon hc, ← List.cons_append, ← hl, ih]
        rfl
      · simp

theorem cutGap?_groupsText_eq_none (groups : List UInt16) : cutGap? (groupsText groups) = none := by
  induction groups with
  | nil => rfl
  | cons g groups ih =>
    cases groups with
    | nil => exact cutGap?_word (colon_not_mem_groupText g)
    | cons g' groups =>
      obtain ⟨c, later, hl, hc⟩ := exists_groupsText g' groups
      rw [groupsText, cutGap?_append (colon_not_mem_groupText g)]
      · rw [hl, cutGap?_colon hc, ← hl, ih]
        rfl
      · simp

theorem zeroRun_spec (groups : List UInt16) :
    groups.take (zeroRun groups) = List.replicate (zeroRun groups) 0 ∧
      zeroRun groups ≤ groups.length := by
  induction groups with
  | nil => exact ⟨rfl, Nat.le_refl _⟩
  | cons g groups ih =>
    rw [zeroRun]
    split
    · rename_i hg
      refine ⟨?_, Nat.succ_le_succ ih.2⟩
      rw [List.take_succ_cons, ih.1, hg]
      rfl
    · exact ⟨rfl, Nat.zero_le _⟩

/-- The run that is left out is one of zeros, and lies within the groups. -/
theorem longestRun_spec (groups : List UInt16) :
    (groups.drop (longestRun groups).1).take (longestRun groups).2 =
        List.replicate (longestRun groups).2 0 ∧
      (longestRun groups).1 + (longestRun groups).2 ≤ groups.length := by
  induction groups with
  | nil => exact ⟨rfl, Nat.le_refl _⟩
  | cons g groups ih =>
    rw [longestRun]
    by_cases hl : (longestRun groups).2 ≤ zeroRun (g :: groups)
    · simp only [if_pos hl]
      have hz := zeroRun_spec (g :: groups)
      rw [List.drop_zero]
      exact ⟨hz.1, by omega⟩
    · simp only [if_neg hl]
      rw [List.drop_succ_cons, List.length_cons]
      exact ⟨ih.1, by omega⟩

/-! ## Both families -/

theorem ofGroups?_toList (groups : Vector UInt16 8) :
    ofGroups? groups.toList = some (.v6 groups) := by
  rw [ofGroups?, dif_pos groups.length_toList]
  rfl

theorem readV6?_groupsText {groups : Vector UInt16 8} (h : groups.toList ≠ []) :
    readV6? (groupsText groups.toList) = some (.v6 groups) := by
  obtain ⟨g, later, hg⟩ := List.exists_cons_of_ne_nil h
  have hread : readGroups? (fields ':' (groupsText groups.toList)) = some groups.toList := by
    rw [hg, fields_groupsText, readGroups?_map]
  rw [readV6?, cutGap?_groupsText_eq_none]
  simp only [hread, Option.bind_eq_bind, Option.bind_some, ofGroups?_toList]

theorem readV6?_gap {groups : Vector UInt16 8} (h : 2 ≤ (longestRun groups.toList).2) :
    readV6? (groupsText (groups.toList.take (longestRun groups.toList).1) ++ ':' :: ':' ::
      groupsText (groups.toList.drop
        ((longestRun groups.toList).1 + (longestRun groups.toList).2))) = some (.v6 groups) := by
  obtain ⟨hzeros, hlen⟩ := longestRun_spec groups.toList
  generalize (longestRun groups.toList).1 = start at *
  generalize (longestRun groups.toList).2 = len at *
  have height : groups.toList.length = 8 := groups.length_toList
  have hhead : (groups.toList.take start).length = start := by
    rw [List.length_take]
    omega
  have htail : (groups.toList.drop (start + len)).length = 8 - (start + len) := by
    rw [List.length_drop, height]
  have hall : groups.toList.take start ++ List.replicate (8 - (start + (8 - (start + len)))) 0 ++
      groups.toList.drop (start + len) = groups.toList := by
    have hcount : 8 - (start + (8 - (start + len))) = len := by omega
    rw [hcount, ← hzeros, List.append_assoc, ← List.drop_drop, List.take_append_drop,
      List.take_append_drop]
  have hroom : start + (8 - (start + len)) ≤ 7 := by omega
  rw [readV6?, cutGap?_groupsText]
  simp only [partFields_groupsText, mapM_readGroup?, readGroups?_map, Option.bind_eq_bind,
    Option.bind_some, hhead, htail, if_pos hroom, hall, ofGroups?_toList]

theorem word_octets (g : UInt16) :
    word (UInt8.ofNat (g.toNat / 256)) (UInt8.ofNat g.toNat) = g := by
  have hg := g.toNat_lt
  have hhigh : (UInt8.ofNat (g.toNat / 256)).toNat = g.toNat / 256 :=
    UInt8.toNat_ofNat_of_lt (by rw [UInt8.size]; omega)
  have hlow : (UInt8.ofNat g.toNat).toNat = g.toNat % 256 := UInt8.toNat_ofNat'
  have hsum : 256 * (g.toNat / 256) + g.toNat % 256 = g.toNat := by omega
  rw [word, hhigh, hlow, hsum, UInt16.ofNat_toNat]

theorem colon_not_mem_octetsText (a b c d : UInt8) : ':' ∉ octetsText a b c d := by
  have hcolon : ∀ n, ':' ∉ Nat.toDigits 10 n := fun n => not_mem_toDigits (by decide) n
  simp [octetsText, hcolon]

theorem readV6?_mapped (high low : UInt16) :
    readV6? ("::ffff:".toList ++ octetsText (UInt8.ofNat (high.toNat / 256)) (UInt8.ofNat high.toNat)
      (UInt8.ofNat (low.toNat / 256)) (UInt8.ofNat low.toNat)) =
      some (.v6 #v[0, 0, 0, 0, 0, 0xffff, high, low]) := by
  have hcut : ∀ cs, cutGap? ("::ffff:".toList ++ cs) = some ([], "ffff".toList ++ ':' :: cs) :=
    fun _ => rfl
  have hffff : ':' ∉ "ffff".toList := by decide
  have hgroup : readGroup? "ffff".toList = some 0xffff := by decide
  have hnone : readV4? "ffff".toList = none := readV4?_of_not_mem (by decide)
  have hparts : partFields ("ffff".toList ++ ':' :: octetsText (UInt8.ofNat (high.toNat / 256))
      (UInt8.ofNat high.toNat) (UInt8.ofNat (low.toNat / 256)) (UInt8.ofNat low.toNat)) =
      ["ffff".toList, octetsText (UInt8.ofNat (high.toNat / 256)) (UInt8.ofNat high.toNat)
        (UInt8.ofNat (low.toNat / 256)) (UInt8.ofNat low.toNat)] := by
    rw [partFields, fields_append hffff, fields_word (colon_not_mem_octetsText _ _ _ _)]
    rfl
  rw [readV6?, hcut]
  simp only [hparts, readGroups?, hgroup, readV4?_octetsText, word_octets, Option.bind_eq_bind,
    Option.bind_some]
  rfl

theorem dot_not_mem_v6Text {groups : List UInt16}
    (h : ∀ high low, groups ≠ [0, 0, 0, 0, 0, 0xffff, high, low]) : '.' ∉ v6Text groups := by
  unfold v6Text
  split
  · rename_i high low
    exact absurd rfl (h high low)
  · simp only []
    split
    · intro hm
      rcases List.mem_append.mp hm with hm | hm
      · exact dot_not_mem_groupsText _ hm
      · simp only [List.mem_cons] at hm
        rcases hm with hm | hm | hm
        · exact absurd hm (by decide)
        · exact absurd hm (by decide)
        · exact dot_not_mem_groupsText _ hm
    · exact dot_not_mem_groupsText _

theorem readV6?_v6Text (groups : Vector UInt16 8) :
    readV6? (v6Text groups.toList) = some (.v6 groups) := by
  have hne : groups.toList ≠ [] := by
    intro h
    exact absurd (congrArg List.length h) (by simp)
  generalize hl : groups.toList = list
  unfold v6Text
  split
  · rename_i high low
    have hg : groups = #v[0, 0, 0, 0, 0, 0xffff, high, low] := by
      apply Vector.toList_inj.mp
      rw [hl]
      rfl
    rw [hg]
    exact readV6?_mapped high low
  · rw [← hl]
    simp only []
    split
    · rename_i hlen
      exact readV6?_gap hlen
    · exact readV6?_groupsText hne

theorem readV4?_v6Text (groups : Vector UInt16 8) : readV4? (v6Text groups.toList) = none := by
  by_cases h : ∃ high low, groups.toList = [0, 0, 0, 0, 0, 0xffff, high, low]
  · obtain ⟨high, low, hg⟩ := h
    rw [hg]
    exact readV4?_append (by decide) (by decide) _ _ _ _
  · exact readV4?_of_not_mem (dot_not_mem_v6Text fun high low hg => h ⟨high, low, hg⟩)

/-- An address is read as it is written. -/
theorem read?_text (a : IpAddress) : read? a.text = some a := by
  cases a with
  | v4 a b c d =>
    rw [text, read?, String.toList_ofList, readV4?_octetsText]
  | v6 groups =>
    rw [text, read?, String.toList_ofList, readV4?_v6Text]
    exact readV6?_v6Text groups

/-! ## The form of the text -/

/-- The characters of an address are visible ones of the basic range. -/
def Visible (cs : List Char) : Prop := ∀ c ∈ cs, 0x21 ≤ c.toNat ∧ c.toNat ≤ 0x7e

instance (cs : List Char) : Decidable (Visible cs) := List.decidableBAll _ _

theorem Visible.append {cs ds : List Char} (hc : Visible cs) (hd : Visible ds) :
    Visible (cs ++ ds) := by
  intro c hm
  rcases List.mem_append.mp hm with hm | hm
  · exact hc c hm
  · exact hd c hm

theorem Visible.cons {c : Char} {cs : List Char} (hc : 0x21 ≤ c.toNat ∧ c.toNat ≤ 0x7e)
    (hd : Visible cs) : Visible (c :: cs) := by
  intro d hm
  rcases List.mem_cons.mp hm with rfl | hm
  · exact hc
  · exact hd d hm

theorem visible_toDigits (n : Nat) : Visible (Nat.toDigits 10 n) := by
  intro c hm
  obtain ⟨hlow, hhigh⟩ := Text.toNat_of_isDigit (Decimal.isDigit_of_mem_toDigits hm)
  exact ⟨by omega, by omega⟩

theorem visible_octetsText (a b c d : UInt8) : Visible (octetsText a b c d) :=
  (((visible_toDigits _).append (.cons (by decide) (visible_toDigits _))).append
    (.cons (by decide) (visible_toDigits _))).append (.cons (by decide) (visible_toDigits _))

theorem visible_groupsText (groups : List UInt16) : Visible (groupsText groups) := by
  intro c hm
  rcases mem_groupsText hm with rfl | ⟨g, -, hm⟩
  · decide
  · exact (mem_groupText hm).2.2

theorem visible_text (a : IpAddress) : Visible a.text.toList := by
  cases a with
  | v4 a b c d =>
    rw [text, String.toList_ofList]
    exact visible_octetsText a b c d
  | v6 groups =>
    rw [text, String.toList_ofList]
    unfold v6Text
    split
    · refine Visible.append ?_ (visible_octetsText _ _ _ _)
      decide
    · simp only []
      split
      · exact (visible_groupsText _).append
          (.cons (by decide) (.cons (by decide) (visible_groupsText _)))
      · exact visible_groupsText _

theorem length_octetsText_le (a b c d : UInt8) : (octetsText a b c d).length ≤ 15 := by
  have hlen : ∀ n : UInt8, (Nat.toDigits 10 n.toNat).length ≤ 3 := fun n =>
    (Nat.length_toDigits_le_iff (by decide) (by decide)).mpr (Nat.lt_trans n.toNat_lt (by decide))
  have ha := hlen a
  have hb := hlen b
  have hc := hlen c
  have hd := hlen d
  rw [octetsText]
  simp only [List.length_append, List.length_cons]
  omega

theorem length_groupsText_le (groups : List UInt16) :
    (groupsText groups).length ≤ 5 * groups.length := by
  have hlen : ∀ g, (groupText g).length ≤ 4 := fun g =>
    (Nat.length_toDigits_le_iff (by decide) (by decide)).mpr g.toNat_lt
  induction groups with
  | nil => exact Nat.le_refl _
  | cons g groups ih =>
    have hg := hlen g
    cases groups with
    | nil =>
      rw [groupsText, List.length_singleton]
      omega
    | cons g' groups =>
      rw [groupsText]
      · rw [List.length_append, List.length_cons, List.length_cons]
        omega
      · simp

theorem length_text_le (a : IpAddress) : a.text.toList.length ≤ 42 := by
  cases a with
  | v4 a b c d =>
    have := length_octetsText_le a b c d
    rw [text, String.toList_ofList]
    omega
  | v6 groups =>
    have height : groups.toList.length = 8 := groups.length_toList
    rw [text, String.toList_ofList]
    unfold v6Text
    split
    · rename_i high low _
      have := length_octetsText_le (UInt8.ofNat (high.toNat / 256)) (UInt8.ofNat high.toNat)
        (UInt8.ofNat (low.toNat / 256)) (UInt8.ofNat low.toNat)
      have hstart : "::ffff:".toList.length = 7 := rfl
      rw [List.length_append]
      omega
    · simp only []
      split
      · have hrun := (longestRun_spec groups.toList).2
        have hhead := length_groupsText_le (groups.toList.take (longestRun groups.toList).1)
        have htail := length_groupsText_le
          (groups.toList.drop ((longestRun groups.toList).1 + (longestRun groups.toList).2))
        rw [List.length_take] at hhead
        rw [List.length_drop] at htail
        simp only [List.length_append, List.length_cons]
        omega
      · have := length_groupsText_le groups.toList
        omega

theorem isWord_text (a : IpAddress) : Text.IsWord a.text := by
  refine ⟨fun h => ?_, fun c hm => ?_⟩
  · have hread := read?_text a
    rw [h] at hread
    exact absurd hread (by simp [show read? "" = none from rfl])
  · obtain ⟨hlow, hhigh⟩ := visible_text a c hm
    exact Text.isBlank_eq_false hlow hhigh

end PeerChat.IpAddress
