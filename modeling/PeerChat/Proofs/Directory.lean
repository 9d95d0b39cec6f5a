import Mathlib.Data.List.Nodup
import PeerChat.Directory
import PeerChat.Proofs.Text.Utf8

/-!
# What the operations of the directory do to its entries

`insert` adds one entry under a name that was free, `erase` takes away the entry of a name, and
`eraseOwned` takes it away only for its owner.  Names stay unique and in order, and the capacity is
kept.
-/

namespace PeerChat

namespace Directory

/-- No two entries under one name. -/
def NamesUnique (d : Directory) : Prop := (d.entries.map (·.peer.name)).Nodup

theorem place_perm (entry : Entry) (entries : List Entry) :
    (place entry entries).Perm (entry :: entries) := by
  induction entries with
  | nil => exact .refl _
  | cons e later ih =>
    rw [place]
    split
    · exact .refl _
    · exact (ih.cons e).trans (.swap entry e later)

theorem mem_place {e entry : Entry} {entries : List Entry} :
    e ∈ place entry entries ↔ e = entry ∨ e ∈ entries := by
  rw [(place_perm entry entries).mem_iff, List.mem_cons]

theorem contains_iff {d : Directory} {name : String} :
    d.contains name = true ↔ ∃ e ∈ d.entries, e.peer.name = name := by
  rw [contains, find?, List.find?_isSome]
  simp

theorem mem_peers {d : Directory} {except : Option String} {p : Peer} :
    p ∈ d.peers except ↔ (∃ e ∈ d.entries, e.peer = p) ∧ some p.name ≠ except := by
  rw [peers, List.mem_filter, List.mem_map]
  simp

theorem eq_of_name_eq {d : Directory} (h : d.NamesUnique) {e f : Entry} (he : e ∈ d.entries)
    (hf : f ∈ d.entries) (hn : e.peer.name = f.peer.name) : e = f :=
  List.inj_on_of_nodup_map h he hf hn

/-! ## Entering -/

/-- What a successful registration found and left behind. -/
theorem insert_eq_ok {d d' : Directory} {peer : Peer} {owner : Option OwnerId} {others : List Peer}
    (h : d.insert peer owner = .ok (d', others)) :
    (∀ e ∈ d.entries, e.peer.name ≠ peer.name) ∧ d.size < d.capacity ∧
      d' = { d with entries := place ⟨peer, owner⟩ d.entries } ∧
      others = d'.peers (some peer.name) := by
  unfold insert at h
  split at h
  · exact absurd h (by simp)
  · rename_i hc
    split at h
    · exact absurd h (by simp)
    · rename_i hs
      obtain ⟨rfl, rfl⟩ := Prod.mk.inj (Except.ok.inj h)
      refine ⟨?_, by omega, rfl, rfl⟩
      intro e he hn
      exact hc (contains_iff.mpr ⟨e, he, hn⟩)

theorem exists_insert_of_room {d : Directory} (peer : Peer) (owner : Option OwnerId)
    (hfree : ¬ d.contains peer.name = true) (hroom : ¬ d.capacity ≤ d.size) :
    ∃ entered, d.insert peer owner = .ok entered := by
  rw [insert, if_neg hfree, if_neg hroom]
  exact ⟨_, rfl⟩

theorem exists_insert {d : Directory} (peer : Peer) (owner : Option OwnerId)
    (hfree : ∀ e ∈ d.entries, e.peer.name ≠ peer.name) (hroom : d.size < d.capacity) :
    ∃ entered, d.insert peer owner = .ok entered := by
  refine exists_insert_of_room peer owner ?_ (Nat.not_le.mpr hroom)
  rw [contains_iff]
  rintro ⟨e, he, hname⟩
  exact hfree e he hname

theorem insert_eq_nameTaken_iff {d : Directory} {peer : Peer} {owner : Option OwnerId} :
    d.insert peer owner = .error (.nameTaken peer.name) ↔
      ∃ e ∈ d.entries, e.peer.name = peer.name := by
  rw [← contains_iff, insert]
  by_cases hc : d.contains peer.name = true
  · simp [hc]
  · rw [if_neg hc]
    split <;> simp [hc]

theorem NamesUnique.insert {d d' : Directory} (hd : d.NamesUnique) {peer : Peer}
    {owner : Option OwnerId} {others : List Peer}
    (h : d.insert peer owner = .ok (d', others)) : d'.NamesUnique := by
  obtain ⟨hfree, -, rfl, -⟩ := insert_eq_ok h
  have hp := (place_perm ⟨peer, owner⟩ d.entries).map (·.peer.name)
  rw [NamesUnique, hp.nodup_iff, List.map_cons, List.nodup_cons]
  refine ⟨?_, hd⟩
  intro hm
  obtain ⟨e, he, hn⟩ := List.mem_map.mp hm
  exact hfree e he hn

theorem size_insert {d d' : Directory} {peer : Peer} {owner : Option OwnerId} {others : List Peer}
    (h : d.insert peer owner = .ok (d', others)) :
    d'.size = d.size + 1 ∧ d'.capacity = d.capacity := by
  obtain ⟨-, -, rfl, -⟩ := insert_eq_ok h
  exact ⟨(place_perm _ _).length_eq, rfl⟩

/-! ## Leaving -/

theorem mem_erase {d : Directory} {name : String} {e : Entry} :
    e ∈ (d.erase name).entries ↔ e ∈ d.entries ∧ e.peer.name ≠ name := by
  simp [erase]

theorem NamesUnique.filter {d : Directory} (hd : d.NamesUnique) (p : Entry → Bool) :
    NamesUnique { d with entries := d.entries.filter p } :=
  hd.sublist (List.Sublist.map _ List.filter_sublist)

theorem size_filter_le (d : Directory) (p : Entry → Bool) :
    size { d with entries := d.entries.filter p } ≤ d.size :=
  List.length_filter_le _ _

theorem isOwnedBy_iff {d : Directory} (hd : d.NamesUnique) {name : String} {owner : OwnerId} :
    d.isOwnedBy name owner = true ↔
      ∃ e ∈ d.entries, e.peer.name = name ∧ e.owner = some owner := by
  unfold isOwnedBy find?
  constructor
  · intro h
    split at h
    · rename_i e he
      have hn := List.find?_some he
      exact ⟨e, List.mem_of_find?_eq_some he, by simpa using hn, by simpa using h⟩
    · exact absurd h (by simp)
  · rintro ⟨e, he, hn, ho⟩
    have hs : (d.entries.find? fun f => f.peer.name = name).isSome := by
      rw [List.find?_isSome]
      exact ⟨e, he, by simpa using hn⟩
    obtain ⟨f, hf⟩ := Option.isSome_iff_exists.mp hs
    have hfn : f.peer.name = name := by simpa using List.find?_some hf
    have hfe : f = e := eq_of_name_eq hd (List.mem_of_find?_eq_some hf) he (hfn.trans hn.symm)
    rw [hf]
    simpa [hfe] using ho

/-- An owner whose entries are all under one name loses exactly these entries. -/
theorem eraseOwned_eq_filter {d : Directory} (hd : d.NamesUnique) {name : String} {owner : OwnerId}
    (hown : ∀ e ∈ d.entries, e.owner = some owner → e.peer.name = name) :
    d.eraseOwned name owner =
      { d with entries := d.entries.filter fun e => e.owner ≠ some owner } := by
  unfold eraseOwned
  by_cases h : d.isOwnedBy name owner = true
  · rw [if_pos h]
    obtain ⟨f, hf, hfn, hfo⟩ := (isOwnedBy_iff hd).mp h
    unfold erase
    congr 1
    apply List.filter_congr
    intro e he
    by_cases heo : e.owner = some owner
    · simp [heo, hown e he heo]
    · have hne : e.peer.name ≠ name := by
        intro hn
        rw [eq_of_name_eq hd he hf (hn.trans hfn.symm)] at heo
        exact heo hfo
      simp [heo, hne]
  · rw [if_neg h]
    have hkeep : d.entries.filter (fun e => decide (e.owner ≠ some owner)) = d.entries := by
      rw [List.filter_eq_self]
      intro e he
      have hne : e.owner ≠ some owner := by
        intro heo
        exact h ((isOwnedBy_iff hd).mpr ⟨e, he, hown e he heo, heo⟩)
      simpa using hne
    rw [hkeep]

theorem eraseOwned_eq_self {d : Directory} {name : String} {owner : OwnerId}
    (h : d.isOwnedBy name owner = false) : d.eraseOwned name owner = d := by
  rw [eraseOwned, h]
  rfl

theorem erase_eq_self {d : Directory} {name : String} (h : d.contains name = false) :
    d.erase name = d := by
  have hfree : ∀ e ∈ d.entries, e.peer.name ≠ name := by
    intro e he hn
    rw [contains_iff.mpr ⟨e, he, hn⟩] at h
    exact absurd h (by simp)
  rw [erase, List.filter_eq_self.mpr fun e he => by simpa using hfree e he]

theorem mem_eraseOwned {d : Directory} (hd : d.NamesUnique) {name : String} {owner : OwnerId}
    {e : Entry} : e ∈ (d.eraseOwned name owner).entries ↔
      e ∈ d.entries ∧ ¬ (e.peer.name = name ∧ e.owner = some owner) := by
  cases h : d.isOwnedBy name owner with
  | false =>
    rw [eraseOwned_eq_self h]
    refine ⟨fun he => ⟨he, fun ⟨hn, ho⟩ => ?_⟩, fun he => he.1⟩
    rw [(isOwnedBy_iff hd).mpr ⟨e, he, hn, ho⟩] at h
    exact absurd h (by simp)
  | true =>
    obtain ⟨f, hf, hfn, hfo⟩ := (isOwnedBy_iff hd).mp h
    rw [eraseOwned, if_pos h, mem_erase]
    refine and_congr_right fun he => ⟨fun hne hn => hne hn.1, fun hne hn => hne ⟨hn, ?_⟩⟩
    rw [eq_of_name_eq hd he hf (hn.trans hfn.symm), hfo]

/-! ## Order -/

/-- In ascending order of the names' bytes, no name twice. -/
def Ascending (peers : List Peer) : Prop :=
  peers.Pairwise fun p q => Utf8.encode p.name < Utf8.encode q.name

def InOrder (d : Directory) : Prop := Ascending (d.entries.map (·.peer))

theorem InOrder.namesUnique {d : Directory} (h : d.InOrder) : d.NamesUnique := by
  rw [NamesUnique, List.Nodup, List.pairwise_map]
  refine (List.pairwise_map.mp h).imp fun hlt he => ?_
  rw [he] at hlt
  exact Std.lt_irrefl hlt

theorem InOrder.filter {d : Directory} (h : d.InOrder) (p : Entry → Bool) :
    InOrder { d with entries := d.entries.filter p } :=
  h.sublist (List.Sublist.map _ List.filter_sublist)

theorem InOrder.ascending_peers {d : Directory} (h : d.InOrder) (except : Option String) :
    Ascending (d.peers except) := List.Pairwise.sublist List.filter_sublist h

/-- An entry under a new name keeps the order. -/
theorem ascending_place {entry : Entry} {entries : List Entry}
    (h : Ascending (entries.map (·.peer))) (hfree : ∀ e ∈ entries, e.peer.name ≠ entry.peer.name) :
    Ascending ((place entry entries).map (·.peer)) := by
  induction entries with
  | nil => exact List.pairwise_singleton _ _
  | cons e later ih =>
    obtain ⟨hfirst, hlater⟩ := List.pairwise_cons.mp h
    rw [place]
    split
    · rename_i hlt
      refine List.pairwise_cons.mpr ⟨fun p hp => ?_, h⟩
      rcases List.mem_cons.mp hp with rfl | hp
      · exact hlt
      · exact List.lt_trans hlt (hfirst p hp)
    · rename_i hle
      refine List.pairwise_cons.mpr ⟨fun p hp => ?_, ih hlater fun f hf =>
        hfree f (List.mem_cons_of_mem e hf)⟩
      obtain ⟨f, hf, rfl⟩ := List.mem_map.mp hp
      rcases mem_place.mp hf with rfl | hf
      · exact Std.lt_of_le_of_ne hle fun he =>
          hfree e (List.mem_cons_self ..) (Utf8.encode_injective he)
      · exact hfirst f.peer (List.mem_map_of_mem hf)

theorem InOrder.insert {d d' : Directory} (hd : d.InOrder) {peer : Peer} {owner : Option OwnerId}
    {others : List Peer} (h : d.insert peer owner = .ok (d', others)) : d'.InOrder := by
  obtain ⟨hfree, -, rfl, -⟩ := insert_eq_ok h
  exact ascending_place hd hfree

/-- The others are those that were there before. -/
theorem peers_of_insert {d d' : Directory} {peer : Peer} {owner : Option OwnerId}
    {others : List Peer} (h : d.insert peer owner = .ok (d', others)) :
    others = d.entries.map (·.peer) := by
  obtain ⟨hfree, -, rfl, rfl⟩ := insert_eq_ok h
  have hsame : ∀ entries : List Entry, (∀ e ∈ entries, e.peer.name ≠ peer.name) →
      (entries.map (·.peer)).filter (fun p => decide (some p.name ≠ some peer.name)) =
        entries.map (·.peer) := by
    intro entries hfree
    refine List.filter_eq_self.mpr fun p hp => ?_
    obtain ⟨e, he, rfl⟩ := List.mem_map.mp hp
    simpa using hfree e he
  have hplace : ∀ entries : List Entry, (∀ e ∈ entries, e.peer.name ≠ peer.name) →
      ((place ⟨peer, owner⟩ entries).map (·.peer)).filter
        (fun p => decide (some p.name ≠ some peer.name)) = entries.map (·.peer) := by
    intro entries hfree
    induction entries with
    | nil => simp [place]
    | cons e later ih =>
      rw [place]
      split
      · rw [List.map_cons, List.filter_cons_of_neg (by simp), hsame _ hfree]
      · have he := hfree e (List.mem_cons_self ..)
        rw [List.map_cons, List.filter_cons_of_pos (by simpa using he),
          ih fun f hf => hfree f (List.mem_cons_of_mem e hf), List.map_cons]
  exact hplace d.entries hfree

/-! ## Other owners -/

end Directory

def Entry.rename (r : OwnerId → OwnerId) (e : Entry) : Entry := { e with owner := e.owner.map r }

namespace Directory

/-- The same directory, with other ids for its owners. -/
def rename (r : OwnerId → OwnerId) (d : Directory) : Directory :=
  { d with entries := d.entries.map (Entry.rename r) }

variable {r : OwnerId → OwnerId} {d : Directory} {name : String}

theorem find?_rename : (d.rename r).find? name = (d.find? name).map (Entry.rename r) := by
  rw [find?, rename, List.find?_map]
  rfl

theorem contains_rename : (d.rename r).contains name = d.contains name := by
  rw [contains, find?_rename, Option.isSome_map, contains]

theorem size_rename : (d.rename r).size = d.size := List.length_map _

theorem peers_rename (except : Option String) : (d.rename r).peers except = d.peers except := by
  rw [peers, rename, List.map_map]
  rfl

theorem place_rename (entry : Entry) (entries : List Entry) :
    place (entry.rename r) (entries.map (Entry.rename r)) = (place entry entries).map (Entry.rename r) := by
  induction entries with
  | nil => rfl
  | cons e later ih =>
    rw [List.map_cons, place, place, ih]
    change (if Utf8.encode entry.peer.name < Utf8.encode e.peer.name then _ else _) = _
    split <;> rfl

theorem insert_rename (peer : Peer) (owner : Option OwnerId) :
    (d.rename r).insert peer (owner.map r) =
      (d.insert peer owner).map fun entered => (entered.1.rename r, entered.2) := by
  rw [insert, insert, contains_rename, size_rename]
  change (if _ then _ else if d.capacity ≤ d.size then _ else _) = _
  split
  · rfl
  · split
    · rfl
    · have hplace : ({ d.rename r with
          entries := place ⟨peer, owner.map r⟩ (d.rename r).entries } : Directory) =
            rename r { d with entries := place ⟨peer, owner⟩ d.entries } :=
        congrArg (Directory.mk d.capacity) (place_rename ⟨peer, owner⟩ d.entries)
      simp only [hplace, peers_rename, Except.map]

theorem erase_rename : (d.rename r).erase name = (d.erase name).rename r := by
  rw [erase, rename, rename, erase, List.filter_map]
  rfl

theorem eraseOwned_rename {owner : OwnerId}
    (hr : ∀ e ∈ d.entries, ∀ o, e.owner = some o → r o = r owner → o = owner) :
    (d.rename r).eraseOwned name (r owner) = (d.eraseOwned name owner).rename r := by
  have howned : (d.rename r).isOwnedBy name (r owner) = d.isOwnedBy name owner := by
    rw [isOwnedBy, isOwnedBy, find?_rename]
    cases hf : d.find? name with
    | none => rfl
    | some e =>
      have he := hr e (List.mem_of_find?_eq_some hf)
      change decide (e.owner.map r = some (r owner)) = decide (e.owner = some owner)
      cases ho : e.owner with
      | none => rfl
      | some o =>
        refine decide_eq_decide.mpr ⟨fun h => ?_, fun h => congrArg (Option.map r) h⟩
        rw [he o ho (Option.some.inj h)]
  rw [eraseOwned, eraseOwned, howned, erase_rename]
  split <;> rfl

end Directory

end PeerChat
