import Mathlib.Data.List.Induction
import PeerChat.Directory.Operations
import PeerChat.Proofs.Directory

/-!
# What a directory holds is told by its history

After any history the directory holds exactly the entries that stand in it, and from what it holds
every answer follows (`history_told`).

`mem_perform` says what one operation does to what is held, and `stands_concat` says the same of what
stands; `Regular` is what every operation keeps.
-/

namespace PeerChat.Directory

variable {capacity : Nat} {d : Directory} {history : List Operation} {op : Operation} {e : Entry}

/-- In order, and within the capacity. -/
structure Regular (capacity : Nat) (d : Directory) : Prop where
  inOrder : d.InOrder
  capacity_eq : d.capacity = capacity
  size_le : d.size ≤ capacity

namespace Regular

theorem empty (capacity : Nat) : Regular capacity (.empty capacity) :=
  ⟨List.Pairwise.nil, rfl, Nat.zero_le _⟩

theorem filter (hd : Regular capacity d) (p : Entry → Bool) :
    Regular capacity { d with entries := d.entries.filter p } :=
  ⟨hd.inOrder.filter p, hd.capacity_eq, Nat.le_trans (size_filter_le d p) hd.size_le⟩

theorem enter (hd : Regular capacity d) (peer : Peer) (owner : Option OwnerId) :
    Regular capacity (d.enter peer owner).2 := by
  unfold Directory.enter
  split
  · rename_i d' others h
    obtain ⟨-, hroom, -⟩ := insert_eq_ok h
    obtain ⟨hsize, hcapacity⟩ := size_insert h
    have hc := hd.capacity_eq
    have hle : d'.size ≤ capacity := by omega
    exact ⟨hd.inOrder.insert h, hcapacity.trans hc, hle⟩
  · exact hd

theorem perform (hd : Regular capacity d) (op : Operation) : Regular capacity (d.perform op).2 := by
  cases op with
  | register peer => exact hd.enter peer none
  | registerOwned peer owner => exact hd.enter peer (some owner)
  | remove name => exact hd.filter _
  | removeOwned name owner =>
    change Regular capacity (d.eraseOwned name owner)
    unfold eraseOwned
    split
    · exact hd.filter _
    · exact hd
  | list except => exact hd
  | contains name => exact hd
  | size => exact hd

theorem run (capacity : Nat) (history : List Operation) :
    Regular capacity (run (.empty capacity) history) := by
  induction history using List.reverseRecOn with
  | nil => exact empty capacity
  | append_singleton history op ih =>
    rw [run_concat]
    exact ih.perform op

end Regular

/-! ## Registrations -/

theorem perform_of_enters? (h : op.enters? = some e) : d.perform op = d.enter e.peer e.owner := by
  cases op with
  | register peer => rw [← Option.some.inj h]; rfl
  | registerOwned peer owner => rw [← Option.some.inj h]; rfl
  | _ => exact absurd h (by simp [Operation.enters?])

theorem enter_of_taken {peer : Peer} {owner : Option OwnerId}
    (h : ∃ f ∈ d.entries, f.peer.name = peer.name) :
    d.enter peer owner = (.refused (.nameTaken peer.name), d) := by
  rw [enter, insert_eq_nameTaken_iff.mpr h]

theorem enter_of_full {peer : Peer} {owner : Option OwnerId}
    (hfree : ∀ f ∈ d.entries, f.peer.name ≠ peer.name) (hfull : d.capacity ≤ d.size) :
    d.enter peer owner = (.refused (.full d.capacity), d) := by
  have hcontains : ¬ d.contains peer.name = true := by
    rw [contains_iff]
    rintro ⟨f, hf, hname⟩
    exact hfree f hf hname
  rw [enter, insert, if_neg hcontains, if_pos hfull]

theorem enter_of_room {peer : Peer} {owner : Option OwnerId}
    (hfree : ∀ f ∈ d.entries, f.peer.name ≠ peer.name) (hroom : d.size < d.capacity) :
    d.enter peer owner = (.entered (d.entries.map (·.peer)),
      { d with entries := place ⟨peer, owner⟩ d.entries }) := by
  obtain ⟨⟨d', others⟩, hi⟩ := exists_insert peer owner hfree hroom
  obtain ⟨-, -, rfl, -⟩ := insert_eq_ok hi
  rw [enter, hi, peers_of_insert hi]

theorem mem_enter {peer : Peer} {owner : Option OwnerId} :
    e ∈ (d.enter peer owner).2.entries ↔
      e = ⟨peer, owner⟩ ∧ (∃ others, (d.enter peer owner).1 = .entered others) ∨ e ∈ d.entries := by
  by_cases hfree : ∃ f ∈ d.entries, f.peer.name = peer.name
  · simp [enter_of_taken hfree]
  · have hfree : ∀ f ∈ d.entries, f.peer.name ≠ peer.name := fun f hf hn => hfree ⟨f, hf, hn⟩
    by_cases hroom : d.size < d.capacity
    · simp [enter_of_room hfree hroom, mem_place]
    · simp [enter_of_full hfree (Nat.not_lt.mp hroom)]

/-! ## One operation -/

/-- What is held afterwards has just been entered, or was held and is not struck off. -/
theorem mem_perform (hd : d.NamesUnique) :
    e ∈ (d.perform op).2.entries ↔
      (op.enters? = some e ∧ ∃ others, (d.perform op).1 = .entered others) ∨
        e ∈ d.entries ∧ ¬ op.Strikes e := by
  cases op with
  | register peer | registerOwned peer owner =>
    simp only [perform, mem_enter, Operation.enters?, Operation.Strikes, Option.some.injEq, eq_comm,
      not_false_eq_true, and_true]
  | remove name =>
    simp only [perform, mem_erase, Operation.enters?, Operation.Strikes, reduceCtorEq, false_and,
      false_or, ne_eq]
  | removeOwned name owner =>
    simp only [perform, mem_eraseOwned hd, Operation.enters?, Operation.Strikes, reduceCtorEq,
      false_and, false_or]
  | list | contains | size => simp [perform, Operation.enters?, Operation.Strikes]

/-- A removal tells whether an entry goes, and does nothing else. -/
theorem perform_of_isRemoval (hd : d.NamesUnique) (h : op.IsRemoval) :
    ∃ gone d', d.perform op = (.whether gone, d') ∧
      (gone = true ↔ ∃ e ∈ d.entries, op.Strikes e) ∧
      (∀ e, e ∈ d'.entries ↔ e ∈ d.entries ∧ ¬ op.Strikes e) ∧ (gone = false → d' = d) := by
  cases op with
  | remove name => exact ⟨_, _, rfl, contains_iff, fun e => mem_erase, erase_eq_self⟩
  | removeOwned name owner =>
    exact ⟨_, _, rfl, isOwnedBy_iff hd, fun e => mem_eraseOwned hd, eraseOwned_eq_self⟩
  | _ => exact h.elim

/-! ## Histories -/

theorem stands_concat :
    Stands d (history ++ [op]) e ↔
      (op.enters? = some e ∧ ∃ others, ((d.run history).perform op).1 = .entered others) ∨
        Stands d history e ∧ ¬ op.Strikes e := by
  constructor
  · rintro ⟨before, f, later, others, hsplit, hf, hok, hlater⟩
    rcases List.eq_nil_or_concat later with rfl | ⟨later, g, rfl⟩
    · obtain ⟨rfl, hop⟩ := List.append_inj' hsplit rfl
      obtain rfl := List.singleton_inj.mp hop
      exact .inl ⟨hf, others, hok⟩
    · rw [List.concat_eq_append, ← List.cons_append, ← List.append_assoc] at hsplit
      obtain ⟨rfl, hop⟩ := List.append_inj' hsplit rfl
      obtain rfl := List.singleton_inj.mp hop
      rw [List.concat_eq_append] at hlater
      exact .inr ⟨⟨before, f, later, others, rfl, hf, hok, fun g hg =>
        hlater g (List.mem_append_left _ hg)⟩, hlater op (by simp)⟩
  · rintro (⟨hop, others, hok⟩ | ⟨⟨before, f, later, others, rfl, hf, hok, hlater⟩, hop⟩)
    · exact ⟨history, op, [], others, rfl, hop, hok, by simp⟩
    · refine ⟨before, f, later ++ [op], others, by simp, hf, hok, fun g hg => ?_⟩
      rcases List.mem_append.mp hg with hg | hg
      · exact hlater g hg
      · exact List.mem_singleton.mp hg ▸ hop

theorem mem_run_iff (capacity : Nat) (history : List Operation) :
    e ∈ (run (.empty capacity) history).entries ↔ Stands (.empty capacity) history e := by
  induction history using List.reverseRecOn with
  | nil => simp [run, Directory.empty, Stands]
  | append_singleton history op ih =>
    rw [run_concat, stands_concat, mem_perform (Regular.run capacity history).inOrder.namesUnique, ih]

/-- Every answer is that which the entries that stand call for, a name that is taken coming before a
directory that is full, and what is refused or finds nothing to do changes nothing. -/
theorem history_told (capacity : Nat) (history : List Operation) :
    let d := run (.empty capacity) history
    (∀ e, e ∈ d.entries ↔ Stands (.empty capacity) history e) ∧
    (d.entries.map (·.peer.name)).Nodup ∧ d.entries.length ≤ capacity ∧
    (∀ op e, op.enters? = some e →
      ((∃ f ∈ d.entries, f.peer.name = e.peer.name) →
        d.perform op = (.refused (.nameTaken e.peer.name), d)) ∧
      ((∀ f ∈ d.entries, f.peer.name ≠ e.peer.name) → capacity ≤ d.entries.length →
        d.perform op = (.refused (.full capacity), d)) ∧
      ((∀ f ∈ d.entries, f.peer.name ≠ e.peer.name) → d.entries.length < capacity →
        ∃ d', d.perform op = (.entered (d.entries.map (·.peer)), d') ∧
          ∀ f, f ∈ d'.entries ↔ f = e ∨ f ∈ d.entries)) ∧
    (∀ op, op.IsRemoval → ∃ gone d', d.perform op = (.whether gone, d') ∧
      (gone = true ↔ ∃ e ∈ d.entries, op.Strikes e) ∧
      (∀ e, e ∈ d'.entries ↔ e ∈ d.entries ∧ ¬ op.Strikes e) ∧ (gone = false → d' = d)) ∧
    (∀ except, ∃ listed, d.perform (.list except) = (.listed listed, d) ∧ Ascending listed ∧
      ∀ p, p ∈ listed ↔ (∃ e ∈ d.entries, e.peer = p) ∧ some p.name ≠ except) ∧
    (∀ name, ∃ there, d.perform (.contains name) = (.whether there, d) ∧
      (there = true ↔ ∃ e ∈ d.entries, e.peer.name = name)) ∧
    d.perform .size = (.counted d.entries.length, d) := by
  intro d
  obtain ⟨horder, hcapacity, hsize⟩ : Regular capacity d := .run capacity history
  refine ⟨fun e => mem_run_iff capacity history, horder.namesUnique, hsize, ?_, ?_, ?_, ?_, rfl⟩
  · intro op e hop
    rw [perform_of_enters? hop]
    refine ⟨enter_of_taken, fun hfree hfull => ?_, fun hfree hroom => ?_⟩
    · rw [enter_of_full hfree (hcapacity.symm ▸ hfull), hcapacity]
    · exact ⟨_, enter_of_room hfree (hcapacity.symm ▸ hroom), fun f => mem_place⟩
  · exact fun op hop => perform_of_isRemoval horder.namesUnique hop
  · exact fun except => ⟨_, rfl, horder.ascending_peers except, fun p => mem_peers⟩
  · exact fun name => ⟨_, rfl, contains_iff⟩

end PeerChat.Directory
