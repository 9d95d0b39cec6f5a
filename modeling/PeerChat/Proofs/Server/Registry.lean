import Mathlib.Data.List.Induction
import PeerChat.Proofs.Server.Roll

/-!
# The directory over whole runs

Whatever happens at the server, and in whatever order, the directory holds an entry exactly for each
connection that is open, has registered, and whose name nothing has struck off since
(`mem_entries_run_iff`).

`Exact` ties a state to a relation `standing` that says which registrations count.  What a step does
to the relation is read off its history (`Registers`, `Strikes`), and each operation of the server
keeps the two together: `Exact.frame`, `Exact.close`, `Exact.enter`, `Exact.erase`.
-/

namespace PeerChat.Server

/-- The entries owned by registered connections are those of the registrations that stand, and only
what has registered stands. -/
structure Exact (capacity : Nat) (s : Server)
    (standing : ConnectionId → String → UInt16 → Prop) : Prop where
  sound : Sound capacity s
  mem_iff : ∀ id a name port, (id, a, .registered name) ∈ s.roll →
    (⟨⟨name, a, port⟩, some id⟩ ∈ s.directory.entries ↔ standing id name port)
  past : ∀ id name port, standing id name port →
    id < s.nextId ∧ ∀ a, (id, a, .registering) ∉ s.roll

variable {capacity : Nat} {s t : Server} {standing : ConnectionId → String → UInt16 → Prop}

namespace Exact

/-- The relation matters only for connections that are registered. -/
theorem congr (h : Exact capacity s standing) {other : ConnectionId → String → UInt16 → Prop}
    (he : ∀ id a name port, (id, a, .registered name) ∈ s.roll →
      (standing id name port ↔ other id name port))
    (ho : ∀ id name port, other id name port →
      standing id name port ∨ ∃ a, (id, a, .registered name) ∈ s.roll) : Exact capacity s other := by
  refine ⟨h.sound, ?_, ?_⟩
  · intro id a name port hr
    exact (h.mem_iff id a name port hr).trans (he id a name port hr)
  · intro id name port hn
    rcases ho id name port hn with hold | ⟨a, hr⟩
    · exact h.past id name port hold
    · refine ⟨h.sound.ids_used id a _ hr, fun b hb => ?_⟩
      exact absurd (eq_of_mem_roll h.sound.ids_unique hr hb).2 (by simp)

theorem frame (h : Exact capacity s standing) (hf : Frame s t) : Exact capacity t standing := by
  refine ⟨h.sound.frame hf, ?_, ?_⟩
  · rw [hf.roll, hf.directory]
    exact h.mem_iff
  · rw [hf.roll, hf.nextId]
    exact h.past

theorem close (h : Exact capacity s standing) (id : ConnectionId) :
    Exact capacity (s.close id) standing := by
  refine ⟨h.sound.close id, ?_, ?_⟩
  · intro j a name port hr
    obtain ⟨hj, hr⟩ := (mem_roll_close (by simp)).mp hr
    rw [h.sound.directory_close id, List.mem_filter, h.mem_iff j a name port hr]
    simp [hj]
  · intro j name port hn
    obtain ⟨hlt, hno⟩ := h.past j name port hn
    rw [close_nextId]
    exact ⟨hlt, fun a hr => hno a ((mem_roll_close (by simp)).mp hr).2⟩

theorem reply (h : Exact capacity s standing) (id : ConnectionId) (m : ServerMessage) :
    Exact capacity (s.reply id m) standing := by
  unfold Server.reply
  split
  · exact h.frame (Frame.queue s id m)
  · exact h.close id

/-- The entry of a name is taken away, whoever owns it. -/
theorem erase (h : Exact capacity s standing) (name : String) :
    Exact capacity { s with directory := s.directory.erase name }
      fun id n port => standing id n port ∧ n ≠ name := by
  refine ⟨h.sound.filter _, ?_, fun id n port hn => h.past id n port hn.1⟩
  intro id a n port hr
  rw [Directory.mem_erase, h.mem_iff id a n port hr]

theorem accept (h : Exact capacity s standing) (address : IpAddress) :
    Exact capacity (s.accept address) standing := by
  have hroll : (s.accept address).roll = s.roll ++ [(s.nextId, address, .registering)] := by
    simp [roll, Server.accept]
  refine ⟨⟨?_, ?_, h.sound.names_unique, h.sound.capacity_eq, h.sound.size_le, ?_⟩, ?_, ?_⟩
  · rw [hroll, List.map_append, List.nodup_append]
    refine ⟨h.sound.ids_unique, by simp, ?_⟩
    intro i hi j hj
    obtain ⟨⟨_, a, p⟩, hm, rfl⟩ := List.mem_map.mp hi
    simp only [List.map_cons, List.map_nil, List.mem_singleton] at hj
    rw [hj]
    exact Nat.ne_of_lt (h.sound.ids_used _ a p hm)
  · intro id a p hr
    rw [hroll, List.mem_append, List.mem_singleton] at hr
    change id < s.nextId + 1
    rcases hr with hr | hr
    · exact Nat.lt_succ_of_lt (h.sound.ids_used id a p hr)
    · obtain ⟨rfl, -⟩ := Prod.mk.inj hr
      exact Nat.lt_succ_self _
  · intro e he
    obtain ⟨id, ho, hr⟩ := h.sound.owned e he
    exact ⟨id, ho, by rw [hroll]; exact List.mem_append_left _ hr⟩
  · intro id a name port hr
    rw [hroll, List.mem_append, List.mem_singleton] at hr
    rcases hr with hr | hr
    · exact h.mem_iff id a name port hr
    · simp at hr
  · intro id name port hn
    obtain ⟨hlt, hno⟩ := h.past id name port hn
    refine ⟨Nat.lt_succ_of_lt hlt, fun a hr => ?_⟩
    rw [hroll, List.mem_append, List.mem_singleton] at hr
    rcases hr with hr | hr
    · exact hno a hr
    · exact absurd (Prod.mk.inj hr).1 (Nat.ne_of_lt hlt)

/-- What is forgotten is closed. -/
theorem flush (h : Exact capacity s standing) : Exact capacity s.flush.2 standing := by
  have hroll : s.flush.2.roll = s.roll.filter fun r => r.2.2 ≠ .closed := by
    simp [roll, Server.flush, openConnections, List.filter_map, Function.comp_def]
  have hmem : ∀ {id a p}, (id, a, p) ∈ s.flush.2.roll → (id, a, p) ∈ s.roll := by
    intro id a p hr
    rw [hroll] at hr
    exact List.mem_of_mem_filter hr
  refine ⟨⟨?_, fun id a p hr => h.sound.ids_used id a p (hmem hr), h.sound.names_unique,
    h.sound.capacity_eq, h.sound.size_le, ?_⟩, fun id a name port hr => h.mem_iff id a name port (hmem hr), ?_⟩
  · rw [hroll]
    exact h.sound.ids_unique.sublist (List.Sublist.map _ List.filter_sublist)
  · intro e he
    obtain ⟨id, ho, hr⟩ := h.sound.owned e he
    exact ⟨id, ho, by rw [hroll]; exact List.mem_filter.mpr ⟨hr, by simp⟩⟩
  · intro id name port hn
    obtain ⟨hlt, hno⟩ := h.past id name port hn
    exact ⟨hlt, fun a hr => hno a (hmem hr)⟩

end Exact

/-! ## Registering -/

/-- A connection has a name, and the directory knows. -/
def entered (s : Server) (id : ConnectionId) (name : String) (directory : Directory) : Server :=
  ({ s with directory } : Server).update id fun c => { c with phase := .registered name }

theorem mem_roll_entered {id j : ConnectionId} {name : String} {directory : Directory}
    {a : IpAddress} {p : Phase} :
    (j, a, p) ∈ (s.entered id name directory).roll ↔
      j = id ∧ p = .registered name ∧ (∃ q, (j, a, q) ∈ s.roll) ∨ j ≠ id ∧ (j, a, p) ∈ s.roll := by
  have hroll : (s.entered id name directory).roll =
      s.roll.map fun r => if r.1 = id then (r.1, r.2.1, .registered name) else r := by
    simp only [roll, entered, update, List.map_map]
    apply List.map_congr_left
    intro c _
    by_cases h : c.id = id <;> simp [h]
  rw [hroll, List.mem_map]
  constructor
  · rintro ⟨⟨i, b, q⟩, hm, he⟩
    by_cases hi : i = id
    · rw [if_pos hi] at he
      obtain ⟨rfl, rfl, rfl⟩ := by simpa only [Prod.mk.injEq] using he
      exact .inl ⟨hi, rfl, q, hm⟩
    · rw [if_neg hi] at he
      obtain ⟨rfl, rfl, rfl⟩ := by simpa only [Prod.mk.injEq] using he
      exact .inr ⟨hi, hm⟩
  · rintro (⟨rfl, rfl, q, hm⟩ | ⟨hj, hm⟩)
    · exact ⟨_, hm, if_pos rfl⟩
    · exact ⟨_, hm, if_neg hj⟩

theorem Sound.enter (hs : Sound capacity s) {c : Connection} (hc : c ∈ s.connections)
    (hp : c.phase = .registering) {name : String} {port : UInt16} {directory : Directory}
    {others : List Peer}
    (hi : s.directory.insert ⟨name, c.address, port⟩ (some c.id) = .ok (directory, others)) :
    Sound capacity (s.entered c.id name directory) := by
  obtain ⟨-, hroom, hd, -⟩ := Directory.insert_eq_ok hi
  have hsize := Directory.size_insert hi
  have hcap := hs.capacity_eq
  refine ⟨?_, ?_, hs.names_unique.insert hi, hsize.2.trans hcap, ?_, ?_⟩
  · have : (s.entered c.id name directory).roll.map (·.1) = s.roll.map (·.1) := by
      rw [roll_fst, roll_fst, entered, update, List.map_map]
      apply List.map_congr_left
      intro d _
      by_cases h : d.id = c.id <;> simp [h]
    rw [this]
    exact hs.ids_unique
  · intro id a p hr
    rcases mem_roll_entered.mp hr with ⟨-, -, q, hm⟩ | ⟨-, hm⟩
    · exact hs.ids_used id a q hm
    · exact hs.ids_used id a p hm
  · change directory.size ≤ capacity
    omega
  · intro e he
    change e ∈ directory.entries at he
    rw [hd] at he
    rcases Directory.mem_place.mp he with rfl | he
    · exact ⟨c.id, rfl, mem_roll_entered.mpr (.inl ⟨rfl, rfl, _, mem_roll hc⟩)⟩
    · obtain ⟨id, ho, hr⟩ := hs.owned e he
      refine ⟨id, ho, mem_roll_entered.mpr (.inr ⟨?_, hr⟩)⟩
      rintro rfl
      have := (eq_of_mem_roll hs.ids_unique hr (mem_roll hc)).2
      rw [hp] at this
      exact absurd this (by simp)

/-- A connection that registers has owned nothing before. -/
theorem Exact.enter (h : Exact capacity s standing) {c : Connection} (hc : c ∈ s.connections)
    (hp : c.phase = .registering) {name : String} {port : UInt16} {directory : Directory}
    {others : List Peer}
    (hi : s.directory.insert ⟨name, c.address, port⟩ (some c.id) = .ok (directory, others)) :
    Exact capacity (s.entered c.id name directory) fun id n p =>
      id = c.id ∧ n = name ∧ p = port ∨ id ≠ c.id ∧ standing id n p := by
  obtain ⟨-, -, hd, -⟩ := Directory.insert_eq_ok hi
  refine ⟨h.sound.enter hc hp hi, ?_, ?_⟩
  · intro id a n p hr
    change _ ∈ directory.entries ↔ _
    rw [hd]
    change _ ∈ Directory.place _ _ ↔ _
    rw [Directory.mem_place]
    rcases mem_roll_entered.mp hr with ⟨rfl, hn, q, hm⟩ | ⟨hne, hm⟩
    · obtain rfl := (eq_of_mem_roll h.sound.ids_unique hm (mem_roll hc)).1
      obtain rfl := Phase.registered.inj hn
      have hold : (⟨⟨n, c.address, p⟩, some c.id⟩ : Entry) ∉ s.directory.entries := by
        intro he
        have := (h.sound.name_of_owner he rfl (mem_roll hc)).2
        rw [hp] at this
        exact absurd this (by simp)
      simp [hold]
    · rw [h.mem_iff id a n p hm]
      simp [hne]
  · intro id n p hn
    have hback : ∀ a, (id, a, .registering) ∈ (s.entered c.id name directory).roll →
        id ≠ c.id ∧ (id, a, .registering) ∈ s.roll := by
      intro a hr
      rcases mem_roll_entered.mp hr with ⟨-, hq, -⟩ | hm
      · exact absurd hq (by simp)
      · exact hm
    rcases hn with ⟨rfl, -, -⟩ | ⟨-, hold⟩
    · exact ⟨h.sound.ids_used _ _ _ (mem_roll hc), fun a hr => (hback a hr).1 rfl⟩
    · obtain ⟨hlt, hno⟩ := h.past id n p hold
      exact ⟨hlt, fun a hr => hno a (hback a hr).2⟩

/-- The registration of a connection, whether or not there is room for the reply. -/
theorem Exact.register (h : Exact capacity s standing) {c : Connection} (hc : c ∈ s.connections)
    (hp : c.phase = .registering) (name : String) (port : UInt16) :
    Exact capacity (s.register c name port) fun id n p =>
      (id = c.id ∧ n = name ∧ p = port ∧ ∃ a, (id, a, .registered n) ∈ (s.register c name port).roll) ∨
        standing id n p := by
  have hno : ∀ n p, ¬ standing c.id n p := by
    intro n p hn
    exact (h.past c.id n p hn).2 c.address (hp ▸ mem_roll hc)
  have hreply : ∀ m, s.register c name port = s.reply c.id m →
      Exact capacity (s.register c name port) fun id n p =>
        (id = c.id ∧ n = name ∧ p = port ∧
          ∃ a, (id, a, .registered n) ∈ (s.register c name port).roll) ∨ standing id n p := by
    intro m hm
    have hfree : ∀ a n, (c.id, a, .registered n) ∉ (s.reply c.id m).roll := by
      intro a n hr
      have hm : (c.id, a, .registered n) ∈ s.roll := by
        unfold Server.reply at hr
        split at hr
        · rwa [(Frame.queue s c.id m).roll] at hr
        · exact ((mem_roll_close (by simp)).mp hr).2
      have := (eq_of_mem_roll h.sound.ids_unique hm (mem_roll hc)).2
      rw [hp] at this
      exact absurd this (by simp)
    rw [hm]
    refine (h.reply c.id m).congr ?_ ?_
    · intro id a n p _
      refine ⟨.inr, ?_⟩
      rintro (⟨rfl, -, -, b, hb⟩ | hold)
      · exact absurd hb (hfree b n)
      · exact hold
    · rintro id n p (⟨rfl, -, -, b, hb⟩ | hold)
      · exact absurd hb (hfree b n)
      · exact .inl hold
  cases hi : s.directory.insert ⟨name, c.address, port⟩ (some c.id) with
  | error cause =>
    cases cause with
    | nameTaken _ => exact hreply .nameTaken (by simp only [Server.register, hi])
    | full _ => exact hreply .serverFull (by simp only [Server.register, hi])
  | ok result =>
    obtain ⟨directory, others⟩ := result
    have he := (h.enter hc hp hi).frame
      ((Frame.queue _ c.id (.peerList others)).trans (Frame.broadcast _ (.newcomer name) c.id))
    have hr : Exact capacity (s.register c name port) fun id n p =>
        id = c.id ∧ n = name ∧ p = port ∨ id ≠ c.id ∧ standing id n p := by
      simp only [Server.register, hi]
      split
      · exact he
      · exact he.close c.id
    refine hr.congr ?_ ?_
    · intro id a n p hm
      by_cases hid : id = c.id
      · subst hid
        simp only [true_and, ne_eq, not_true_eq_false, false_and, or_false, hno]
        exact ⟨fun ⟨hn, hq⟩ => ⟨hn, hq, a, hm⟩, fun ⟨hn, hq, _⟩ => ⟨hn, hq⟩⟩
      · simp [hid]
    · rintro id n p (⟨rfl, rfl, rfl, b, hb⟩ | hold)
      · exact .inl (.inl ⟨rfl, rfl, rfl⟩)
      · refine .inl (.inr ⟨?_, hold⟩)
        rintro rfl
        exact hno n p hold

/-! ## Steps -/

theorem heard?_eq_some {f : Step} {c : Connection} {command : Command}
    (h : s.heard? f = some (c, command)) :
    c ∈ s.connections ∧ c.phase ≠ .closed ∧ s.step f = s.obey c command := by
  unfold heard? at h
  split at h
  case h_2 => exact absurd h (by simp)
  rename_i id line
  cases hc : s.connection? id with
  | none => simp [hc] at h
  | some d =>
    simp only [hc] at h
    split at h
    · exact absurd h (by simp)
    · rename_i hd
      cases hp : Command.parse line with
      | error cause => simp [hp] at h
      | ok parsed =>
        simp only [hp, Option.some.injEq, Prod.mk.injEq] at h
        obtain ⟨rfl, rfl⟩ := h
        refine ⟨(connection?_mem hc).1, fun hp => hd (.inl hp), ?_⟩
        simp only [step, handle, handleLine, hc, if_neg hd, hp]

/-- Without a command nothing is entered or erased, except at the end of a connection. -/
theorem Exact.step_of_heard?_eq_none (h : Exact capacity s standing) {f : Step}
    (hf : s.heard? f = none) : Exact capacity (s.step f) standing := by
  cases f with
  | accepted address => exact h.accept address
  | failed id => exact h.close id
  | written id count => exact h.frame (Frame.update s id fun c => ⟨rfl, rfl, rfl⟩)
  | broken id => exact h.frame (Frame.abandon s id)
  | flushed => exact h.flush
  | read id item =>
    cases item with
    | tooLong => exact h.close id
    | ended => exact h.close id
    | text line =>
      simp only [step, handle, handleLine]
      cases hc : s.connection? id with
      | none => exact h
      | some c =>
        simp only []
        split
        · exact h
        · rename_i hd
          cases hp : Command.parse line with
          | error cause => exact h.reply id .invalidCommand
          | ok command => simp [heard?, hc, if_neg hd, hp] at hf

section Heard

variable {f : Step} {c : Connection} {command : Command} (hf : s.heard? f = some (c, command))

include hf

theorem registers_iff {id : ConnectionId} {name : String} {port : UInt16} :
    Registers s f id name port ↔ command = .register name port ∧ c.phase = .registering ∧
      id = c.id ∧ ∃ a, (id, a, .registered name) ∈ (s.step f).roll := by
  constructor
  · rintro ⟨d, hd, rfl, hp, e, he, hid, hq⟩
    obtain ⟨rfl, rfl⟩ := Prod.mk.inj (Option.some.inj (hf.symm.trans hd))
    exact ⟨rfl, hp, rfl, e.address, hid ▸ hq ▸ mem_roll he⟩
  · rintro ⟨rfl, hp, rfl, a, hm⟩
    obtain ⟨d, hd, hid, -, hq⟩ := exists_of_mem_roll hm
    exact ⟨c, hf, rfl, hp, d, hd, hid, hq⟩

theorem strikes_iff {name : String} :
    Strikes s f name ↔ (∃ own, c.phase = .registered own) ∧
      (command = .remove name ∨ command = .reportGone name) := by
  constructor
  · rintro ⟨d, own, hp, hd | hd⟩
    all_goals obtain ⟨rfl, rfl⟩ := Prod.mk.inj (Option.some.inj (hf.symm.trans hd))
    · exact ⟨⟨own, hp⟩, .inl rfl⟩
    · exact ⟨⟨own, hp⟩, .inr rfl⟩
  · rintro ⟨⟨own, hp⟩, rfl | rfl⟩
    · exact ⟨c, own, hp, .inl hf⟩
    · exact ⟨c, own, hp, .inr hf⟩

end Heard

/-- What stands after a step. -/
def StandingAfter (s : Server) (f : Step) (standing : ConnectionId → String → UInt16 → Prop)
    (id : ConnectionId) (name : String) (port : UInt16) : Prop :=
  Registers s f id name port ∨ standing id name port ∧ ¬ Strikes s f name

/-- A step that registers nobody. -/
theorem Exact.standingAfter {f : Step} (names : String → Prop)
    (h : Exact capacity (s.step f) fun id name port => standing id name port ∧ ¬ names name)
    (hr : ∀ id name port, ¬ Registers s f id name port) (hs : ∀ name, Strikes s f name ↔ names name) :
    Exact capacity (s.step f) (StandingAfter s f standing) := by
  have hiff : ∀ id name port, StandingAfter s f standing id name port ↔
      standing id name port ∧ ¬ names name := by
    intro id name port
    rw [StandingAfter, hs name]
    exact or_iff_right (hr id name port)
  exact h.congr (fun id _ name port _ => (hiff id name port).symm)
    fun id name port hn => .inl ((hiff id name port).mp hn)

/-- A step that registers nobody and strikes nobody off. -/
theorem Exact.standingAfter_of_quiet {f : Step} (h : Exact capacity (s.step f) standing)
    (hr : ∀ id name port, ¬ Registers s f id name port) (hs : ∀ name, ¬ Strikes s f name) :
    Exact capacity (s.step f) (StandingAfter s f standing) :=
  standingAfter (fun _ => False) (by simpa using h) hr fun name => iff_of_false (hs name) id

theorem Exact.step_of_register (h : Exact capacity s standing) {f : Step} {c : Connection}
    {name : String} {port : UInt16} (hf : s.heard? f = some (c, .register name port)) :
    Exact capacity (s.step f) (StandingAfter s f standing) := by
  obtain ⟨hc, hopen, hstep⟩ := heard?_eq_some hf
  have hs : ∀ n, ¬ Strikes s f n := by
    intro n hn
    exact absurd ((strikes_iff hf).mp hn).2 (by simp)
  cases hp : c.phase with
  | closed => exact absurd hp hopen
  | registered own =>
    have he : s.step f = s.reply c.id .invalidCommand := by
      rw [hstep]
      simp only [obey, hp]
    refine standingAfter_of_quiet (he ▸ h.reply c.id _) (fun id n p hn => ?_) hs
    have := ((registers_iff hf).mp hn).2.1
    rw [hp] at this
    exact absurd this (by simp)
  | registering =>
    have he : s.step f = s.register c name port := by
      rw [hstep]
      simp only [obey, hp]
    have hreg : ∀ id n p, Registers s f id n p ↔ id = c.id ∧ n = name ∧ p = port ∧
        ∃ a, (id, a, .registered n) ∈ (s.register c name port).roll := by
      intro id n p
      rw [registers_iff hf, he, Command.register.injEq]
      constructor
      · rintro ⟨⟨rfl, rfl⟩, -, hid, hm⟩
        exact ⟨hid, rfl, rfl, hm⟩
      · rintro ⟨hid, rfl, rfl, hm⟩
        exact ⟨⟨rfl, rfl⟩, hp, hid, hm⟩
    rw [he]
    refine (h.register hc hp name port).congr (fun id a n p _ => ?_) fun id n p hn => ?_
    · rw [StandingAfter, hreg id n p]
      simp [hs n]
    · rw [StandingAfter, hreg id n p] at hn
      exact .inl (hn.imp_right And.left)

/-- A name is struck off, whether or not the connection ends with it. -/
theorem Exact.step_of_strike (h : Exact capacity s standing) {f : Step} {c : Connection} {name : String}
    {command : Command} (hk : command = .remove name ∨ command = .reportGone name)
    (hf : s.heard? f = some (c, command)) :
    Exact capacity (s.step f) (StandingAfter s f standing) := by
  obtain ⟨hc, hopen, hstep⟩ := heard?_eq_some hf
  have hr : ∀ id n p, ¬ Registers s f id n p := by
    intro id n p hn
    have := ((registers_iff hf).mp hn).1
    rcases hk with rfl | rfl <;> exact absurd this (by simp)
  cases hp : c.phase with
  | closed => exact absurd hp hopen
  | registering =>
    have he : s.step f = s.reply c.id .invalidCommand := by
      rw [hstep]
      rcases hk with rfl | rfl <;> simp only [obey, hp]
    refine standingAfter_of_quiet (he ▸ h.reply c.id _) hr fun n hn => ?_
    obtain ⟨⟨own, ho⟩, -⟩ := (strikes_iff hf).mp hn
    rw [hp] at ho
    exact absurd ho (by simp)
  | registered own =>
    have he : Exact capacity (s.step f) fun id n p => standing id n p ∧ n ≠ name := by
      rw [hstep]
      rcases hk with rfl | rfl
      · simp only [obey, hp]
        exact (h.erase name).close c.id
      · simp only [obey, hp]
        exact h.erase name
    refine standingAfter (· = name) he hr fun n => ?_
    rw [strikes_iff hf]
    refine ⟨fun ⟨_, hn⟩ => ?_, fun hn => ⟨⟨own, hp⟩, hn ▸ hk⟩⟩
    rcases hk with rfl | rfl <;> simpa [eq_comm] using hn

/-- What a step does to the registrations that stand is read off its history. -/
theorem Exact.step (h : Exact capacity s standing) (f : Step) :
    Exact capacity (s.step f) (StandingAfter s f standing) := by
  cases hf : s.heard? f with
  | none =>
    refine standingAfter_of_quiet (h.step_of_heard?_eq_none hf) ?_ ?_
    · simp [Registers, hf]
    · simp [Strikes, hf]
  | some heard =>
    obtain ⟨c, command⟩ := heard
    cases command with
    | register name port => exact h.step_of_register hf
    | remove name => exact h.step_of_strike (.inl rfl) hf
    | reportGone name => exact h.step_of_strike (.inr rfl) hf
    | listPeers =>
      obtain ⟨hc, -, hstep⟩ := heard?_eq_some hf
      have he : ∃ m, s.step f = s.reply c.id m := by
        rw [hstep, obey.eq_def]
        split <;> simp_all
      obtain ⟨m, hm⟩ := he
      refine standingAfter_of_quiet (hm ▸ h.reply c.id m) (fun id n p hn => ?_) fun n hn => ?_
      · exact absurd ((registers_iff hf).mp hn).1 (by simp)
      · exact absurd ((strikes_iff hf).mp hn).2 (by simp)

theorem exact_run (capacity : Nat) (steps : List Step) :
    Exact capacity (run (.start (.empty capacity)) steps)
      (Standing (.start (.empty capacity)) steps) := by
  induction steps using List.reverseRecOn with
  | nil =>
    refine ⟨Sound.start capacity, fun id a name port hr => ?_, fun id name port hn => ?_⟩
    · exact absurd hr (by simp [run, Server.start, roll])
    · exact absurd hn not_standing_nil
  | append_singleton steps f ih =>
    rw [run_concat]
    refine (ih.step f).congr (fun id _ name port _ => standing_concat.symm) fun id name port hn => ?_
    exact .inl (standing_concat.mp hn)

/-- No entry outlives the connection that registered it, no connection owns two, the capacity is
kept, and the end of a connection takes away its own entry only, whoever has its name by then. -/
theorem mem_entries_run_iff (capacity : Nat) (steps : List Step) :
    let s := run (.start (.empty capacity)) steps
    (∀ e, e ∈ s.directory.entries ↔ ∃ c ∈ s.connections, ∃ name port,
      c.phase = .registered name ∧ Standing (.start (.empty capacity)) steps c.id name port ∧
        e = ⟨⟨name, c.address, port⟩, some c.id⟩) ∧
    (s.directory.entries.map (·.peer.name)).Nodup ∧ (s.directory.entries.map (·.owner)).Nodup ∧
    s.directory.size ≤ capacity ∧
    ∀ id f, f.Ends id → (s.step f).directory.entries =
      s.directory.entries.filter fun e => e.owner ≠ some id := by
  intro s
  obtain ⟨hs, hiff, -⟩ := exact_run capacity steps
  refine ⟨?_, hs.names_unique, ?_, hs.size_le, ?_⟩
  · intro e
    constructor
    · intro he
      obtain ⟨id, ho, hr⟩ := hs.owned e he
      obtain ⟨c, hc, hid, ha, hp⟩ := exists_of_mem_roll hr
      have heq : e = ⟨⟨e.peer.name, c.address, e.peer.port⟩, some c.id⟩ := by
        rw [ha, hid, ← ho]
      refine ⟨c, hc, _, _, hp, ?_, heq⟩
      rw [hid, ← hiff id _ _ _ hr, ← ho]
      exact he
    · rintro ⟨c, hc, name, port, hp, hst, rfl⟩
      exact (hiff c.id c.address name port (hp ▸ mem_roll hc)).mpr hst
  · -- Two entries of one connection would be under its one name.
    have hnodup : s.directory.entries.Nodup := hs.names_unique.of_map _
    refine hnodup.map_on ?_
    intro e he f hf heq
    obtain ⟨id, ho, hr⟩ := hs.owned e he
    have hn := (hs.name_of_owner hf (heq.symm.trans ho) hr).2
    exact Directory.eq_of_name_eq hs.names_unique he hf (Phase.registered.inj hn)
  · rintro id f (rfl | rfl | rfl)
    all_goals exact congrArg Directory.entries (hs.directory_close id)

/-- Alice is reported gone and registers again on a new connection before her old one ends. -/
theorem entries_run_after_late_end :
    Step.Ends 1 (.read 1 .ended) ∧
      ((run (.start (.empty 3)) [.accepted (.v4 10 0 0 1), .read 1 (.text "REGISTER alice 6001"),
        .accepted (.v4 10 0 0 2), .read 2 (.text "REGISTER bob 6002"),
        .read 2 (.text "PEER_DISCONNECTED alice"), .accepted (.v4 10 0 0 3),
        .read 3 (.text "REGISTER alice 6003")]).step (.read 1 .ended)).directory.entries =
        [⟨⟨"alice", .v4 10 0 0 3, 6003⟩, some 3⟩, ⟨⟨"bob", .v4 10 0 0 2, 6002⟩, some 2⟩] := by
  refine ⟨.inl rfl, ?_⟩
  rw [(mem_entries_run_iff 3 _).2.2.2.2 1 _ (.inl rfl)]
  decide +kernel

end PeerChat.Server
