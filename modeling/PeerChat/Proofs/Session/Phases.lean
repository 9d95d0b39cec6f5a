import Mathlib.Data.List.Induction
import PeerChat.Proofs.Session.Handshake
import PeerChat.Proofs.Session.Negotiation
import PeerChat.Proofs.Session.Talk

/-!
# The phases of a call

`Phase` follows two honest ends from the request to the end of the chat, whatever they type and however
their bytes are cut and their steps interleaved: at every moment the stage of each is known, and so is
all that is on the way to it (`phase_run`).  Once both ends chat, each keeps `Talks`.
-/

namespace PeerChat.Dialogue

variable {u : Setup} {d d' : Dialogue}

/-! ## The two ends -/

/-- All that an end has not consumed, arrived or not. -/
def toward (d : Dialogue) (r : Role) : Bytes := (d.side r).incoming ++ d.wire r

@[simp] theorem peer_ne (r : Role) : r.peer ≠ r := by cases r <;> decide

theorem eq_peer_of_ne {q r : Role} (h : q ≠ r) : q = r.peer := by
  cases q <;> cases r <;> first | rfl | exact absurd rfl h

@[simp] theorem peer_peer (r : Role) : r.peer.peer = r := by cases r <;> rfl

@[simp] theorem put_side (d : Dialogue) (r : Role) (next : Side × Bytes) :
    (d.put r next).side r = next.1 := if_pos rfl

@[simp] theorem put_side_peer (d : Dialogue) (r : Role) (next : Side × Bytes) :
    (d.put r next).side r.peer = d.side r.peer := if_neg (peer_ne r)

@[simp] theorem put_wire (d : Dialogue) (r : Role) (next : Side × Bytes) :
    (d.put r next).wire r = d.wire r := if_pos rfl

@[simp] theorem put_wire_peer (d : Dialogue) (r : Role) (next : Side × Bytes) :
    (d.put r next).wire r.peer = d.wire r.peer ++ next.2 := if_neg (peer_ne r)

theorem toward_put (d : Dialogue) (r : Role) (next : Side × Bytes) :
    (d.put r next).toward r = next.1.incoming ++ d.wire r := by
  rw [toward, put_side, put_wire]

theorem toward_put_peer (d : Dialogue) (r : Role) (next : Side × Bytes) :
    (d.put r next).toward r.peer = d.toward r.peer ++ next.2 := by
  rw [toward, put_side_peer, put_wire_peer, toward, List.append_assoc]

/-- An end that does nothing. -/
theorem put_self (d : Dialogue) (r : Role) : d.put r (d.side r, []) = d := by
  have hs : (d.put r (d.side r, [])).side = d.side := by
    funext q
    by_cases h : q = r
    · rw [h, put_side]
    · rw [eq_peer_of_ne h, put_side_peer]
  have hw : (d.put r (d.side r, [])).wire = d.wire := by
    funext q
    by_cases h : q = r
    · rw [h, put_wire]
    · rw [eq_peer_of_ne h, put_wire_peer, List.append_nil]
  cases d
  exact congrArg₂ Dialogue.mk hs hw

/-! ## The phases of a call -/

/-- An end that has neither taken nor shown anything. -/
def Side.Blank (s : Side) : Prop := s.typed = [] ∧ s.shown = []

/-- The key exchange does not come about. -/
def Setup.Fails (u : Setup) : Prop :=
  (∃ cause pool, u.kem.keyPair (u.pool .initiator) = (.error cause, pool)) ∨
    ∃ pair pool cause pool', u.kem.keyPair (u.pool .initiator) = (.ok pair, pool) ∧
      u.kem.encapsulate pair.publicKey (u.pool .responder) = (.error cause, pool')

/-- The secret that the responder wraps is the one that the initiator unwraps. -/
def Setup.Agrees (u : Setup) : Prop :=
  ∀ pair pool wrapped secret pool', u.kem.keyPair (u.pool .initiator) = (.ok pair, pool) →
    u.kem.encapsulate pair.publicKey (u.pool .responder) = (.ok (wrapped, secret), pool') →
    u.kem.decapsulate pair.secretKey wrapped = secret

inductive Phase (u : Setup) (d : Dialogue) : Prop
  | requested (stage_initiator : (d.side .initiator).stage = .asking)
      (stage_responder : (d.side .responder).stage = .listening)
      (toward_initiator : d.toward .initiator = [])
      (toward_responder : d.toward .responder = Negotiation.request u.caller)
      (pool_eq : ∀ q, (d.side q).pool = u.pool q) (blank : ∀ q, (d.side q).Blank)
  | accepted (stage_initiator : (d.side .initiator).stage = .asking)
      (stage_responder : (d.side .responder).stage = .responding u.caller)
      (toward_initiator : d.toward .initiator = Negotiation.answer true)
      (toward_responder : d.toward .responder = [])
      (pool_eq : ∀ q, (d.side q).pool = u.pool q) (blank : ∀ q, (d.side q).Blank)
  | offered {pair : KeyPair} {pool : Entropy}
      (keyPair_eq : u.kem.keyPair (u.pool .initiator) = (.ok pair, pool))
      (stage_initiator : (d.side .initiator).stage = .concluding pair.secretKey)
      (stage_responder : (d.side .responder).stage = .responding u.caller)
      (toward_initiator : d.toward .initiator = [])
      (toward_responder : d.toward .responder = Frame.write pair.publicKey.toList)
      (pool_eq : (d.side .responder).pool = u.pool .responder) (blank : ∀ q, (d.side q).Blank)
  | answered {key : SecretKey} {wrapped : WrappedSecret} {keys : SessionKeys} {chat : Chat}
      {all : List Bytes} (stage_initiator : (d.side .initiator).stage = .concluding key)
      (blank : (d.side .initiator).Blank)
      (secret_eq : u.kem.decapsulate key wrapped = keys.key)
      (toward_initiator : d.toward .initiator =
        Frame.write wrapped.toList ++ keys.iv.toList ++ Frame.writeAll all)
      (sealing : Sealing keys (.ofSender keys.iv .responder u.mode) (d.side .responder).sent all
        chat.outbound)
      (talks : Talks u .responder keys (d.side .responder) chat []
        (.ofSender keys.iv .initiator u.mode) False (d.toward .responder))
  | talking (keys : SessionKeys) (chat : Role → Chat)
      (talks : ∀ q, Talks u q keys (d.side q) (chat q) (d.side q.peer).sent (chat q.peer).outbound
        ((d.side q.peer).isOver = true) (d.toward q))
  | broken (fails : u.Fails) {q : Role} (stage_failed : (d.side q).stage = .failed)
      (stage_peer : (d.side q.peer).stage = .failed ∨ d.toward q.peer = [] ∧
        ((∃ key, (d.side q.peer).stage = .concluding key) ∨
          ∃ caller, (d.side q.peer).stage = .responding caller))
      (blank : ∀ q, (d.side q).Blank)

theorem not_chatting_of_broken {q : Role} (hq : (d.side q).stage = .failed)
    (hp : (d.side q.peer).stage = .failed ∨ d.toward q.peer = [] ∧
      ((∃ key, (d.side q.peer).stage = .concluding key) ∨
        ∃ caller, (d.side q.peer).stage = .responding caller)) (r : Role) (chat : Chat) :
    (d.side r).stage ≠ .chatting chat := by
  intro hc
  by_cases hr : r = q
  · rw [hr, hq] at hc
    exact absurd hc (by simp)
  · rw [eq_peer_of_ne hr] at hc
    rcases hp with hp | ⟨-, ⟨key, hp⟩ | ⟨caller, hp⟩⟩
    · rw [hp] at hc
      exact absurd hc (by simp)
    · rw [hp] at hc
      exact absurd hc (by simp)
    · rw [hp] at hc
      exact absurd hc (by simp)

/-- How much of what is on the way has arrived, and whether its end has, does not matter. -/
structure SameEnds (d d' : Dialogue) : Prop where
  stage : ∀ q, (d'.side q).stage = (d.side q).stage
  pool : ∀ q, (d'.side q).pool = (d.side q).pool
  typed : ∀ q, (d'.side q).typed = (d.side q).typed
  shown : ∀ q, (d'.side q).shown = (d.side q).shown
  toward : ∀ q, d'.toward q = d.toward q

theorem Phase.congr (h : Phase u d) (e : SameEnds d d') : Phase u d' := by
  have hblank : ∀ q, (d.side q).Blank → (d'.side q).Blank := fun q hb =>
    ⟨(e.typed q).trans hb.1, (e.shown q).trans hb.2⟩
  have hsent : ∀ q, (d'.side q).sent = (d.side q).sent := fun q => sent_congr (e.stage q) (e.typed q)
  have hover : ∀ q, (d'.side q).isOver = (d.side q).isOver := by
    intro q
    rw [Side.isOver, Side.isOver, e.stage]
  cases h with
  | requested h₁ h₂ h₃ h₄ h₅ h₆ =>
    exact .requested (e.stage _ ▸ h₁) (e.stage _ ▸ h₂) (e.toward _ ▸ h₃) (e.toward _ ▸ h₄)
      (fun q => (e.pool q).trans (h₅ q)) fun q => hblank q (h₆ q)
  | accepted h₁ h₂ h₃ h₄ h₅ h₆ =>
    exact .accepted (e.stage _ ▸ h₁) (e.stage _ ▸ h₂) (e.toward _ ▸ h₃) (e.toward _ ▸ h₄)
      (fun q => (e.pool q).trans (h₅ q)) fun q => hblank q (h₆ q)
  | offered h₀ h₁ h₂ h₃ h₄ h₅ h₆ =>
    exact .offered h₀ (e.stage _ ▸ h₁) (e.stage _ ▸ h₂) (e.toward _ ▸ h₃) (e.toward _ ▸ h₄)
      ((e.pool _).trans h₅) fun q => hblank q (h₆ q)
  | @answered key wrapped keys chat all h₁ h₂ h₃ h₄ h₅ h₆ =>
    have htalks := h₆.congr (e.stage _) (e.typed _) (e.shown _)
    rw [← e.toward] at htalks
    exact .answered (e.stage _ ▸ h₁) (hblank _ h₂) h₃ (e.toward _ ▸ h₄) (hsent _ ▸ h₅) htalks
  | talking keys chat h =>
    refine .talking keys chat fun q => ?_
    rw [e.toward, hsent, hover]
    exact (h q).congr (e.stage q) (e.typed q) (e.shown q)
  | broken hf hq hp hb =>
    refine .broken hf (e.stage _ ▸ hq) ?_ fun q => hblank q (hb q)
    rw [e.stage, e.toward]
    exact hp

/-! ## Ends that are over -/

theorem advance_of_over {s : Side} (h : s.isOver = true) :
    (s.advance u).2 = [] ∧ (s.advance u).1.isOver = true := by
  unfold Side.isOver at h
  split at h
  · rename_i chat hs
    have hrec : chat.receive s.ended s.incoming = (chat, []) := by rw [Chat.receive, if_pos h]
    rw [advance_of_chatting hs, hrec]
    exact ⟨rfl, h⟩
  · rename_i hs
    rw [Side.advance, hs]
    exact ⟨rfl, by rw [Side.isOver, hs]⟩
  · exact absurd h (by simp)

theorem typeLine_of_isOver {s : Side} (h : s.isOver = true) (writable : Bool) (line : String) :
    s.typeLine writable line = (s, []) := by
  unfold Side.isOver at h
  split at h
  · rename_i chat hs
    exact typeLine_of_over hs (Option.isSome_iff_ne_none.mp h) writable line
  · rename_i hs
    rw [Side.typeLine, hs]
  · exact absurd h (by simp)

theorem endInput_of_isOver {s : Side} (h : s.isOver = true) : s.endInput = s := by
  unfold Side.isOver at h
  split at h
  · rename_i chat hs
    rw [Side.endInput, hs]
    simp only [Chat.endInput, if_pos h]
    cases s
    cases hs
    rfl
  · rename_i hs
    rw [Side.endInput, hs]
  · exact absurd h (by simp)

theorem ended_advance (s : Side) : (s.advance u).1.ended = s.ended := by
  unfold Side.advance
  split
  · split
    · rfl
    · split <;> rfl
    · rfl
  · split <;> rfl
  · split <;> rfl
  · split <;> rfl
  · rfl
  · rfl

theorem ended_typeLine (s : Side) (writable : Bool) (line : String) :
    (s.typeLine writable line).1.ended = s.ended := by
  unfold Side.typeLine
  split
  · split <;> rfl
  · rfl

theorem ended_endInput (s : Side) : s.endInput.ended = s.ended := by
  unfold Side.endInput
  split <;> rfl

/-- The end of a stream arrives last, and nothing is written behind it. -/
def EndsLast (d : Dialogue) : Prop :=
  ∀ q, (d.side q).ended = true → d.wire q = [] ∧ (d.side q.peer).isOver = true

theorem EndsLast.put (h : EndsLast d) {r : Role} {next : Side × Bytes}
    (he : next.1.ended = (d.side r).ended)
    (ho : (d.side r).isOver = true → next.2 = [] ∧ next.1.isOver = true) :
    EndsLast (d.put r next) := by
  intro q hq
  by_cases hqr : q = r
  · subst hqr
    rw [put_side, he] at hq
    rw [put_wire, put_side_peer]
    exact h q hq
  · obtain rfl := eq_peer_of_ne hqr
    rw [put_side_peer] at hq
    obtain ⟨hw, hp⟩ := h _ hq
    rw [peer_peer] at hp
    obtain ⟨hnext, hover⟩ := ho hp
    rw [put_wire_peer, peer_peer, put_side, hw, hnext]
    exact ⟨rfl, hover⟩

theorem EndsLast.step (h : EndsLast d) (f : Step) : EndsLast (step u d f) := by
  cases f with
  | arrived r count =>
    intro q hq
    by_cases hqr : q = r
    · subst hqr
      have hq' : (d.side q).ended = true := by simpa [Dialogue.step] using hq
      obtain ⟨hw, hp⟩ := h q hq'
      have hwire : (Dialogue.step u d (.arrived q count)).wire q = (d.wire q).drop count := if_pos rfl
      have hside : (Dialogue.step u d (.arrived q count)).side q.peer = d.side q.peer :=
        put_side_peer d q _
      rw [hwire, hw, hside]
      exact ⟨List.drop_nil, hp⟩
    · obtain rfl := eq_peer_of_ne hqr
      have hside : (Dialogue.step u d (.arrived r count)).side r.peer = d.side r.peer :=
        put_side_peer d r _
      have hwire : (Dialogue.step u d (.arrived r count)).wire r.peer = d.wire r.peer := if_neg hqr
      rw [hside] at hq
      obtain ⟨hw, hp⟩ := h _ hq
      rw [peer_peer] at hp
      rw [hwire, peer_peer]
      refine ⟨hw, ?_⟩
      have : (Dialogue.step u d (.arrived r count)).side r =
          { d.side r with incoming := (d.side r).incoming ++ (d.wire r).take count } :=
        put_side d r _
      rw [this]
      exact hp
  | ended r =>
    rw [Dialogue.step]
    by_cases hc : ((d.wire r).isEmpty && (d.side r.peer).isOver) = true
    · rw [if_pos hc]
      obtain ⟨hw, hp⟩ := Bool.and_eq_true_iff.mp hc
      intro q hq
      by_cases hqr : q = r
      · subst hqr
        rw [put_wire, put_side_peer]
        exact ⟨List.isEmpty_iff.mp hw, hp⟩
      · obtain rfl := eq_peer_of_ne hqr
        rw [put_side_peer] at hq
        rw [put_wire_peer, List.append_nil, peer_peer, put_side]
        have := h _ hq
        rw [peer_peer] at this
        exact this
    · rw [if_neg hc]
      exact h
  | advanced r => exact h.put (ended_advance _) advance_of_over
  | typed r line writable =>
    refine h.put (ended_typeLine _ writable line) fun ho => ?_
    rw [typeLine_of_isOver ho]
    exact ⟨rfl, ho⟩
  | inputEnded r =>
    refine h.put (ended_endInput _) fun ho => ?_
    rw [endInput_of_isOver ho]
    exact ⟨rfl, ho⟩

/-! ## Arriving -/

theorem sameEnds_arrived (d : Dialogue) (r : Role) (count : Nat) :
    SameEnds d (step u d (.arrived r count)) := by
  have hside : (step u d (.arrived r count)).side r =
      { d.side r with incoming := (d.side r).incoming ++ (d.wire r).take count } := put_side d r _
  have hpeer : (step u d (.arrived r count)).side r.peer = d.side r.peer := put_side_peer d r _
  have hwire : (step u d (.arrived r count)).wire r = (d.wire r).drop count := if_pos rfl
  have hwire' : (step u d (.arrived r count)).wire r.peer = d.wire r.peer := if_neg (peer_ne r)
  have hall : ∀ q, q = r ∨ q = r.peer := fun q => (em (q = r)).imp_right eq_peer_of_ne
  refine ⟨fun q => ?_, fun q => ?_, fun q => ?_, fun q => ?_, fun q => ?_⟩
  all_goals rcases hall q with rfl | rfl
  · rw [hside]
  · rw [hpeer]
  · rw [hside]
  · rw [hpeer]
  · rw [hside]
  · rw [hpeer]
  · rw [hside]
  · rw [hpeer]
  · rw [toward, hside, hwire, toward, List.append_assoc, List.take_append_drop]
  · rw [toward, hpeer, hwire', toward]

theorem sameEnds_ended (d : Dialogue) (r : Role) : SameEnds d (step u d (.ended r)) := by
  rw [step]
  split
  · have hside := put_side d r ({ d.side r with ended := true }, [])
    have hpeer := put_side_peer d r ({ d.side r with ended := true }, [])
    have hall : ∀ q, q = r ∨ q = r.peer := fun q => (em (q = r)).imp_right eq_peer_of_ne
    refine ⟨fun q => ?_, fun q => ?_, fun q => ?_, fun q => ?_, fun q => ?_⟩
    all_goals rcases hall q with rfl | rfl
    · rw [hside]
    · rw [hpeer]
    · rw [hside]
    · rw [hpeer]
    · rw [hside]
    · rw [hpeer]
    · rw [hside]
    · rw [hpeer]
    · rw [toward_put, toward]
    · rw [toward_put_peer, List.append_nil]
  · exact ⟨fun _ => rfl, fun _ => rfl, fun _ => rfl, fun _ => rfl, fun _ => rfl⟩

/-! ## Typing -/

/-- What an end may do on its user's behalf: something while its chat goes on, else nothing. -/
structure Spoken (u : Setup) (r : Role) (s : Side) (next : Side × Bytes) : Prop where
  idle : (∀ chat, s.stage ≠ .chatting chat) ∨ s.isOver = true → next = (s, [])
  incoming : next.1.incoming = s.incoming
  talks : ∀ {keys chat sent last gone bytes}, Talks u r keys s chat sent last gone bytes →
    ∃ chat', Talks u r keys next.1 chat' sent last gone bytes ∧
      Emits keys s.sent chat.outbound next.1.sent chat'.outbound next.2

theorem spoken_typeLine (r : Role) (s : Side) (writable : Bool) (line : String) :
    Spoken u r s (s.typeLine writable line) := by
  refine ⟨?_, ?_, fun h => ?_⟩
  · rintro (hs | ho)
    · rw [Side.typeLine]
      split
      · rename_i chat hc
        exact absurd hc (hs chat)
      · rfl
    · exact typeLine_of_isOver ho writable line
  · rw [Side.typeLine]
    split
    · split <;> rfl
    · rfl
  · obtain ⟨chat', ht, he, -⟩ := h.typeLine writable line
    exact ⟨chat', ht, he⟩

theorem spoken_endInput (r : Role) (s : Side) : Spoken u r s (s.endInput, []) := by
  refine ⟨?_, ?_, fun h => ?_⟩
  · rintro (hs | ho)
    · rw [Side.endInput]
      split
      · rename_i chat hc
        exact absurd hc (hs chat)
      · rfl
    · rw [endInput_of_isOver ho]
  · rw [Side.endInput]
    split <;> rfl
  · obtain ⟨ht, hsent, hout, -⟩ := h.endInput
    refine ⟨_, ht, ?_⟩
    rw [hsent, hout]
    exact .nothing

/-- Both ends chat, and one of them moves. -/
theorem talks_put {keys : SessionKeys} {chat : Role → Chat}
    (h : ∀ q, Talks u q keys (d.side q) (chat q) (d.side q.peer).sent (chat q.peer).outbound
      ((d.side q.peer).isOver = true) (d.toward q)) {r : Role} {next : Side × Bytes} {chat' : Chat}
    {bytes : Bytes}
    (htalks : Talks u r keys next.1 chat' (d.side r.peer).sent (chat r.peer).outbound
      ((d.side r.peer).isOver = true) bytes)
    (hemits : Emits keys (d.side r).sent (chat r).outbound next.1.sent chat'.outbound next.2)
    (hbytes : next.1.incoming ++ d.wire r = bytes)
    (hover : (d.side r).isOver = true → next.1.isOver = true ∧ next.1.sent = (d.side r).sent) (q : Role) :
    Talks u q keys ((d.put r next).side q) (Function.update chat r chat' q)
      ((d.put r next).side q.peer).sent (Function.update chat r chat' q.peer).outbound
      (((d.put r next).side q.peer).isOver = true) ((d.put r next).toward q) := by
  by_cases hq : q = r
  · subst hq
    rw [put_side, put_side_peer, Function.update_self, Function.update_of_ne (peer_ne q), toward_put,
      hbytes]
    exact htalks
  · obtain rfl := eq_peer_of_ne hq
    have hp := h r.peer
    rw [peer_peer] at hp
    rw [put_side_peer, peer_peer, put_side, Function.update_self, Function.update_of_ne (peer_ne r),
      toward_put_peer]
    exact hp.hear hemits (fun ho => (hover ho).1) fun ho => (hover ho).2

theorem Phase.spoken (h : Phase u d) {r : Role} {next : Side × Bytes}
    (hn : Spoken u r (d.side r) next) : Phase u (d.put r next) := by
  -- An end that does not chat yet says nothing.
  have hidle : (∀ chat, (d.side r).stage ≠ .chatting chat) → Phase u (d.put r next) := by
    intro hs
    rw [hn.idle (.inl hs), put_self]
    exact h
  cases h with
  | requested h₁ h₂ => exact hidle (by cases r <;> simp [h₁, h₂])
  | accepted h₁ h₂ => exact hidle (by cases r <;> simp [h₁, h₂])
  | offered _ h₁ h₂ => exact hidle (by cases r <;> simp [h₁, h₂])
  | @answered key wrapped keys chat all h₁ hb hk ht hseal htalks =>
    cases r with
    | initiator => exact hidle (by simp [h₁])
    | responder =>
      obtain ⟨chat', htalks', hemits⟩ := hn.talks htalks
      obtain ⟨all', hseal', hall⟩ := hemits.sealing hseal
      have hput : (d.put .responder next).side .responder = next.1 := put_side d .responder next
      have htoward : (d.put .responder next).toward .initiator =
          Frame.write wrapped.toList ++ keys.iv.toList ++ Frame.writeAll all' := by
        rw [show Role.initiator = Role.responder.peer from rfl, toward_put_peer, Role.peer, ht, hall,
          ← List.append_assoc]
      have hsame : (d.put .responder next).toward .responder = d.toward .responder := by
        rw [toward_put, hn.incoming, toward]
      rw [← hput] at hseal' htalks'
      rw [← hsame] at htalks'
      exact .answered h₁ hb hk htoward hseal' htalks'
  | talking keys chat h =>
    obtain ⟨chat', htalks, hemits⟩ := hn.talks (h r)
    refine .talking keys _ (talks_put h htalks hemits (by rw [hn.incoming, toward]) fun ho => ?_)
    rw [hn.idle (.inr ho)]
    exact ⟨ho, rfl⟩
  | @broken fails q hq hp hb =>
    exact hidle (not_chatting_of_broken hq hp r)

/-! ## Going on with what has arrived -/

section Advance

variable {s : Side} {rest : Bytes}

theorem advance_asking_waiting (hs : s.stage = .asking) (he : s.ended = false) (hr : rest ≠ [])
    (hd : s.incoming ++ rest = Negotiation.answer true) : s.advance u = (s, []) := by
  rw [Side.advance, hs]
  simp only [he, Negotiation.readVerdict_waiting hr hd]

theorem advance_listening_waiting (hs : s.stage = .listening) (he : s.ended = false)
    (hn : isName u.caller = true) (hr : rest ≠ [])
    (hd : s.incoming ++ rest = Negotiation.request u.caller) : s.advance u = (s, []) := by
  rw [Side.advance, hs]
  simp only [he, Negotiation.readRequest_waiting hn hr hd]

theorem advance_responding_waiting {caller : String} (hs : s.stage = .responding caller)
    (he : s.ended = false) {key : PublicKey} (hr : rest ≠ [])
    (hd : s.incoming ++ rest = Frame.write key.toList) : s.advance u = (s, []) := by
  rw [Side.advance, hs]
  simp only [he, Handshake.respond_waiting hr hd]

theorem advance_concluding_waiting {key : SecretKey} (hs : s.stage = .concluding key)
    (he : s.ended = false) (wrapped : WrappedSecret) (iv : Aead.Nonce) (hr : rest ≠ [])
    (hd : s.incoming ++ rest = Frame.write wrapped.toList ++ iv.toList) : s.advance u = (s, []) := by
  rw [Side.advance, hs]
  simp only [he, Handshake.conclude_waiting wrapped iv hr hd]

theorem advance_listening_done (hs : s.stage = .listening) (he : s.ended = false)
    (hn : isName u.caller = true) (hi : s.incoming = Negotiation.request u.caller) :
    s.advance u = ({ s with stage := .responding u.caller, incoming := [] }, Negotiation.answer true) := by
  have hread : Negotiation.readRequest false (Negotiation.request u.caller ++ []) =
      .done (u.caller, []) := Negotiation.readRequest_request hn []
  rw [List.append_nil] at hread
  rw [Side.advance, hs]
  simp only [he, hi, hread]

theorem advance_asking_done (hs : s.stage = .asking) (he : s.ended = false)
    (hi : s.incoming = Negotiation.answer true) {pair : KeyPair} {pool : Entropy}
    (hk : u.kem.keyPair s.pool = (.ok pair, pool)) :
    s.advance u = ({ s with stage := .concluding pair.secretKey, incoming := [], pool },
      Frame.write pair.publicKey.toList) := by
  have hread : Negotiation.readVerdict false (Negotiation.answer true ++ []) = .done (.accepted []) :=
    Negotiation.readVerdict_accept []
  rw [List.append_nil] at hread
  rw [Side.advance, hs]
  simp only [he, hi, hread, Handshake.offer, hk]

theorem advance_asking_failed (hs : s.stage = .asking) (he : s.ended = false)
    (hi : s.incoming = Negotiation.answer true) {cause : KemError} {pool : Entropy}
    (hk : u.kem.keyPair s.pool = (.error cause, pool)) :
    s.advance u = ({ s with pool, stage := .failed }, []) := by
  have hread : Negotiation.readVerdict false (Negotiation.answer true ++ []) = .done (.accepted []) :=
    Negotiation.readVerdict_accept []
  rw [List.append_nil] at hread
  rw [Side.advance, hs]
  simp only [he, hi, hread, Handshake.offer, hk]
  rfl

theorem advance_responding_done {caller : String} (hs : s.stage = .responding caller)
    (he : s.ended = false) {key : PublicKey} (hi : s.incoming = Frame.write key.toList)
    {wrapped : WrappedSecret} {secret : SharedSecret} {later : Entropy}
    (hc : u.kem.encapsulate key s.pool = (.ok (wrapped, secret), later)) :
    s.advance u = ({ s with
      stage := .chatting (.start caller .responder u.mode ⟨secret, (Handshake.drawIv later).1⟩ [])
      incoming := [], pool := (Handshake.drawIv later).2 },
      Frame.write wrapped.toList ++ (Handshake.drawIv later).1.toList) := by
  have hread : Handshake.respond u.kem s.pool false (Frame.write key.toList ++ []) = _ :=
    Handshake.respond_ok hc []
  rw [List.append_nil] at hread
  rw [Side.advance, hs]
  simp only [he, hi, hread]

theorem advance_responding_failed {caller : String} (hs : s.stage = .responding caller)
    (he : s.ended = false) {key : PublicKey} (hi : s.incoming = Frame.write key.toList)
    {cause : KemError} {later : Entropy}
    (hc : u.kem.encapsulate key s.pool = (.error cause, later)) :
    s.advance u = ({ s with pool := later, stage := .failed }, []) := by
  have hread : Handshake.respond u.kem s.pool false (Frame.write key.toList ++ []) = _ :=
    Handshake.respond_error hc []
  rw [List.append_nil] at hread
  rw [Side.advance, hs]
  simp only [he, hi, hread]
  rfl

theorem advance_concluding_done {key : SecretKey} (hs : s.stage = .concluding key)
    (wrapped : WrappedSecret) (iv : Aead.Nonce)
    (hi : s.incoming = Frame.write wrapped.toList ++ iv.toList ++ rest) :
    s.advance u = ({ s with
      stage := .chatting (.start u.callee .initiator u.mode ⟨u.kem.decapsulate key wrapped, iv⟩ [])
      incoming := rest }, []) := by
  rw [Side.advance, hs]
  simp only [hi, Handshake.conclude_done]

/-- An end to which nothing has come during the key exchange waits, or gives up at the end of the
stream. -/
theorem advance_of_nothing (hi : s.incoming = [])
    (hs : (∃ key, s.stage = .concluding key) ∨ ∃ caller, s.stage = .responding caller) :
    s.advance u = if s.ended then (s.fail, []) else (s, []) := by
  obtain ⟨stage, incoming, ended, pool, typed, shown⟩ := s
  obtain rfl : incoming = [] := hi
  rcases hs with ⟨key, hs⟩ | ⟨caller, hs⟩
  · obtain rfl : stage = .concluding key := hs
    cases ended with
    | false => rfl
    | true => rfl
  · obtain rfl : stage = .responding caller := hs
    cases ended with
    | false => rfl
    | true => rfl

end Advance

theorem EndsLast.ended_eq_false (h : EndsLast d) {r : Role} (hp : ¬ (d.side r.peer).isOver = true) :
    (d.side r).ended = false := by
  cases he : (d.side r).ended with
  | false => rfl
  | true => exact absurd (h r he).2 hp

theorem blank_put {r : Role} {next : Side × Bytes} (hb : ∀ q, (d.side q).Blank) (hn : next.1.Blank)
    (q : Role) : ((d.put r next).side q).Blank := by
  by_cases hq : q = r
  · rw [hq, put_side]
    exact hn
  · rw [eq_peer_of_ne hq, put_side_peer]
    exact hb _

theorem side_put_initiator (next : Side × Bytes) :
    (d.put .initiator next).side .responder = d.side .responder := put_side_peer d .initiator next

theorem side_put_responder (next : Side × Bytes) :
    (d.put .responder next).side .initiator = d.side .initiator := put_side_peer d .responder next

theorem toward_put_initiator (next : Side × Bytes) :
    (d.put .initiator next).toward .responder = d.toward .responder ++ next.2 :=
  toward_put_peer d .initiator next

theorem toward_put_responder (next : Side × Bytes) :
    (d.put .responder next).toward .initiator = d.toward .initiator ++ next.2 :=
  toward_put_peer d .responder next

/-- The callee awaits the request. -/
theorem Phase.advance_listening (he : EndsLast d) (hn : isName u.caller = true)
    (hi : (d.side .initiator).stage = .asking) (hr : (d.side .responder).stage = .listening)
    (ti : d.toward .initiator = []) (tr : d.toward .responder = Negotiation.request u.caller)
    (hp : ∀ q, (d.side q).pool = u.pool q) (hb : ∀ q, (d.side q).Blank) :
    Phase u (d.put .responder ((d.side .responder).advance u)) := by
  have hended : (d.side .responder).ended = false :=
    he.ended_eq_false (by rw [Role.peer, Side.isOver, hi]; simp)
  by_cases hw : d.wire .responder = []
  · have hincoming : (d.side .responder).incoming = Negotiation.request u.caller := by
      rw [← tr, toward, hw, List.append_nil]
    rw [advance_listening_done hr hended hn hincoming]
    refine .accepted ?_ (by rw [put_side]) ?_ ?_ ?_ (blank_put hb (hb .responder))
    · rw [side_put_responder]
      exact hi
    · rw [toward_put_responder, ti, List.nil_append]
    · rw [toward_put, hw, List.append_nil]
    · intro q
      cases q with
      | initiator =>
        rw [side_put_responder]
        exact hp .initiator
      | responder =>
        rw [put_side]
        exact hp .responder
  · rw [advance_listening_waiting hr hended hn hw tr, put_self]
    exact .requested hi hr ti tr hp hb

/-- The caller is told that its request is accepted. -/
theorem Phase.advance_asking (he : EndsLast d) (hi : (d.side .initiator).stage = .asking)
    (hr : (d.side .responder).stage = .responding u.caller)
    (ti : d.toward .initiator = Negotiation.answer true) (tr : d.toward .responder = [])
    (hp : ∀ q, (d.side q).pool = u.pool q) (hb : ∀ q, (d.side q).Blank) :
    Phase u (d.put .initiator ((d.side .initiator).advance u)) := by
  have hended : (d.side .initiator).ended = false :=
    he.ended_eq_false (by rw [Role.peer, Side.isOver, hr]; simp)
  by_cases hw : d.wire .initiator = []
  · have hincoming : (d.side .initiator).incoming = Negotiation.answer true := by
      rw [← ti, toward, hw, List.append_nil]
    cases hk : u.kem.keyPair (u.pool .initiator) with
    | mk outcome pool =>
      cases outcome with
      | error cause =>
        rw [advance_asking_failed hi hended hincoming ((congrArg _ (hp .initiator)).trans hk)]
        refine .broken (q := .initiator) (.inl ⟨cause, pool, hk⟩) (by rw [put_side]) (.inr ⟨?_, ?_⟩)
          (blank_put hb (hb .initiator))
        · rw [Role.peer, toward_put_initiator, tr]
          rfl
        · rw [Role.peer, side_put_initiator]
          exact .inr ⟨_, hr⟩
      | ok pair =>
        rw [advance_asking_done hi hended hincoming ((congrArg _ (hp .initiator)).trans hk)]
        refine .offered hk (by rw [put_side]) ?_ ?_ ?_ ?_ (blank_put hb (hb .initiator))
        · rw [side_put_initiator]
          exact hr
        · rw [toward_put, hw, List.append_nil]
        · rw [toward_put_initiator, tr, List.nil_append]
        · rw [side_put_initiator]
          exact hp .responder
  · rw [advance_asking_waiting hi hended hw ti, put_self]
    exact .accepted hi hr ti tr hp hb

/-- The key of the caller reaches the callee. -/
theorem Phase.advance_responding (hagrees : u.Agrees) (he : EndsLast d) {pair : KeyPair}
    {pool : Entropy} (hk : u.kem.keyPair (u.pool .initiator) = (.ok pair, pool))
    (hi : (d.side .initiator).stage = .concluding pair.secretKey)
    (hr : (d.side .responder).stage = .responding u.caller) (ti : d.toward .initiator = [])
    (tr : d.toward .responder = Frame.write pair.publicKey.toList)
    (hp : (d.side .responder).pool = u.pool .responder) (hb : ∀ q, (d.side q).Blank) :
    Phase u (d.put .responder ((d.side .responder).advance u)) := by
  have hended : (d.side .responder).ended = false :=
    he.ended_eq_false (by rw [Role.peer, Side.isOver, hi]; simp)
  by_cases hw : d.wire .responder = []
  · have hincoming : (d.side .responder).incoming = Frame.write pair.publicKey.toList := by
      rw [← tr, toward, hw, List.append_nil]
    cases hc : u.kem.encapsulate pair.publicKey (u.pool .responder) with
    | mk outcome later =>
      cases outcome with
      | error cause =>
        rw [advance_responding_failed hr hended hincoming ((congrArg _ hp).trans hc)]
        refine .broken (q := .responder) (.inr ⟨pair, pool, cause, later, hk, hc⟩) (by rw [put_side])
          (.inr ⟨?_, ?_⟩) (blank_put hb (hb .responder))
        · rw [Role.peer, toward_put_responder, ti]
          rfl
        · rw [Role.peer, side_put_responder]
          exact .inl ⟨_, hi⟩
      | ok answer =>
        obtain ⟨wrapped, secret⟩ := answer
        generalize hiv : Handshake.drawIv later = drawn
        obtain ⟨iv, left⟩ := drawn
        obtain ⟨next, hnext⟩ : ∃ next : Side, next = { d.side .responder with
            stage := .chatting (.start u.caller .responder u.mode ⟨secret, iv⟩ [])
            incoming := [], pool := left } := ⟨_, rfl⟩
        have hadv : (d.side .responder).advance u =
            (next, Frame.write wrapped.toList ++ iv.toList) := by
          rw [advance_responding_done hr hended hincoming ((congrArg _ hp).trans hc), hiv, hnext]
        have hstage : next.stage = .chatting (.start u.caller .responder u.mode ⟨secret, iv⟩ []) := by
          rw [hnext]
        have htyped : next.typed = [] := by rw [hnext]; exact (hb .responder).1
        have hshown : next.shown = [] := by rw [hnext]; exact (hb .responder).2
        have hsent : next.sent = [] := by
          rw [sent_of_chatting hstage, htyped]
          rfl
        have hkey : u.kem.decapsulate pair.secretKey wrapped = (SessionKeys.mk secret iv).key :=
          hagrees _ _ _ _ _ hk hc
        have hseal : Sealing ⟨secret, iv⟩ (.ofSender iv .responder u.mode) next.sent []
            (Chat.start u.caller .responder u.mode ⟨secret, iv⟩ []).outbound := hsent ▸ .nil _
        rw [hadv]
        refine .answered ?_ ?_ hkey ?_ (by rw [put_side]; exact hseal) ?_
        · rw [side_put_responder]
          exact hi
        · rw [side_put_responder]
          exact hb .initiator
        · rw [toward_put_responder, ti]
          exact (List.append_nil _).symm
        · have hincoming' : next.incoming = [] := by rw [hnext]
          rw [toward_put, hw, put_side, hincoming']
          exact .start rfl hstage htyped hshown (.nil _) (by simp)
  · rw [advance_responding_waiting hr hended hw tr, put_self]
    exact .offered hk hi hr ti tr hp hb

/-- The answer of the callee reaches the caller, who joins a chat that may have begun. -/
theorem Phase.advance_concluding (he : EndsLast d) {key : SecretKey} {wrapped : WrappedSecret}
    {keys : SessionKeys} {chat : Chat} {all : List Bytes}
    (hi : (d.side .initiator).stage = .concluding key) (hb : (d.side .initiator).Blank)
    (hk : u.kem.decapsulate key wrapped = keys.key)
    (ti : d.toward .initiator =
      Frame.write wrapped.toList ++ keys.iv.toList ++ Frame.writeAll all)
    (hs : Sealing keys (.ofSender keys.iv .responder u.mode) (d.side .responder).sent all
      chat.outbound)
    (ht : Talks u .responder keys (d.side .responder) chat []
      (.ofSender keys.iv .initiator u.mode) False (d.toward .responder)) :
    Phase u (d.put .initiator ((d.side .initiator).advance u)) := by
  have hsize : ∀ text ∈ (d.side .responder).sent, text.utf8ByteSize ≤ Chat.maxMessage :=
    fun text hm => size_le_of_mem_sent hm
  rcases Bytes.cases_of_append_eq ti with ⟨missing, hnil, hm, hw⟩ | ⟨later, hl, hw⟩
  · have hended : (d.side .initiator).ended = false := by
      cases hf : (d.side .initiator).ended with
      | false => rfl
      | true =>
        have hnone := (he .initiator hf).1
        rw [hw] at hnone
        exact absurd (List.append_eq_nil_iff.mp hnone).1 hnil
    rw [advance_concluding_waiting hi hended wrapped keys.iv hnil hm.symm, put_self]
    exact .answered hi hb hk ti hs ht
  · obtain ⟨next, hnext⟩ : ∃ next : Side, next = { d.side .initiator with
        stage := .chatting (.start u.callee .initiator u.mode keys [])
        incoming := later } := ⟨_, rfl⟩
    have hadv : (d.side .initiator).advance u = (next, []) := by
      rw [advance_concluding_done hi wrapped keys.iv hl, hk, hnext]
    have hstage : next.stage = .chatting (.start u.callee .initiator u.mode keys []) := by rw [hnext]
    have htyped : next.typed = [] := by rw [hnext]; exact hb.1
    have hshown : next.shown = [] := by rw [hnext]; exact hb.2
    have hsent : next.sent = [] := by
      rw [sent_of_chatting hstage, htyped]
      rfl
    have hincoming : next.incoming ++ d.wire .initiator = Frame.writeAll all := by rw [hnext, ← hw]
    rw [hadv]
    refine .talking keys
      (fun q => Role.casesOn q (.start u.callee .initiator u.mode keys []) chat) fun q => ?_
    cases q with
    | initiator =>
      rw [toward_put, Role.peer, side_put_initiator, put_side, hincoming]
      exact .start rfl hstage htyped hshown hs hsize
    | responder =>
      rw [toward_put_initiator, Role.peer, side_put_initiator, put_side, hsent]
      exact ht.hear .nothing False.elim fun _ => rfl

/-- Both ends chat, and one of them reads. -/
theorem Phase.advance_chatting (he : EndsLast d) {keys : SessionKeys} {chat : Role → Chat}
    (h : ∀ q, Talks u q keys (d.side q) (chat q) (d.side q.peer).sent (chat q.peer).outbound
      ((d.side q.peer).isOver = true) (d.toward q)) (r : Role) :
    Phase u (d.put r ((d.side r).advance u)) := by
  obtain ⟨chat', ht, hsent, hout, -⟩ := (h r).advance (he r)
  have hnext : ((d.side r).advance u).1.incoming = [] ∧ ((d.side r).advance u).2 = [] := by
    rw [advance_of_chatting (h r).stage_eq]
    exact ⟨rfl, rfl⟩
  refine .talking keys _ (talks_put h ht ?_ ?_ fun ho => ⟨(advance_of_over ho).2, hsent⟩)
  · rw [hsent, hout, hnext.2]
    exact .nothing
  · rw [hnext.1]
    rfl

/-- The callee reads before the caller has its answer. -/
theorem Phase.advance_answered (he : EndsLast d) {key : SecretKey} {wrapped : WrappedSecret}
    {keys : SessionKeys} {chat : Chat} {all : List Bytes}
    (hi : (d.side .initiator).stage = .concluding key) (hb : (d.side .initiator).Blank)
    (hk : u.kem.decapsulate key wrapped = keys.key)
    (ti : d.toward .initiator =
      Frame.write wrapped.toList ++ keys.iv.toList ++ Frame.writeAll all)
    (hs : Sealing keys (.ofSender keys.iv .responder u.mode) (d.side .responder).sent all
      chat.outbound)
    (ht : Talks u .responder keys (d.side .responder) chat []
      (.ofSender keys.iv .initiator u.mode) False (d.toward .responder)) :
    Phase u (d.put .responder ((d.side .responder).advance u)) := by
  have hended : (d.side .responder).ended = false :=
    he.ended_eq_false (by rw [Role.peer, Side.isOver, hi]; simp)
  obtain ⟨chat', ht', hsent, hout, -⟩ := ht.advance (by simp [hended])
  have hnext : ((d.side .responder).advance u).1.incoming = [] ∧
      ((d.side .responder).advance u).2 = [] := by
    rw [advance_of_chatting ht.stage_eq]
    exact ⟨rfl, rfl⟩
  refine .answered ?_ ?_ hk ?_ (by rw [put_side, hsent, hout]; exact hs) ?_
  · rw [side_put_responder]
    exact hi
  · rw [side_put_responder]
    exact hb
  · rw [toward_put_responder, hnext.2, List.append_nil]
    exact ti
  · rw [put_side, toward_put, hnext.1]
    exact ht'

theorem Phase.advance (hn : isName u.caller = true) (hagrees : u.Agrees) (h : Phase u d)
    (he : EndsLast d) (r : Role) : Phase u (d.put r ((d.side r).advance u)) := by
  have hstill : (d.side r).advance u = (d.side r, []) → Phase u (d.put r ((d.side r).advance u)) := by
    intro hs
    rw [hs, put_self]
    exact h
  -- An end to which nothing has come, while the other is not over.
  have hnothing : d.toward r = [] → ¬ (d.side r.peer).isOver = true →
      ((∃ key, (d.side r).stage = .concluding key) ∨ ∃ caller, (d.side r).stage = .responding caller) →
      Phase u (d.put r ((d.side r).advance u)) := by
    intro ht ho hs
    refine hstill ?_
    rw [advance_of_nothing (List.append_eq_nil_iff.mp ht).1 hs, he.ended_eq_false ho]
    rfl
  cases h with
  | requested hi hr ti tr hp hb =>
    cases r with
    | initiator =>
      have hended : (d.side .initiator).ended = false :=
        he.ended_eq_false (by rw [Role.peer, Side.isOver, hr]; simp)
      have hin : (d.side .initiator).incoming = [] := (List.append_eq_nil_iff.mp ti).1
      refine hstill (advance_asking_waiting hi hended ?_ (by rw [hin, List.nil_append]))
      rw [Negotiation.answer_true_eq]
      decide
    | responder => exact .advance_listening he hn hi hr ti tr hp hb
  | accepted hi hr ti tr hp hb =>
    cases r with
    | initiator => exact .advance_asking he hi hr ti tr hp hb
    | responder => exact hnothing tr (by rw [Role.peer, Side.isOver, hi]; simp) (.inr ⟨_, hr⟩)
  | offered hk hi hr ti tr hp hb =>
    cases r with
    | initiator => exact hnothing ti (by rw [Role.peer, Side.isOver, hr]; simp) (.inl ⟨_, hi⟩)
    | responder => exact .advance_responding hagrees he hk hi hr ti tr hp hb
  | answered hi hb hk ti hs ht =>
    cases r with
    | initiator => exact .advance_concluding he hi hb hk ti hs ht
    | responder => exact .advance_answered he hi hb hk ti hs ht
  | talking keys chat h => exact .advance_chatting he h r
  | @broken fails q hq hp hb =>
    have hfailed : ∀ {s : Side}, s.stage = .failed → s.advance u = (s, []) := by
      intro s hs
      rw [Side.advance, hs]
    by_cases hr : r = q
    · exact hstill (hfailed (hr ▸ hq))
    · obtain rfl := eq_peer_of_ne hr
      rcases hp with hp | ⟨ht, hs⟩
      · exact hstill (hfailed hp)
      · have hadv := advance_of_nothing (u := u) (List.append_eq_nil_iff.mp ht).1 hs
        cases hended : (d.side q.peer).ended with
        | false =>
          rw [hended] at hadv
          exact hstill hadv
        | true =>
          rw [hended] at hadv
          rw [hadv]
          refine .broken fails (q := q.peer) (by rw [put_side]; rfl) (.inl ?_)
            (blank_put hb (hb q.peer))
          rw [put_side_peer, peer_peer]
          exact hq

/-! ## Whole runs -/

theorem phase_start (u : Setup) : Phase u (start u) := by
  have hrequest : (start u).toward .responder = Negotiation.request u.caller := List.nil_append _
  exact .requested rfl rfl rfl hrequest (fun q => by cases q <;> rfl) fun q => by
    cases q <;> exact ⟨rfl, rfl⟩

theorem endsLast_start (u : Setup) : EndsLast (start u) := by
  intro q hq
  cases q with
  | initiator => exact absurd hq (by simp [start, Side.start])
  | responder => exact absurd hq (by simp [start, Side.start])

theorem Phase.step (hn : isName u.caller = true) (hagrees : u.Agrees) (h : Phase u d)
    (he : EndsLast d) (f : Step) : Phase u (step u d f) := by
  cases f with
  | arrived r count => exact h.congr (sameEnds_arrived d r count)
  | ended r => exact h.congr (sameEnds_ended d r)
  | advanced r => exact h.advance hn hagrees he r
  | typed r line writable => exact h.spoken (spoken_typeLine r _ writable line)
  | inputEnded r => exact h.spoken (spoken_endInput r _)

theorem phase_run (hn : isName u.caller = true) (hagrees : u.Agrees) (steps : List Step) :
    Phase u (run u steps) ∧ EndsLast (run u steps) := by
  induction steps using List.reverseRecOn with
  | nil => exact ⟨phase_start u, endsLast_start u⟩
  | append_singleton steps f ih =>
    rw [run_concat]
    exact ⟨ih.1.step hn hagrees ih.2 f, ih.2.step f⟩

end PeerChat.Dialogue
