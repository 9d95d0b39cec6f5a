import PeerChat.Proofs.Session.Handshake
import PeerChat.Session.KeyExchange

/-!
# Both sides of a key exchange come out alike

A key exchange goes through a few phases, whatever the order in which bytes arrive and sides go on
(`Phase`).  In each of them it is known what either side has to read and what comes behind it.  From
each of them the exchange goes on until both sides have returned, either both with keys or both
without (`outcome_run`).
-/

namespace PeerChat.KeyExchange

variable {u : Setup} {m m' : KeyExchange}

/-! ## What a side is to read -/

/-- What has arrived for a side or is on its way, and is not consumed. -/
def toward (m : KeyExchange) (r : Role) : Bytes := (m.side r).incoming ++ m.wire r

/-- The random sources give both sides what they need. -/
structure Draws (u : Setup) (pair : KeyPair) (wrapped : WrappedSecret) (secret : SharedSecret)
    (iv : Aead.Nonce) : Prop where
  keyPair : ∃ left, u.kem.keyPair (u.pool .initiator) = (.ok pair, left)
  answer : ∃ left, u.kem.encapsulate pair.publicKey (u.pool .responder) = (.ok (wrapped, secret), left) ∧
    iv = (Handshake.drawIv left).1

/-- Neither the key generation nor the encapsulation fails. -/
def Setup.Succeeds (u : Setup) : Prop := ∃ pair wrapped secret iv, Draws u pair wrapped secret iv

/-- The key generation fails. -/
def Setup.LacksKey (u : Setup) : Prop :=
  ∃ cause left, u.kem.keyPair (u.pool .initiator) = (.error cause, left)

/-- The encapsulation for a key fails. -/
def Setup.LacksSecret (u : Setup) (pair : KeyPair) : Prop :=
  ∃ cause left, u.kem.encapsulate pair.publicKey (u.pool .responder) = (.error cause, left)

def Stage.IsFailed (stage : Stage) : Prop := ∃ cause, stage = .failed cause

/-! ## Phases -/

/-- How far an exchange has come. -/
inductive Phase (u : Setup) (m : KeyExchange) : Prop
  | offering (initiator : m.initiator.stage = .offering) (responder : m.responder.stage = .responding)
      (pools : ∀ r, (m.side r).pool = u.pool r) (unsaid : ∀ r, (m.side r).said = [])
      (toward : ∀ r, m.toward r = [])
  | keyless (lacks : u.LacksKey) (initiator : m.initiator.stage.IsFailed)
      (responder : m.responder.stage = .responding ∨ m.responder.stage.IsFailed)
      (toResponder : m.toward .responder = [])
  | offered {pair : KeyPair} (keyPair : ∃ left, u.kem.keyPair (u.pool .initiator) = (.ok pair, left))
      (initiator : m.initiator.stage = .concluding pair.secretKey)
      (responder : m.responder.stage = .responding)
      (pool : m.responder.pool = u.pool .responder) (unsaid : ∀ r, (m.side r).said = [])
      (toInitiator : m.toward .initiator = [])
      (toResponder : m.toward .responder = Frame.write pair.publicKey.toList)
  | secretless {pair : KeyPair} (keyPair : ∃ left, u.kem.keyPair (u.pool .initiator) = (.ok pair, left))
      (lacks : u.LacksSecret pair)
      (initiator : m.initiator.stage = .concluding pair.secretKey ∨ m.initiator.stage.IsFailed)
      (responder : m.responder.stage.IsFailed) (toInitiator : m.toward .initiator = [])
  | answered {pair : KeyPair} {wrapped : WrappedSecret} {secret : SharedSecret} {iv : Aead.Nonce}
      (draws : Draws u pair wrapped secret iv)
      (initiator : m.initiator.stage = .concluding pair.secretKey)
      (responder : m.responder.stage = .agreed ⟨secret, iv⟩) (unsaid : m.initiator.said = [])
      (toInitiator : m.toward .initiator =
        Frame.write wrapped.toList ++ iv.toList ++ m.responder.said)
      (toResponder : m.toward .responder = [])
  | agreed {pair : KeyPair} {wrapped : WrappedSecret} {secret : SharedSecret} {iv : Aead.Nonce}
      (draws : Draws u pair wrapped secret iv)
      (initiator : m.initiator.stage = .agreed ⟨u.kem.decapsulate pair.secretKey wrapped, iv⟩)
      (responder : m.responder.stage = .agreed ⟨secret, iv⟩)
      (toward : ∀ r, m.toward r = (m.side r.peer).said)

/-- A side finds the end only behind all that the other has sent, once the other has hung up. -/
def EndsLast (m : KeyExchange) : Prop :=
  ∀ r, (m.side r).ended = true → m.wire r = [] ∧ (m.side r.peer).hasHungUp = true

/-- Both are alike but for what has arrived, for ends that have been found and for who has left. -/
structure SameView (m m' : KeyExchange) : Prop where
  stage : ∀ r, (m'.side r).stage = (m.side r).stage
  pool : ∀ r, (m'.side r).pool = (m.side r).pool
  said : ∀ r, (m'.side r).said = (m.side r).said
  toward : ∀ r, m'.toward r = m.toward r

theorem Phase.congr (h : Phase u m) (hs : SameView m m') : Phase u m' := by
  have hi : m'.initiator.stage = m.initiator.stage := hs.stage .initiator
  have hr : m'.responder.stage = m.responder.stage := hs.stage .responder
  have hsi : m'.initiator.said = m.initiator.said := hs.said .initiator
  have hsr : m'.responder.said = m.responder.said := hs.said .responder
  cases h with
  | offering initiator responder pools unsaid toward =>
    exact .offering (hi.trans initiator) (hr.trans responder) (fun r => (hs.pool r).trans (pools r))
      (fun r => (hs.said r).trans (unsaid r)) fun r => (hs.toward r).trans (toward r)
  | keyless lacks initiator responder toResponder =>
    exact .keyless lacks (hi ▸ initiator) (hr ▸ responder) ((hs.toward _).trans toResponder)
  | offered keyPair initiator responder pool unsaid toInitiator toResponder =>
    exact .offered keyPair (hi.trans initiator) (hr.trans responder)
      ((hs.pool .responder).trans pool) (fun r => (hs.said r).trans (unsaid r))
      ((hs.toward _).trans toInitiator) ((hs.toward _).trans toResponder)
  | secretless keyPair lacks initiator responder toInitiator =>
    exact .secretless keyPair lacks (hi ▸ initiator) (hr ▸ responder)
      ((hs.toward _).trans toInitiator)
  | answered draws initiator responder unsaid toInitiator toResponder =>
    exact .answered draws (hi.trans initiator) (hr.trans responder) (hsi.trans unsaid)
      (((hs.toward _).trans toInitiator).trans (by rw [hsr])) ((hs.toward _).trans toResponder)
  | agreed draws initiator responder toward =>
    exact .agreed draws (hi.trans initiator) (hr.trans responder)
      fun r => ((hs.toward r).trans (toward r)).trans (hs.said r.peer).symm

/-! ## Steps that do not advance a side -/

theorem sameView_arrived (r : Role) (count : Nat) : SameView m (step u m (.arrived r count)) := by
  refine ⟨fun q => ?_, fun q => ?_, fun q => ?_, fun q => ?_⟩
  · cases r <;> cases q <;> rfl
  · cases r <;> cases q <;> rfl
  · cases r <;> cases q <;> rfl
  · have hsplit : ∀ data wire : Bytes, (data ++ wire.take count) ++ wire.drop count = data ++ wire := by
      intro data wire
      rw [List.append_assoc, List.take_append_drop]
    cases r <;> cases q
    · exact hsplit _ _
    · rfl
    · rfl
    · exact hsplit _ _

theorem sameView_ended (r : Role) : SameView m (step u m (.ended r)) := by
  rw [step]
  split
  · refine ⟨fun q => ?_, fun q => ?_, fun q => ?_, fun q => ?_⟩ <;> cases r <;> cases q <;> rfl
  · exact ⟨fun _ => rfl, fun _ => rfl, fun _ => rfl, fun _ => rfl⟩

theorem sameView_left (r : Role) : SameView m (step u m (.left r)) := by
  rw [step]
  split
  · refine ⟨fun q => ?_, fun q => ?_, fun q => ?_, fun q => ?_⟩ <;> cases r <;> cases q <;> rfl
  · exact ⟨fun _ => rfl, fun _ => rfl, fun _ => rfl, fun _ => rfl⟩

/-! ## Speaking on the session -/

theorem Phase.said (h : Phase u m) (r : Role) (bytes : Bytes) : Phase u (step u m (.said r bytes)) := by
  rw [step]
  split
  · rename_i keys hk
    split
    · exact h
    · -- Only a side that has the keys speaks, so the exchange has come at least as far as the answer.
      cases h with
      | offering initiator responder pools unsaid toward =>
        cases r
        · exact absurd (hk.symm.trans initiator) (by simp)
        · exact absurd (hk.symm.trans responder) (by simp)
      | keyless lacks initiator responder toResponder =>
        cases r
        · obtain ⟨cause, hc⟩ := initiator
          exact absurd (hk.symm.trans hc) (by simp)
        · rcases responder with hc | ⟨cause, hc⟩ <;> exact absurd (hk.symm.trans hc) (by simp)
      | offered keyPair initiator responder pool unsaid toInitiator toResponder =>
        cases r
        · exact absurd (hk.symm.trans initiator) (by simp)
        · exact absurd (hk.symm.trans responder) (by simp)
      | secretless keyPair lacks initiator responder toInitiator =>
        cases r
        · rcases initiator with hc | ⟨cause, hc⟩ <;> exact absurd (hk.symm.trans hc) (by simp)
        · obtain ⟨cause, hc⟩ := responder
          exact absurd (hk.symm.trans hc) (by simp)
      | answered draws initiator responder unsaid toInitiator toResponder =>
        cases r
        · exact absurd (hk.symm.trans initiator) (by simp)
        · refine .answered draws initiator responder unsaid ?_ toResponder
          have hbytes : (m.toward .initiator) ++ bytes = _ := congrArg (· ++ bytes) toInitiator
          simp only [toward, List.append_assoc] at hbytes ⊢
          exact hbytes
      | agreed draws initiator responder toward =>
        refine .agreed draws ?_ ?_ fun q => ?_
        · cases r <;> exact initiator
        · cases r <;> exact responder
        · have hbytes : (m.toward r.peer) ++ bytes = (m.side r).said ++ bytes := by
            rw [toward r.peer]
            cases r <;> rfl
          simp only [KeyExchange.toward, List.append_assoc] at hbytes ⊢
          cases r <;> cases q
          · exact toward .initiator
          · exact hbytes
          · exact hbytes
          · exact toward .responder
  · exact h

/-! ## Going on -/

/-- A side has moved, and has written something for the other. -/
def put (m : KeyExchange) (r : Role) (next : Side × Bytes) : KeyExchange :=
  (m.setSide r next.1).setWire r.peer (m.wire r.peer ++ next.2)

theorem put_nil (m : KeyExchange) (r : Role) (s : Side) : m.put r (s, []) = m.setSide r s := by
  cases r
  · exact congrArg (fun w => { m with initiator := s, toResponder := w })
      (List.append_nil m.toResponder)
  · exact congrArg (fun w => { m with responder := s, toInitiator := w })
      (List.append_nil m.toInitiator)

theorem setSide_side (m : KeyExchange) (r : Role) : m.setSide r (m.side r) = m := by
  cases r <;> rfl

theorem step_advanced (r : Role) :
    step u m (.advanced r) =
      m.put r ((m.side r).advance u.kem !(m.side r.peer).hasHungUp) := rfl

theorem incoming_eq_nil {r : Role} (h : m.toward r = []) : (m.side r).incoming = [] :=
  (List.append_eq_nil_iff.mp h).1

theorem wire_eq_nil {r : Role} (h : m.toward r = []) : m.wire r = [] :=
  (List.append_eq_nil_iff.mp h).2

namespace Side

variable {s : Side} {kem : Kem} {writable : Bool}

theorem advance_agreed {keys : SessionKeys} (h : s.stage = .agreed keys) :
    s.advance kem writable = (s, []) := by
  rw [advance, h]

theorem advance_failed (h : s.stage.IsFailed) : s.advance kem writable = (s, []) := by
  obtain ⟨cause, hc⟩ := h
  rw [advance, hc]

theorem advance_offering {pair : KeyPair} {left : Entropy} (h : s.stage = .offering)
    (hk : kem.keyPair s.pool = (.ok pair, left)) :
    s.advance kem true =
      ({ s with stage := .concluding pair.secretKey, pool := left },
        Frame.write pair.publicKey.toList) := by
  rw [advance, h]
  simp only [Handshake.offer, hk]
  rfl

theorem advance_offering_error {cause : KemError} {left : Entropy} (h : s.stage = .offering)
    (hk : kem.keyPair s.pool = (.error cause, left)) :
    s.advance kem writable =
      ({ s with stage := .failed (.crypto (.kem cause)), pool := left }, []) := by
  rw [advance, h]
  simp only [Handshake.offer, hk]

theorem advance_concluding_waiting {key : SecretKey} (h : s.stage = .concluding key)
    (hc : Handshake.conclude kem key s.ended s.incoming = .waiting) :
    s.advance kem writable = (s, []) := by
  rw [advance, h]
  simp only [hc]

theorem advance_responding_waiting {pool : Entropy} (h : s.stage = .responding)
    (hc : Handshake.respond kem s.pool s.ended s.incoming = (.waiting, pool)) :
    s.advance kem writable = (s, []) := by
  rw [advance, h]
  simp only [hc]

theorem ended_advance (kem : Kem) (writable : Bool) (s : Side) :
    (s.advance kem writable).1.ended = s.ended := by
  have hwrite : ∀ (s : Side) (bytes : Bytes) (next : Stage),
      (s.write writable bytes next).1.ended = s.ended := by
    intro s bytes next
    rw [write]
    split <;> rfl
  rw [advance]
  split
  · split
    · rfl
    · exact hwrite _ _ _
  · split <;> rfl
  · split
    · rfl
    · rfl
    · exact hwrite _ _ _
  · rfl
  · rfl

theorem advance_of_hasHungUp (h : s.hasHungUp = true) : s.advance kem writable = (s, []) := by
  unfold hasHungUp at h
  split at h
  · rename_i cause hs
    exact advance_failed ⟨cause, hs⟩
  · rename_i keys hs
    exact advance_agreed hs
  · exact absurd h (by simp)

theorem advance_concluding {key : SecretKey} {wrapped : WrappedSecret} {iv : Aead.Nonce}
    {later : Bytes} (h : s.stage = .concluding key)
    (hi : s.incoming = Frame.write wrapped.toList ++ iv.toList ++ later) :
    s.advance kem writable =
      ({ s with stage := .agreed ⟨kem.decapsulate key wrapped, iv⟩, incoming := later }, []) := by
  rw [advance, h]
  simp only []
  rw [hi, Handshake.conclude_done]

theorem advance_responding {key : PublicKey} {wrapped : WrappedSecret} {secret : SharedSecret}
    {left : Entropy} (h : s.stage = .responding) (hi : s.incoming = Frame.write key.toList)
    (hc : kem.encapsulate key s.pool = (.ok (wrapped, secret), left)) :
    s.advance kem true =
      ({ s with
          stage := .agreed ⟨secret, (Handshake.drawIv left).1⟩
          incoming := []
          pool := (Handshake.drawIv left).2 },
        Frame.write wrapped.toList ++ (Handshake.drawIv left).1.toList) := by
  rw [advance, h]
  simp only []
  rw [hi, ← List.append_nil (Frame.write _), Handshake.respond_ok hc]
  rfl

theorem advance_responding_error {key : PublicKey} {cause : KemError} {left : Entropy}
    (h : s.stage = .responding) (hi : s.incoming = Frame.write key.toList)
    (hc : kem.encapsulate key s.pool = (.error cause, left)) :
    s.advance kem writable =
      ({ s with stage := .failed (.crypto (.kem cause)), pool := left }, []) := by
  rw [advance, h]
  simp only []
  rw [hi, ← List.append_nil (Frame.write _), Handshake.respond_error hc]

/-- A side that has nothing to read waits, or fails at the end of the stream. -/
theorem advance_nil (h : s.stage = .responding ∨ ∃ key, s.stage = .concluding key)
    (hi : s.incoming = []) :
    s.advance kem writable =
      (if s.ended then { s with stage := .failed .peerClosed } else s, []) := by
  cases he : s.ended with
  | false =>
    rcases h with h | ⟨key, h⟩
    · have hwait : Handshake.respond kem s.pool s.ended s.incoming = (.waiting, s.pool) := by
        rw [he, hi]
        rfl
      exact advance_responding_waiting h hwait
    · refine advance_concluding_waiting h ?_
      rw [he, hi]
      rfl
  | true =>
    rcases h with h | ⟨key, h⟩
    · rw [advance, h]
      simp only [he, hi]
      rfl
    · rw [advance, h]
      simp only [he, hi]
      rfl

end Side

theorem not_ended {r : Role} (he : EndsLast m) (h : (m.side r.peer).hasHungUp = false) :
    (m.side r).ended = false := by
  cases hs : (m.side r).ended with
  | false => rfl
  | true => exact absurd (h.symm.trans (he r hs).2) (by simp)

theorem hasHungUp_eq_false {s : Side} (h : s.stage = .responding ∨ s.stage = .offering ∨
    ∃ key, s.stage = .concluding key) : s.hasHungUp = false := by
  rcases h with h | h | ⟨key, h⟩ <;> rw [Side.hasHungUp, h]

theorem advanced_of_same {r : Role}
    (h : ∀ writable, (m.side r).advance u.kem writable = (m.side r, [])) :
    step u m (.advanced r) = m := by
  rw [step_advanced, h, put_nil, setSide_side]

theorem advanced_of_failed (r : Role) (h : (m.side r).stage.IsFailed) :
    step u m (.advanced r) = m := advanced_of_same fun _ => Side.advance_failed h

theorem advanced_of_agreed (r : Role) {keys : SessionKeys} (h : (m.side r).stage = .agreed keys) :
    step u m (.advanced r) = m := advanced_of_same fun _ => Side.advance_agreed h

theorem advanced_of_nil (r : Role) (ht : m.toward r = [])
    (hs : (m.side r).stage = .responding ∨ ∃ key, (m.side r).stage = .concluding key) :
    step u m (.advanced r) =
      if (m.side r).ended then m.setSide r { m.side r with stage := .failed .peerClosed } else m := by
  rw [step_advanced, Side.advance_nil hs (incoming_eq_nil ht), put_nil]
  split
  · rfl
  · rw [setSide_side]

section Advance

variable {pair : KeyPair} {wrapped : WrappedSecret} {secret : SharedSecret} {iv : Aead.Nonce}

/-- The initiator makes its key. -/
theorem Phase.offers (initiator : m.initiator.stage = .offering)
    (responder : m.responder.stage = .responding) (pools : ∀ r, (m.side r).pool = u.pool r)
    (unsaid : ∀ r, (m.side r).said = []) (toward : ∀ r, m.toward r = []) :
    Phase u (step u m (.advanced .initiator)) := by
  have hpool : m.initiator.pool = u.pool .initiator := pools .initiator
  have hopen : m.responder.hasHungUp = false := hasHungUp_eq_false (.inl responder)
  have hstep : step u m (.advanced .initiator) =
      m.put .initiator (m.initiator.advance u.kem !m.responder.hasHungUp) := rfl
  rw [hstep, hopen]
  cases hk : u.kem.keyPair (u.pool .initiator) with
  | mk outcome left =>
    have hk' := hk
    rw [← hpool] at hk'
    cases outcome with
    | error cause =>
      rw [Side.advance_offering_error initiator hk']
      refine .keyless ⟨cause, left, hk⟩ ⟨_, rfl⟩ (.inl responder) ?_
      have hnil : m.responder.incoming ++ (m.toResponder ++ []) = [] := by
        rw [List.append_nil]
        exact toward .responder
      exact hnil
    | ok pair =>
      rw [show (!false) = true from rfl, Side.advance_offering initiator hk']
      refine .offered ⟨left, hk⟩ rfl responder (pools .responder) ?_ (toward .initiator) ?_
      · intro r
        cases r
        · exact unsaid .initiator
        · exact unsaid .responder
      · have hframe : m.responder.incoming ++ (m.toResponder ++ Frame.write pair.publicKey.toList) =
            Frame.write pair.publicKey.toList := by
          rw [← List.append_assoc]
          exact congrArg (· ++ _) (toward .responder)
        exact hframe

/-- The responder reads the key, or waits for the rest of it. -/
theorem Phase.responds (he : EndsLast m)
    (keyPair : ∃ left, u.kem.keyPair (u.pool .initiator) = (.ok pair, left))
    (initiator : m.initiator.stage = .concluding pair.secretKey)
    (responder : m.responder.stage = .responding) (pool : m.responder.pool = u.pool .responder)
    (unsaid : ∀ r, (m.side r).said = []) (toInitiator : m.toward .initiator = [])
    (toResponder : m.toward .responder = Frame.write pair.publicKey.toList) :
    Phase u (step u m (.advanced .responder)) := by
  have hopen : m.initiator.hasHungUp = false := hasHungUp_eq_false (.inr (.inr ⟨_, initiator⟩))
  have hended : m.responder.ended = false := not_ended (r := .responder) he hopen
  have hstep : step u m (.advanced .responder) =
      m.put .responder (m.responder.advance u.kem !m.initiator.hasHungUp) := rfl
  by_cases hw : m.toResponder = []
  · have hincoming : m.responder.incoming = Frame.write pair.publicKey.toList := by
      have h := toResponder
      rw [toward, show m.wire .responder = m.toResponder from rfl, hw, List.append_nil] at h
      exact h
    rw [hstep, hopen]
    cases hc : u.kem.encapsulate pair.publicKey (u.pool .responder) with
    | mk outcome left =>
      have hc' := hc
      rw [← pool] at hc'
      cases outcome with
      | error cause =>
        rw [Side.advance_responding_error responder hincoming hc']
        refine .secretless keyPair ⟨cause, left, hc⟩ (.inl initiator) ⟨_, rfl⟩ ?_
        have hnil : m.initiator.incoming ++ (m.toInitiator ++ []) = [] := by
          rw [List.append_nil]
          exact toInitiator
        exact hnil
      | ok answer =>
        obtain ⟨wrapped, secret⟩ := answer
        rw [show (!false) = true from rfl, Side.advance_responding responder hincoming hc']
        refine .answered ⟨keyPair, left, hc, rfl⟩ initiator rfl (unsaid .initiator) ?_ ?_
        · have hsaid : m.responder.said = [] := unsaid .responder
          have hbytes : m.initiator.incoming ++ (m.toInitiator ++
              (Frame.write wrapped.toList ++ (Handshake.drawIv left).1.toList)) =
              Frame.write wrapped.toList ++ (Handshake.drawIv left).1.toList ++
                m.responder.said := by
            rw [← List.append_assoc, hsaid, List.append_nil]
            exact congrArg (· ++ _) toInitiator
          exact hbytes
        · exact hw
  · have hwait : Handshake.respond u.kem m.responder.pool false m.responder.incoming =
        (.waiting, m.responder.pool) := Handshake.respond_waiting hw toResponder
    rw [← hended] at hwait
    rw [step_advanced, show m.side .responder = m.responder from rfl,
      Side.advance_responding_waiting responder hwait]
    exact (put_nil m .responder m.responder).symm ▸
      .offered keyPair initiator responder pool unsaid toInitiator toResponder

/-- The initiator reads the answer, or waits for the rest of it. -/
theorem Phase.concludes (he : EndsLast m) (draws : Draws u pair wrapped secret iv)
    (initiator : m.initiator.stage = .concluding pair.secretKey)
    (responder : m.responder.stage = .agreed ⟨secret, iv⟩) (unsaid : m.initiator.said = [])
    (toInitiator : m.toward .initiator =
      Frame.write wrapped.toList ++ iv.toList ++ m.responder.said)
    (toResponder : m.toward .responder = []) :
    Phase u (step u m (.advanced .initiator)) := by
  rcases Bytes.cases_of_append_eq toInitiator with ⟨missing, hne, hm, hrest⟩ | ⟨later, hdata, hrest⟩
  · -- The end of the stream cannot have come before the rest of the answer.
    have hended : m.initiator.ended = false := by
      cases hs : m.initiator.ended with
      | false => rfl
      | true =>
        have hnil := (he .initiator hs).1
        rw [hnil] at hrest
        exact absurd (List.append_eq_nil_iff.mp hrest.symm).1 hne
    have hwait : Handshake.conclude u.kem pair.secretKey false m.initiator.incoming = .waiting :=
      Handshake.conclude_waiting wrapped iv hne hm.symm
    rw [← hended] at hwait
    rw [step_advanced, show m.side .initiator = m.initiator from rfl,
      Side.advance_concluding_waiting initiator hwait]
    exact (put_nil m .initiator m.initiator).symm ▸
      .answered draws initiator responder unsaid toInitiator toResponder
  · have hdata' : m.initiator.incoming = Frame.write wrapped.toList ++ iv.toList ++ later := hdata
    have hadvance : m.initiator.advance u.kem (!m.responder.hasHungUp) =
        ({ m.initiator with
            stage := .agreed ⟨u.kem.decapsulate pair.secretKey wrapped, iv⟩, incoming := later },
          []) := by
      rw [Side.advance, initiator]
      simp only []
      rw [hdata', Handshake.conclude_done]
    have hstep : step u m (.advanced .initiator) =
        m.put .initiator (m.initiator.advance u.kem !m.responder.hasHungUp) := rfl
    rw [hstep, hadvance]
    refine .agreed draws rfl responder fun r => ?_
    cases r
    · exact hrest
    · have hnil : m.responder.incoming ++ (m.toResponder ++ []) = m.initiator.said := by
        rw [List.append_nil, unsaid]
        exact toResponder
      exact hnil

end Advance

theorem Phase.advanced (h : Phase u m) (he : EndsLast m) (r : Role) :
    Phase u (step u m (.advanced r)) := by
  have hsame := h
  cases h with
  | offering initiator responder pools unsaid toward =>
    cases r with
    | initiator => exact .offers initiator responder pools unsaid toward
    | responder =>
      have hended : m.responder.ended = false :=
        not_ended (r := .responder) he (hasHungUp_eq_false (.inr (.inl initiator)))
      rw [advanced_of_nil .responder (toward .responder) (.inl responder)]
      simp only [side, hended]
      exact hsame
  | keyless lacks initiator responder toResponder =>
    cases r with
    | initiator => rwa [advanced_of_failed .initiator initiator]
    | responder =>
      rcases responder with hr | hr
      · rw [advanced_of_nil .responder toResponder (.inl hr)]
        split
        · exact .keyless lacks initiator (.inr ⟨_, rfl⟩) toResponder
        · exact hsame
      · rwa [advanced_of_failed .responder hr]
  | offered keyPair initiator responder pool unsaid toInitiator toResponder =>
    cases r with
    | initiator =>
      have hended : m.initiator.ended = false :=
        not_ended (r := .initiator) he (hasHungUp_eq_false (.inl responder))
      rw [advanced_of_nil .initiator toInitiator (.inr ⟨_, initiator⟩)]
      simp only [side, hended]
      exact hsame
    | responder =>
      exact .responds he keyPair initiator responder pool unsaid toInitiator toResponder
  | secretless keyPair lacks initiator responder toInitiator =>
    cases r with
    | initiator =>
      rcases initiator with hi | hi
      · rw [advanced_of_nil .initiator toInitiator (.inr ⟨_, hi⟩)]
        split
        · exact .secretless keyPair lacks (.inr ⟨_, rfl⟩) responder toInitiator
        · exact hsame
      · rwa [advanced_of_failed .initiator hi]
    | responder => rwa [advanced_of_failed .responder responder]
  | answered draws initiator responder unsaid toInitiator toResponder =>
    cases r with
    | initiator => exact .concludes he draws initiator responder unsaid toInitiator toResponder
    | responder => rwa [advanced_of_agreed .responder responder]
  | agreed draws initiator responder toward =>
    cases r with
    | initiator => rwa [advanced_of_agreed .initiator initiator]
    | responder => rwa [advanced_of_agreed .responder responder]

/-! ## Ends of streams -/

theorem EndsLast.arrived (h : EndsLast m) (r : Role) (count : Nat) :
    EndsLast (step u m (.arrived r count)) := by
  intro q hq
  cases r <;> cases q
  · obtain ⟨hw, hp⟩ := h .initiator hq
    have hdrop : m.toInitiator.drop count = [] := by
      rw [show m.toInitiator = [] from hw, List.drop_nil]
    exact ⟨hdrop, hp⟩
  · exact h .responder hq
  · exact h .initiator hq
  · obtain ⟨hw, hp⟩ := h .responder hq
    have hdrop : m.toResponder.drop count = [] := by
      rw [show m.toResponder = [] from hw, List.drop_nil]
    exact ⟨hdrop, hp⟩

theorem EndsLast.ended (h : EndsLast m) (r : Role) : EndsLast (step u m (.ended r)) := by
  rw [step]
  split
  · rename_i hend
    obtain ⟨hw, hp⟩ := Bool.and_eq_true_iff.mp hend
    intro q hq
    cases r <;> cases q
    · exact ⟨List.isEmpty_iff.mp hw, hp⟩
    · exact h .responder hq
    · exact h .initiator hq
    · exact ⟨List.isEmpty_iff.mp hw, hp⟩
  · exact h

/-- A side moves, which did not have to if it had hung up. -/
theorem EndsLast.put (h : EndsLast m) {r : Role} {next : Side × Bytes}
    (hended : next.1.ended = (m.side r).ended)
    (hover : (m.side r).hasHungUp = true → next.2 = [] ∧ next.1.hasHungUp = true) :
    EndsLast (m.put r next) := by
  intro q hq
  cases r <;> cases q
  · exact h .initiator (hended.symm.trans hq)
  · obtain ⟨hw, hp⟩ := h .responder hq
    obtain ⟨hnil, hnext⟩ := hover hp
    have hwire : m.toResponder ++ next.2 = [] := by rw [hnil, List.append_nil]; exact hw
    exact ⟨hwire, hnext⟩
  · obtain ⟨hw, hp⟩ := h .initiator hq
    obtain ⟨hnil, hnext⟩ := hover hp
    have hwire : m.toInitiator ++ next.2 = [] := by rw [hnil, List.append_nil]; exact hw
    exact ⟨hwire, hnext⟩
  · exact h .responder (hended.symm.trans hq)

theorem EndsLast.step (h : EndsLast m) (f : Step) : EndsLast (KeyExchange.step u m f) := by
  cases f with
  | arrived r count => exact h.arrived r count
  | ended r => exact h.ended r
  | advanced r =>
    rw [step_advanced]
    refine h.put (Side.ended_advance _ _ _) fun hover => ?_
    rw [Side.advance_of_hasHungUp hover]
    exact ⟨rfl, hover⟩
  | said r bytes =>
    rw [KeyExchange.step]
    split
    · rename_i keys hs
      split
      · exact h
      · rename_i hopen
        have hput : EndsLast (m.put r ({ m.side r with said := (m.side r).said ++ bytes }, bytes)) := by
          refine h.put rfl fun hover => ?_
          rw [Side.hasHungUp, hs] at hover
          rw [Bool.or_eq_true, not_or] at hopen
          exact absurd hover hopen.1
        exact hput
    · exact h
  | left r =>
    rw [KeyExchange.step]
    split
    · rename_i keys hs
      have hput : m.put r ({ m.side r with gone := true }, []) = _ := put_nil m r _
      rw [← hput]
      refine h.put rfl fun _ => ⟨rfl, ?_⟩
      rw [Side.hasHungUp]
      simp only [hs]
    · exact h

/-! ## Runs -/

theorem phase_start (u : Setup) : Phase u (start u) :=
  .offering rfl rfl (fun r => by cases r <;> rfl) (fun r => by cases r <;> rfl)
    fun r => by cases r <;> rfl

theorem Phase.step (h : Phase u m) (he : EndsLast m) (f : Step) :
    Phase u (KeyExchange.step u m f) := by
  cases f with
  | arrived r count => exact h.congr (sameView_arrived r count)
  | ended r => exact h.congr (sameView_ended r)
  | advanced r => exact h.advanced he r
  | said r bytes => exact h.said r bytes
  | left r => exact h.congr (sameView_left r)

theorem Phase.foldl (h : Phase u m) (he : EndsLast m) (steps : List Step) :
    Phase u (steps.foldl (KeyExchange.step u) m) ∧ EndsLast (steps.foldl (KeyExchange.step u) m) := by
  induction steps generalizing m with
  | nil => exact ⟨h, he⟩
  | cons f steps ih => exact ih (h.step he f) (he.step f)

theorem phase_run (u : Setup) (steps : List Step) : Phase u (run u steps) ∧ EndsLast (run u steps) :=
  (phase_start u).foldl (fun r hr => by cases r <;> exact absurd hr (by simp [start, side])) steps

/-! ## Coming to an end -/

/-- How far a side's part of the exchange has come. -/
def Stage.rank : Stage → Nat
  | .offering => 0
  | .concluding _ | .responding => 1
  | .agreed _ | .failed _ => 2

def progress (m : KeyExchange) : Nat := m.initiator.stage.rank + m.responder.stage.rank

theorem Side.isSome_outcome?_iff (s : Side) : s.outcome?.isSome = true ↔ s.stage.rank = 2 := by
  obtain ⟨stage, incoming, ended, pool, said, gone⟩ := s
  cases stage <;> simp [outcome?, Stage.rank]

theorem Stage.rank_le (stage : Stage) : stage.rank ≤ 2 := by
  cases stage <;> simp [rank]

theorem returned_iff : (∀ r, (m.side r).outcome?.isSome = true) ↔ 4 ≤ m.progress := by
  have hi := m.initiator.stage.rank_le
  have hr := m.responder.stage.rank_le
  constructor
  · intro h
    have h₁ := (Side.isSome_outcome?_iff _).mp (h .initiator)
    have h₂ := (Side.isSome_outcome?_iff _).mp (h .responder)
    simp only [side] at h₁ h₂
    rw [progress]
    omega
  · intro h r
    rw [progress] at h
    rw [Side.isSome_outcome?_iff]
    cases r
    · exact (by omega : m.initiator.stage.rank = 2)
    · exact (by omega : m.responder.stage.rank = 2)

/-- Steps of the exchange lead from here to where it has come farther. -/
def Goes (u : Setup) (m : KeyExchange) : Prop :=
  ∃ later : List Step, (∀ f ∈ later, f.isExchange = true) ∧
    m.progress < (later.foldl (step u) m).progress

/-- A side that waits for one that has failed finds the end of the stream. -/
theorem goes_of_failed {r : Role} (hp : (m.side r.peer).stage.IsFailed) (ht : m.toward r = [])
    (hs : (m.side r).stage = .responding ∨ ∃ key, (m.side r).stage = .concluding key) :
    Goes u m := by
  have hover : (m.side r.peer).hasHungUp = true := by
    obtain ⟨cause, hc⟩ := hp
    rw [Side.hasHungUp, hc]
  have hended : step u m (.ended r) = m.setSide r { m.side r with ended := true } := by
    rw [step, wire_eq_nil ht, hover]
    rfl
  have hlast : step u (step u m (.ended r)) (.advanced r) =
      m.setSide r { m.side r with ended := true, stage := .failed .peerClosed } := by
    rw [hended, advanced_of_nil (u := u)]
    · cases r <;> rfl
    · cases r
      · exact ht
      · exact ht
    · cases r
      · exact hs
      · exact hs
  refine ⟨[.ended r, .advanced r], by simp [Step.isExchange], ?_⟩
  have hrank : (m.side r).stage.rank = 1 := by
    rcases hs with hs | ⟨key, hs⟩ <;> rw [hs] <;> rfl
  have hfold : [Step.ended r, .advanced r].foldl (step u) m =
      m.setSide r { m.side r with ended := true, stage := .failed .peerClosed } := hlast
  rw [hfold]
  cases r
  · have hnext : progress (m.setSide .initiator
        { m.side .initiator with ended := true, stage := .failed .peerClosed }) =
        2 + m.responder.stage.rank := rfl
    simp only [side] at hrank
    rw [hnext, progress, hrank]
    omega
  · have hnext : progress (m.setSide .responder
        { m.side .responder with ended := true, stage := .failed .peerClosed }) =
        m.initiator.stage.rank + 2 := rfl
    simp only [side] at hrank
    rw [hnext, progress, hrank]
    omega

/-- A side that has all it needs goes on once that has arrived. -/
theorem goes_of_advance {r : Role} {next : Side × Bytes} (hs : (m.side r).stage.rank = 1)
    (ha : ({ m.side r with incoming := m.toward r } : Side).advance u.kem
      (!(m.side r.peer).hasHungUp) = next) (hn : next.1.stage.rank = 2) : Goes u m := by
  refine ⟨[.arrived r (m.wire r).length, .advanced r], by simp [Step.isExchange], ?_⟩
  have hside : (step u m (.arrived r (m.wire r).length)).side r =
      { m.side r with incoming := m.toward r } := by
    have hall : (m.wire r).take (m.wire r).length = m.wire r := List.take_length
    cases r
    · exact congrArg (fun w => { m.initiator with incoming := m.initiator.incoming ++ w }) hall
    · exact congrArg (fun w => { m.responder with incoming := m.responder.incoming ++ w }) hall
  have hpeer : (step u m (.arrived r (m.wire r).length)).side r.peer = m.side r.peer := by
    cases r <;> rfl
  have hfold : [Step.arrived r (m.wire r).length, .advanced r].foldl (step u) m =
      (step u m (.arrived r (m.wire r).length)).put r next := by
    rw [List.foldl_cons, List.foldl_cons, List.foldl_nil, step_advanced, hside, hpeer, ha]
  rw [hfold]
  cases r
  · have hnext : progress ((step u m (.arrived .initiator (m.wire .initiator).length)).put .initiator
        next) = next.1.stage.rank + m.responder.stage.rank := rfl
    simp only [side] at hs
    rw [hnext, hn, progress, hs]
    omega
  · have hnext : progress ((step u m (.arrived .responder (m.wire .responder).length)).put .responder
        next) = m.initiator.stage.rank + next.1.stage.rank := rfl
    simp only [side] at hs
    rw [hnext, hn, progress, hs]
    omega

theorem Phase.goes (h : Phase u m) (hn : m.progress < 4) : Goes u m := by
  have hfailed : ∀ {stage : Stage}, stage.IsFailed → stage.rank = 2 := by
    rintro _ ⟨cause, rfl⟩
    rfl
  cases h with
  | offering initiator responder pools unsaid toward =>
    refine ⟨[.advanced .initiator], by simp [Step.isExchange], ?_⟩
    have hopen : m.responder.hasHungUp = false := hasHungUp_eq_false (.inl responder)
    have hfold : [Step.advanced .initiator].foldl (KeyExchange.step u) m =
        m.put .initiator (m.initiator.advance u.kem !m.responder.hasHungUp) := rfl
    have hnext : ∀ next, (m.put .initiator next).progress =
        next.1.stage.rank + m.responder.stage.rank := fun _ => rfl
    rw [hfold, hnext, hopen, progress, initiator]
    cases hk : u.kem.keyPair m.initiator.pool with
    | mk outcome left =>
      cases outcome with
      | error cause =>
        rw [Side.advance_offering_error initiator hk]
        simp only [Stage.rank]
        omega
      | ok pair =>
        rw [show (!false) = true from rfl, Side.advance_offering initiator hk]
        simp only [Stage.rank]
        omega
  | keyless lacks initiator responder toResponder =>
    rcases responder with hr | hr
    · exact goes_of_failed (r := .responder) initiator toResponder (.inl hr)
    · rw [progress, hfailed initiator, hfailed hr] at hn
      exact absurd hn (by decide)
  | offered keyPair initiator responder pool unsaid toInitiator toResponder =>
    have hopen : m.initiator.hasHungUp = false := hasHungUp_eq_false (.inr (.inr ⟨_, initiator⟩))
    have hrank : (m.side .responder).stage.rank = 1 := congrArg Stage.rank responder
    refine goes_of_advance (r := .responder) hrank rfl ?_
    rw [show m.side Role.responder.peer = m.initiator from rfl, hopen]
    rename_i pair
    let s : Side := { m.responder with incoming := m.toward .responder }
    have hs : s.stage = .responding := responder
    have hi : s.incoming = Frame.write pair.publicKey.toList := toResponder
    cases hc : u.kem.encapsulate pair.publicKey s.pool with
    | mk outcome left =>
      cases outcome with
      | error cause => exact congrArg (·.1.stage.rank) (Side.advance_responding_error hs hi hc)
      | ok answer => exact congrArg (·.1.stage.rank) (Side.advance_responding hs hi hc)
  | secretless keyPair lacks initiator responder toInitiator =>
    rcases initiator with hi | hi
    · exact goes_of_failed (r := .initiator) responder toInitiator (.inr ⟨_, hi⟩)
    · rw [progress, hfailed responder, hfailed hi] at hn
      exact absurd hn (by decide)
  | answered draws initiator responder unsaid toInitiator toResponder =>
    have hrank : (m.side .initiator).stage.rank = 1 := congrArg Stage.rank initiator
    exact goes_of_advance (r := .initiator) hrank (Side.advance_concluding initiator toInitiator) rfl
  | agreed draws initiator responder toward =>
    rw [progress, initiator, responder] at hn
    exact absurd hn (by simp [Stage.rank])

/-- From everywhere the exchange can be brought to its end. -/
theorem Phase.ends (h : Phase u m) (he : EndsLast m) :
    ∃ later : List Step, (∀ f ∈ later, f.isExchange = true) ∧
      ∀ r, ((later.foldl (KeyExchange.step u) m).side r).outcome?.isSome = true := by
  induction hk : 4 - m.progress using Nat.strongRecOn generalizing m with
  | ind k ih =>
    by_cases hn : m.progress < 4
    · obtain ⟨later, hlater, hprogress⟩ := h.goes hn
      obtain ⟨h', he'⟩ := h.foldl he later
      obtain ⟨rest, hrest, hreturned⟩ := ih _ (by omega) h' he' rfl
      refine ⟨later ++ rest, ?_, ?_⟩
      · intro f hf
        exact (List.mem_append.mp hf).elim (hlater f) (hrest f)
      · rwa [List.foldl_append]
    · exact ⟨[], by simp, (returned_iff (m := m)).mpr (by omega)⟩

theorem Phase.returned_of_atRest (h : Phase u m) (hr : AtRest u m) (r : Role) :
    (m.side r).outcome?.isSome = true := by
  have hsame : ∀ later : List Step, (∀ f ∈ later, f.isExchange = true) →
      later.foldl (KeyExchange.step u) m = m := by
    intro later
    induction later with
    | nil => exact fun _ => rfl
    | cons f later ih =>
      intro hf
      rw [List.foldl_cons, hr f (hf f List.mem_cons_self)]
      exact ih fun g hg => hf g (List.mem_cons_of_mem _ hg)
  by_cases hn : m.progress < 4
  · obtain ⟨later, hlater, hprogress⟩ := h.goes hn
    rw [hsame later hlater] at hprogress
    exact absurd hprogress (Nat.lt_irrefl _)
  · exact returned_iff.mpr (by omega) r

/-! ## Outcomes -/

/-- The keys of both sides after an exchange that nothing has failed in. -/
structure Alike (u : Setup) (m : KeyExchange) (initiator responder : SessionKeys) : Prop where
  iv : initiator.iv = responder.iv
  /-- Either key is cut from what the side's key encapsulation gives as the secret. -/
  secrets : ∃ pair wrapped secret iv, Draws u pair wrapped secret iv ∧
    SessionKeys.ofSecret (u.kem.decapsulate pair.secretKey wrapped).toList iv = .ok initiator ∧
    SessionKeys.ofSecret secret.toList iv = .ok responder ∧
    (u.kem.decapsulate pair.secretKey wrapped = secret → initiator = responder)
  /-- What a side still has to read begins with the first byte that was said on the session. -/
  toward : ∀ r, (m.side r).incoming ++ m.wire r = (m.side r.peer).said

theorem Draws.not_lacksKey {pair : KeyPair} {wrapped : WrappedSecret} {secret : SharedSecret}
    {iv : Aead.Nonce} (h : Draws u pair wrapped secret iv) : ¬u.LacksKey := by
  rintro ⟨cause, left, hl⟩
  obtain ⟨left', hk⟩ := h.keyPair
  exact absurd (hl.symm.trans hk) (by simp)

theorem Draws.not_lacksSecret {pair pair' : KeyPair} {wrapped : WrappedSecret}
    {secret : SharedSecret} {iv : Aead.Nonce} (h : Draws u pair wrapped secret iv)
    (hk : ∃ left, u.kem.keyPair (u.pool .initiator) = (.ok pair', left)) :
    ¬u.LacksSecret pair' := by
  rintro ⟨cause, left, hl⟩
  obtain ⟨left₁, hk₁⟩ := h.keyPair
  obtain ⟨left₂, hk₂⟩ := hk
  obtain ⟨left', hc, -⟩ := h.answer
  obtain rfl : pair = pair' := by
    have hpair := congrArg Prod.fst (hk₁.symm.trans hk₂)
    exact Except.ok.inj hpair
  exact absurd (hl.symm.trans hc) (by simp)

theorem ofSecret_toList (secret : SharedSecret) (iv : Aead.Nonce) :
    SessionKeys.ofSecret secret.toList iv = .ok ⟨secret, iv⟩ := by
  have hcut : Bytes.cut? 32 secret.toList = some (secret, []) := by
    have h := Bytes.cut?_append secret []
    rwa [List.append_nil] at h
  rw [SessionKeys.ofSecret, SessionKeys.keyOf, hcut]
  rfl

theorem outcome?_of_isFailed {s : Side} (h : s.stage.IsFailed) :
    ∃ cause, s.outcome? = some (.error cause) := by
  obtain ⟨cause, hc⟩ := h
  exact ⟨cause, by rw [Side.outcome?, hc]⟩

/-- Both sides come out alike once both have. -/
theorem Phase.alike (h : Phase u m) {i r : Except Failure SessionKeys}
    (hi : m.initiator.outcome? = some i) (hr : m.responder.outcome? = some r) :
    (u.Succeeds ∧ ∃ k₁ k₂, i = .ok k₁ ∧ r = .ok k₂ ∧ Alike u m k₁ k₂) ∨
      (¬u.Succeeds ∧ ∃ c₁ c₂, i = .error c₁ ∧ r = .error c₂) := by
  cases h with
  | offering initiator responder pools unsaid toward =>
    rw [Side.outcome?, initiator] at hi
    exact absurd hi (by simp)
  | keyless lacks initiator responder toResponder =>
    rcases responder with hs | hs
    · rw [Side.outcome?, hs] at hr
      exact absurd hr (by simp)
    · obtain ⟨c₁, h₁⟩ := outcome?_of_isFailed initiator
      obtain ⟨c₂, h₂⟩ := outcome?_of_isFailed hs
      refine .inr ⟨?_, c₁, c₂, Option.some.inj (hi.symm.trans h₁), Option.some.inj (hr.symm.trans h₂)⟩
      rintro ⟨pair, wrapped, secret, iv, hd⟩
      exact hd.not_lacksKey lacks
  | offered keyPair initiator responder pool unsaid toInitiator toResponder =>
    rw [Side.outcome?, initiator] at hi
    exact absurd hi (by simp)
  | secretless keyPair lacks initiator responder toInitiator =>
    rcases initiator with hs | hs
    · rw [Side.outcome?, hs] at hi
      exact absurd hi (by simp)
    · obtain ⟨c₁, h₁⟩ := outcome?_of_isFailed hs
      obtain ⟨c₂, h₂⟩ := outcome?_of_isFailed responder
      refine .inr ⟨?_, c₁, c₂, Option.some.inj (hi.symm.trans h₁), Option.some.inj (hr.symm.trans h₂)⟩
      rintro ⟨pair', wrapped, secret, iv, hd⟩
      exact hd.not_lacksSecret keyPair lacks
  | answered draws initiator responder unsaid toInitiator toResponder =>
    rw [Side.outcome?, initiator] at hi
    exact absurd hi (by simp)
  | agreed draws initiator responder toward =>
    rw [Side.outcome?, initiator] at hi
    rw [Side.outcome?, responder] at hr
    refine .inl ⟨⟨_, _, _, _, draws⟩, _, _, (Option.some.inj hi).symm, (Option.some.inj hr).symm,
      rfl, ?_, toward⟩
    refine ⟨_, _, _, _, draws, ofSecret_toList _ _, ofSecret_toList _ _, fun hsecret => ?_⟩
    rw [hsecret]

/-- In whatever order bytes arrive and the sides go on, both sides get their keys or neither does, and
whether they do is up to the random sources alone. -/
theorem outcome_run (u : Setup) (steps : List Step) :
    (∀ i r, (run u steps).initiator.outcome? = some i → (run u steps).responder.outcome? = some r →
      (u.Succeeds ∧ ∃ k₁ k₂, i = .ok k₁ ∧ r = .ok k₂ ∧ Alike u (run u steps) k₁ k₂) ∨
        (¬u.Succeeds ∧ ∃ c₁ c₂, i = .error c₁ ∧ r = .error c₂)) ∧
      (AtRest u (run u steps) → ∀ r, ((run u steps).side r).outcome?.isSome = true) ∧
      ∃ later : List Step, (∀ f ∈ later, f.isExchange = true) ∧
        ∀ r, ((run u (steps ++ later)).side r).outcome?.isSome = true := by
  obtain ⟨h, he⟩ := phase_run u steps
  refine ⟨fun i r hi hr => h.alike hi hr, fun hr => h.returned_of_atRest hr, ?_⟩
  obtain ⟨later, hlater, hreturned⟩ := h.ends he
  refine ⟨later, hlater, ?_⟩
  rwa [run, List.foldl_append]

end PeerChat.KeyExchange
