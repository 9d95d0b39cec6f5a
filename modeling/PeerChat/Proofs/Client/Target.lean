import PeerChat.Client.Target
import PeerChat.Proofs.Wire.Name

/-!
# Calling by name and by endpoint

A name resolves to the endpoint of the first peer of that name (`resolveTarget_eq_ok_iff`).  What is
written of a peer behind its name is read as an endpoint that is typed would be (`Peer.parse_named`), so
either way of calling reaches the same endpoint or fails for the same fault (`resolve_eq_parse`).
-/

namespace PeerChat

/-- No peer before this one in the list has its name. -/
def Peer.FirstIn (p : Peer) (peers : List Peer) : Prop :=
  ∃ before after, peers = before ++ p :: after ∧ ∀ q ∈ before, q.name ≠ p.name

/-- Faults of one kind, found in the same text where it is a text that they blame. -/
inductive WireError.Alike : WireError → WireError → Prop
  | malformed (this that : String) : Alike (.malformed this) (.malformed that)
  | invalidAddress (text : String) : Alike (.invalidAddress text) (.invalidAddress text)
  | invalidPort (text : String) : Alike (.invalidPort text) (.invalidPort text)

variable {peers : List Peer} {p : Peer} {e : Endpoint} {name own target : String}

/-! ## The first of a name -/

theorem find?_eq_some_iff :
    (peers.find? fun p => p.name = target) = some p ↔ p.name = target ∧ p.FirstIn peers := by
  rw [List.find?_eq_some_iff_append]
  constructor
  · rintro ⟨hname, before, after, rfl, hbefore⟩
    obtain rfl : p.name = target := by simpa using hname
    exact ⟨rfl, before, after, rfl, fun q hq => by simpa using hbefore q hq⟩
  · rintro ⟨rfl, before, after, rfl, hbefore⟩
    exact ⟨by simp, before, after, rfl, fun q hq => by simpa using hbefore q hq⟩

theorem Peer.FirstIn.mem (h : p.FirstIn peers) : p ∈ peers := by
  obtain ⟨before, after, rfl, -⟩ := h
  exact List.mem_append_right before (List.mem_cons_self ..)

theorem Peer.exists_firstIn (h : p ∈ peers) : ∃ q : Peer, q.name = p.name ∧ q.FirstIn peers := by
  cases hq : peers.find? fun q => q.name = p.name with
  | none => exact absurd (List.find?_eq_none.mp hq p h) (by simp)
  | some q => exact ⟨q, find?_eq_some_iff.mp hq⟩

/-- Where names are told apart, every peer is the first of its name. -/
theorem Peer.firstIn_of_nodup (hnodup : (peers.map (·.name)).Nodup) (h : p ∈ peers) :
    p.FirstIn peers := by
  obtain ⟨before, after, rfl⟩ := List.append_of_mem h
  refine ⟨before, after, rfl, fun q hq hname => ?_⟩
  rw [List.map_append, List.map_cons, List.nodup_append] at hnodup
  exact hnodup.2.2 q.name (List.mem_map_of_mem hq) p.name (List.mem_cons_self ..) hname

theorem resolveTarget_eq_ok_iff : resolveTarget peers own target = .ok e ↔
    target ≠ own ∧ ∃ p : Peer, p.name = target ∧ p.FirstIn peers ∧ p.endpoint = e := by
  unfold resolveTarget
  split
  · rename_i hown
    simp [hown]
  · rename_i hown
    cases hp : peers.find? fun p => p.name = target with
    | none =>
      refine ⟨fun h => absurd h (by simp), ?_⟩
      rintro ⟨-, p, hname, hfirst, -⟩
      rw [find?_eq_some_iff.mpr ⟨hname, hfirst⟩] at hp
      exact absurd hp (by simp)
    | some q =>
      have hq := find?_eq_some_iff.mp hp
      refine ⟨fun h => ⟨hown, q, hq.1, hq.2, Except.ok.inj h⟩, ?_⟩
      rintro ⟨-, p, hname, hfirst, rfl⟩
      rw [find?_eq_some_iff.mpr ⟨hname, hfirst⟩] at hp
      rw [Option.some.inj hp]

/-- Behind a proper name, a line is read as an endpoint is, up to the words for a line of the wrong
length. -/
theorem Peer.parse_named (hn : isName name = true) (rest : String) :
    (∃ e : Endpoint, Endpoint.parse rest = .ok e ∧
      parse (name ++ " " ++ rest) = .ok ⟨name, e.address, e.port⟩) ∨
    ∃ fault fault' : WireError, Endpoint.parse rest = .error fault ∧
      parse (name ++ " " ++ rest) = .error fault' ∧ fault'.Alike fault := by
  have hname : readName name = .ok name := readName_eq_ok_iff.mpr ⟨hn, rfl⟩
  rw [parse, Text.words_append (isWord_of_isName hn), Endpoint.parse]
  match Text.words rest with
  | [] | [_] | _ :: _ :: _ :: _ => exact .inr ⟨_, _, rfl, rfl, .malformed _ _⟩
  | [address, port] =>
    simp only [hname]
    cases ha : readAddress address with
    | error fault =>
      unfold readAddress at ha
      split at ha
      · exact absurd ha (by simp)
      · rw [← Except.error.inj ha]
        exact .inr ⟨_, _, rfl, rfl, .invalidAddress address⟩
    | ok a =>
      cases hp : readPort port with
      | error fault =>
        unfold readPort at hp
        split at hp
        · exact absurd hp (by simp)
        · rw [← Except.error.inj hp]
          exact .inr ⟨_, _, rfl, rfl, .invalidPort port⟩
      | ok n => exact .inl ⟨⟨a, n⟩, rfl, rfl⟩

/-- The line of a peer can be read exactly where what follows the name is an endpoint.  It is then the
endpoint to which the name resolves wherever the peer is the first of its name; otherwise the line has
the fault that the endpoint has. -/
theorem resolve_eq_parse (hn : isName name = true) (hown : own ≠ name) (rest : String) :
    ((∃ p, Peer.parse (name ++ " " ++ rest) = .ok p) ↔ ∃ e, Endpoint.parse rest = .ok e) ∧
    (∀ p, Peer.parse (name ++ " " ++ rest) = .ok p → p.name = name ∧
      ∀ peers, p.FirstIn peers →
        ∃ e, resolveTarget peers own name = .ok e ∧ Endpoint.parse rest = .ok e) ∧
    ∀ fault, Peer.parse (name ++ " " ++ rest) = .error fault →
      ∃ fault', Endpoint.parse rest = .error fault' ∧ fault.Alike fault' := by
  rcases Peer.parse_named hn rest with ⟨e, he, hp⟩ | ⟨fault, fault', he, hp, halike⟩
  · rw [he, hp]
    refine ⟨⟨fun _ => ⟨e, rfl⟩, fun _ => ⟨_, rfl⟩⟩, fun p h => ?_, fun _ h => absurd h (by simp)⟩
    obtain rfl := Except.ok.inj h
    refine ⟨rfl, fun peers hfirst => ⟨e, ?_, rfl⟩⟩
    exact resolveTarget_eq_ok_iff.mpr ⟨hown.symm, _, rfl, hfirst, rfl⟩
  · rw [he, hp]
    refine ⟨?_, fun _ h => absurd h (by simp), fun f h => ?_⟩
    · exact ⟨fun ⟨_, h⟩ => absurd h (by simp), fun ⟨_, h⟩ => absurd h (by simp)⟩
    · obtain rfl := Except.error.inj h
      exact ⟨fault, rfl, halike⟩

theorem resolve_eq_parse_bob :
    isName "bob" = true ∧ "alice" ≠ "bob" ∧
      ∃ e, resolveTarget [⟨"carol", .v4 10 0 0 3, 6003⟩, ⟨"bob", .v4 10 0 0 2, 6002⟩,
          ⟨"bob", .v4 10 0 0 9, 6009⟩] "alice" "bob" = .ok e ∧
        Endpoint.parse "\t10.0.0.2  +06002 " = .ok e := by
  have hname : isName "bob" = true := by decide
  have hp : Peer.parse ("bob" ++ " " ++ "\t10.0.0.2  +06002 ") =
      .ok ⟨"bob", .v4 10 0 0 2, 6002⟩ := by decide +kernel
  refine ⟨hname, by decide, ?_⟩
  obtain ⟨-, hresolve, -⟩ := resolve_eq_parse hname (show "alice" ≠ "bob" by decide)
    "\t10.0.0.2  +06002 "
  exact (hresolve _ hp).2 _ ⟨[⟨"carol", .v4 10 0 0 3, 6003⟩], [⟨"bob", .v4 10 0 0 9, 6009⟩], rfl,
    by decide⟩

end PeerChat
