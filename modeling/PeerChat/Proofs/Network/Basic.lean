import PeerChat.Network
import PeerChat.Proofs.Network.Stage

/-!
# What a step leaves alone

A client's turn changes nothing at the server and no other client's connection (`Acts`), and only
what a client does to its connection to the server matters for it (`turn_eq`).
-/

namespace PeerChat.Network

variable {ι : Type} {n n' : Network ι} {i j : ι} {id other : ConnectionId}

/-! ## Fields -/

section Fields

variable (n : Network ι)

@[simp] theorem server_onChannel (f : Channel → Channel) : (n.onChannel id f).server = n.server := rfl

@[simp] theorem client_onChannel (f : Channel → Channel) : (n.onChannel id f).client = n.client := rfl

@[simp] theorem place_onChannel (f : Channel → Channel) : (n.onChannel id f).place = n.place := rfl

@[simp] theorem holder_onChannel (f : Channel → Channel) : (n.onChannel id f).holder = n.holder := rfl

@[simp] theorem intact_onChannel (f : Channel → Channel) : (n.onChannel id f).intact = n.intact := rfl

@[simp] theorem channel_onChannel (f : Channel → Channel) :
    (n.onChannel id f).channel id = f (n.channel id) := if_pos rfl

theorem channel_onChannel_of_ne (f : Channel → Channel) (h : other ≠ id) :
    (n.onChannel id f).channel other = n.channel other := if_neg h

theorem onChannel_self (n : Network ι) (id : ConnectionId) : (n.onChannel id fun ch => ch) = n := by
  unfold onChannel
  congr 1
  funext j
  by_cases h : j = id
  · rw [if_pos h]
  · rw [if_neg h]

theorem onChannel_onChannel (n : Network ι) (id : ConnectionId) (f g : Channel → Channel) :
    (n.onChannel id f).onChannel id g = n.onChannel id fun ch => g (f ch) := by
  unfold onChannel
  congr 1
  funext j
  by_cases h : j = id
  · rw [if_pos h, if_pos h]
    exact congrArg g (if_pos h)
  · rw [if_neg h, if_neg h]
    exact if_neg h

theorem intact_queue {m : ServerMessage} (h : (n.queue id m).intact = true) :
    n.intact = true ∧ n.server.hasRoom id = true := by
  unfold queue at h
  split at h
  · rename_i hr
    exact ⟨h, hr⟩
  · exact absurd h (by simp)

variable [DecidableEq ι]

@[simp] theorem client_setClient (c : Client) : (n.setClient i c).client i = c := if_pos rfl

theorem client_setClient_of_ne (c : Client) (h : j ≠ i) : (n.setClient i c).client j = n.client j :=
  if_neg h

@[simp] theorem server_setClient (c : Client) : (n.setClient i c).server = n.server := rfl

@[simp] theorem channel_setClient (c : Client) : (n.setClient i c).channel = n.channel := rfl

@[simp] theorem place_setClient (c : Client) : (n.setClient i c).place = n.place := rfl

@[simp] theorem holder_setClient (c : Client) : (n.setClient i c).holder = n.holder := rfl

@[simp] theorem intact_setClient (c : Client) : (n.setClient i c).intact = n.intact := rfl

@[simp] theorem place_setPlace (place : Place) : (n.setPlace i place).place i = place := if_pos rfl

theorem place_setPlace_of_ne (place : Place) (h : j ≠ i) :
    (n.setPlace i place).place j = n.place j := if_neg h

@[simp] theorem server_setPlace (place : Place) : (n.setPlace i place).server = n.server := rfl

@[simp] theorem channel_setPlace (place : Place) : (n.setPlace i place).channel = n.channel := rfl

@[simp] theorem client_setPlace (place : Place) : (n.setPlace i place).client = n.client := rfl

@[simp] theorem holder_setPlace (place : Place) : (n.setPlace i place).holder = n.holder := rfl

@[simp] theorem intact_setPlace (place : Place) : (n.setPlace i place).intact = n.intact := rfl

theorem setPlace_setPlace (p q : Place) : (n.setPlace i p).setPlace i q = n.setPlace i q := by
  unfold setPlace
  congr 1
  funext k
  by_cases h : k = i
  · rw [if_pos h, if_pos h]
  · rw [if_neg h, if_neg h]
    exact if_neg h

theorem setClient_setClient (c d : Client) : (n.setClient i c).setClient i d = n.setClient i d := by
  unfold setClient
  congr 1
  funext k
  by_cases h : k = i
  · rw [if_pos h, if_pos h]
  · rw [if_neg h, if_neg h]
    exact if_neg h

end Fields

variable [DecidableEq ι]

/-! ## Turns -/

theorem route_of_not_isServer {e : Effect} (h : e.isServer = false) : n.route i e = n := by
  cases e with
  | connectServer => exact absurd h (by simp [Effect.isServer])
  | sendServer bytes => exact absurd h (by simp [Effect.isServer])
  | closeServer => exact absurd h (by simp [Effect.isServer])
  | print text => rfl
  | listen port => rfl
  | dial endpoint => rfl
  | send party bytes => rfl
  | close party => rfl

def routeAll (n : Network ι) (i : ι) (effects : List Effect) : Network ι :=
  effects.foldl (fun n e => n.route i e) n

theorem turn_eq (n : Network ι) (i : ι) (t : Turn) :
    n.turn i t = (n.setClient i t.client).routeAll i t.toServer := by
  have hfold : ∀ (effects : List Effect) (n : Network ι),
      effects.foldl (fun n e => n.route i e) n = n.routeAll i (effects.filter Effect.isServer) := by
    intro effects
    induction effects with
    | nil => exact fun n => rfl
    | cons e effects ih =>
      intro n
      cases he : e.isServer with
      | true =>
        rw [List.filter_cons_of_pos he]
        exact ih _
      | false =>
        rw [List.filter_cons_of_neg (by simp [he]), List.foldl_cons, route_of_not_isServer he]
        exact ih n
  exact hfold t.effects _

/-- What a client sends is behind what is on its way. -/
def send (n : Network ι) (id : ConnectionId) (bytes : Bytes) : Network ι :=
  n.onChannel id fun ch => { ch with up := ch.up ++ bytes }

/-- The client has ended the connection. -/
def hangUp (n : Network ι) (i : ι) (id : ConnectionId) : Network ι :=
  (n.onChannel id fun ch => { ch with upEnded := true }).setPlace i .none

theorem route_sendServer (h : n.place i = .connected id) (bytes : Bytes) :
    n.route i (.sendServer bytes) = n.send id bytes := by
  unfold route
  simp only [h]
  rfl

theorem route_closeServer (h : n.place i = .connected id) :
    n.route i .closeServer = n.hangUp i id := by
  unfold route
  simp only [h]
  rfl

theorem routeAll_commands (h : n.place i = .connected id) (commands : List Command) :
    n.routeAll i (commands.map fun c => .sendServer c.bytes) =
      n.send id (Command.bytesAll commands) := by
  induction commands generalizing n with
  | nil =>
    have hsame : n.send id [] = n.onChannel id fun ch => ch := by
      unfold send
      simp only [List.append_nil]
    exact (hsame.trans (onChannel_self n id)).symm
  | cons c commands ih =>
    have hroute : n.routeAll i ((c :: commands).map fun c => .sendServer c.bytes) =
        (n.send id c.bytes).routeAll i (commands.map fun c => .sendServer c.bytes) := by
      rw [List.map_cons, routeAll, List.foldl_cons, route_sendServer h]
      rfl
    rw [hroute, ih (n := n.send id c.bytes) h]
    unfold send
    rw [onChannel_onChannel]
    simp only [List.append_assoc]
    rfl

/-- The client sends its last bytes and leaves. -/
theorem routeAll_withdraw (h : n.place i = .connected id) (bytes : Bytes) :
    n.routeAll i [.sendServer bytes, .closeServer] =
      (n.onChannel id fun ch => { ch with up := ch.up ++ bytes, upEnded := true }).setPlace i
        .none := by
  have hroute : n.routeAll i [.sendServer bytes, .closeServer] =
      (n.route i (.sendServer bytes)).route i .closeServer := rfl
  rw [hroute, route_sendServer h, route_closeServer (n := n.send id bytes) h]
  unfold hangUp send
  rw [onChannel_onChannel]

theorem routeAll_return (h : n.place i = .connected id) (bytes : Bytes) :
    n.routeAll i [.sendServer bytes, .closeServer, .connectServer] =
      (n.onChannel id fun ch => { ch with up := ch.up ++ bytes, upEnded := true }).setPlace i
        .reaching := by
  have hroute : n.routeAll i [.sendServer bytes, .closeServer, .connectServer] =
      (n.routeAll i [.sendServer bytes, .closeServer]).setPlace i .reaching := rfl
  rw [hroute, routeAll_withdraw h, setPlace_setPlace]

/-- From `n` to `n'` nothing has changed but client `i`, its place and what it sends. -/
structure Acts (i : ι) (n n' : Network ι) : Prop where
  server : n'.server = n.server
  holder : n'.holder = n.holder
  intact : n'.intact = n.intact
  client : ∀ j, j ≠ i → n'.client j = n.client j
  place : ∀ j, j ≠ i → n'.place j = n.place j
  jobs : ∀ id, (n'.channel id).jobs = (n.channel id).jobs
  channel : ∀ id, n.place i ≠ .connected id → n'.channel id = n.channel id
  stays : ∀ id, n'.place i = .connected id → n.place i = .connected id

namespace Acts

omit [DecidableEq ι] in
theorem refl (n : Network ι) : Acts i n n :=
  ⟨rfl, rfl, rfl, fun _ _ => rfl, fun _ _ => rfl, fun _ => rfl, fun _ _ => rfl, fun _ h => h⟩

omit [DecidableEq ι] in
theorem trans {m : Network ι} (h : Acts i n n') (g : Acts i n' m) : Acts i n m where
  server := g.server.trans h.server
  holder := g.holder.trans h.holder
  intact := g.intact.trans h.intact
  client j hj := (g.client j hj).trans (h.client j hj)
  place j hj := (g.place j hj).trans (h.place j hj)
  jobs id := (g.jobs id).trans (h.jobs id)
  channel id hid := (g.channel id fun hp => hid (h.stays id hp)).trans (h.channel id hid)
  stays id hid := h.stays id (g.stays id hid)

theorem setClient (n : Network ι) (c : Client) : Acts i n (n.setClient i c) :=
  ⟨rfl, rfl, rfl, fun _ hj => client_setClient_of_ne n c hj, fun _ _ => rfl, fun _ => rfl,
    fun _ _ => rfl, fun _ h => h⟩

theorem setPlace (n : Network ι) {place : Place} (h : ∀ id, place ≠ .connected id) :
    Acts i n (n.setPlace i place) := by
  refine ⟨rfl, rfl, rfl, fun _ _ => rfl, fun _ hj => place_setPlace_of_ne n place hj, fun _ => rfl,
    fun _ _ => rfl, fun id hid => ?_⟩
  rw [place_setPlace] at hid
  exact absurd hid (h id)

omit [DecidableEq ι] in
theorem onChannel (h : n.place i = .connected id) {f : Channel → Channel}
    (hf : ∀ ch, (f ch).jobs = ch.jobs) : Acts i n (n.onChannel id f) := by
  refine ⟨rfl, rfl, rfl, fun _ _ => rfl, fun _ _ => rfl, fun j => ?_, fun j hj => ?_, fun _ h => h⟩
  · by_cases hj : j = id
    · rw [hj, channel_onChannel, hf]
    · rw [channel_onChannel_of_ne n f hj]
  · refine channel_onChannel_of_ne n f fun he => hj ?_
    rw [he, h]

theorem route (n : Network ι) (e : Effect) : Acts i n (n.route i e) := by
  unfold Network.route
  split
  · exact setPlace n (by simp)
  · split
    · rename_i id h
      exact onChannel h fun ch => rfl
    · exact refl n
  · split
    · rename_i id h
      have hchannel : Acts i n (n.onChannel id fun ch => { ch with upEnded := true }) :=
        onChannel h fun ch => rfl
      exact hchannel.trans (setPlace _ (by simp))
    · exact setPlace n (by simp)
  · exact refl n

theorem turn (n : Network ι) (i : ι) (t : Turn) : Acts i n (n.turn i t) := by
  have hall : ∀ (effects : List Effect) (n : Network ι), Acts i n (n.routeAll i effects) := by
    intro effects
    induction effects with
    | nil => exact fun n => refl n
    | cons e effects ih => exact fun n => (route n e).trans (ih _)
  rw [turn_eq]
  exact (setClient n t.client).trans (hall _ _)

end Acts

end PeerChat.Network
