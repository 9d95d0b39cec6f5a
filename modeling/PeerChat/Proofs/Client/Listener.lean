import PeerChat.Client.Link
import PeerChat.Proofs.Wire.Announcement

/-!
# What a listener makes of announcements

However the announcements arrive, a link ends up with the same list and hears of the same newcomers
as one that reads them line by line (`Link.receive_spec`): lists are folded only where another list
follows.
-/

namespace PeerChat

/-! ## Updates -/

/-- The list that is known after updates. -/
def latest (peers : List Peer) : List Update → List Peer
  | [] => peers
  | .peerList list :: later => latest list later
  | _ :: later => latest peers later

/-- The newcomers that updates tell of. -/
def alerts (updates : List Update) : List String :=
  updates.filterMap fun
    | .newcomer name => some name
    | _ => none

theorem latest_append (peers : List Peer) (us vs : List Update) :
    latest peers (us ++ vs) = latest (latest peers us) vs := by
  induction us generalizing peers with
  | nil => rfl
  | cons u us ih =>
    cases u with
    | peerList list => exact ih list
    | newcomer name => exact ih peers
    | nameTaken => exact ih peers
    | invalidCommand => exact ih peers
    | serverFull => exact ih peers
    | remark text => exact ih peers

theorem alerts_append (us vs : List Update) : alerts (us ++ vs) = alerts us ++ alerts vs :=
  List.filterMap_append

/-- Updates that come to the same list and tell of the same newcomers. -/
structure Alike (us vs : List Update) : Prop where
  latest_eq : ∀ peers, latest peers us = latest peers vs
  alerts_eq : alerts us = alerts vs

namespace Alike

theorem refl (us : List Update) : Alike us us := ⟨fun _ => rfl, rfl⟩

theorem symm {us vs : List Update} (h : Alike us vs) : Alike vs us :=
  ⟨fun peers => (h.latest_eq peers).symm, h.alerts_eq.symm⟩

theorem trans {us vs ws : List Update} (h : Alike us vs) (h' : Alike vs ws) : Alike us ws :=
  ⟨fun peers => (h.latest_eq peers).trans (h'.latest_eq peers), h.alerts_eq.trans h'.alerts_eq⟩

theorem append_left {us vs : List Update} (ws : List Update) (h : Alike us vs) :
    Alike (ws ++ us) (ws ++ vs) := by
  refine ⟨fun peers => ?_, ?_⟩
  · rw [latest_append, latest_append, h.latest_eq]
  · rw [alerts_append, alerts_append, h.alerts_eq]

theorem append_right {us vs : List Update} (ws : List Update) (h : Alike us vs) :
    Alike (us ++ ws) (vs ++ ws) := by
  refine ⟨fun peers => ?_, ?_⟩
  · rw [latest_append, latest_append, h.latest_eq]
  · rw [alerts_append, alerts_append, h.alerts_eq]

end Alike

/-- Updates of which only lists are left out that others follow. -/
structure Folded (us vs : List Update) : Prop extends Alike us vs where
  subset : vs ⊆ us

namespace Folded

theorem refl (us : List Update) : Folded us us := ⟨.refl us, fun _ hm => hm⟩

theorem trans {us vs ws : List Update} (h : Folded us vs) (h' : Folded vs ws) : Folded us ws :=
  ⟨h.toAlike.trans h'.toAlike, fun _ hm => h.subset (h'.subset hm)⟩

theorem append_left {us vs : List Update} (ws : List Update) (h : Folded us vs) :
    Folded (ws ++ us) (ws ++ vs) :=
  ⟨h.toAlike.append_left ws, List.append_subset.mpr
    ⟨List.subset_append_left ws us, List.subset_append_of_subset_right ws h.subset⟩⟩

theorem append_right {us vs : List Update} (ws : List Update) (h : Folded us vs) :
    Folded (us ++ ws) (vs ++ ws) :=
  ⟨h.toAlike.append_right ws, List.append_subset.mpr
    ⟨List.subset_append_of_subset_left ws h.subset, List.subset_append_right us ws⟩⟩

/-- A list is only held back until the next one. -/
theorem peerList (list list' : List Peer) (us : List Update) :
    Folded (.peerList list :: .peerList list' :: us) (.peerList list' :: us) :=
  ⟨⟨fun _ => rfl, rfl⟩, List.subset_cons_self _ _⟩

end Folded

/-- Updates of which lists are left out, each of them right before another list. -/
inductive FoldsTo : List Update → List Update → Prop
  | nil : FoldsTo [] []
  | keep {us vs : List Update} (u : Update) : FoldsTo us vs → FoldsTo (u :: us) (u :: vs)
  | leave {us vs : List Update} (list : List Peer) {next : List Peer} :
      FoldsTo (.peerList next :: us) vs → FoldsTo (.peerList list :: .peerList next :: us) vs

namespace FoldsTo

variable {us vs ws : List Update}

theorem append_left (ws : List Update) (h : FoldsTo us vs) : FoldsTo (ws ++ us) (ws ++ vs) := by
  induction ws with
  | nil => exact h
  | cons u ws ih => exact .keep u ih

theorem refl (us : List Update) : FoldsTo us us := by
  have h := FoldsTo.nil.append_left us
  rwa [List.append_nil] at h

/-- Where a list comes first, one did before. -/
theorem exists_cons {list : List Peer} (h : FoldsTo us (.peerList list :: vs)) :
    ∃ first later, us = .peerList first :: later := by
  cases h with
  | keep u h => exact ⟨list, _, rfl⟩
  | leave first h => exact ⟨first, _, rfl⟩

theorem trans (h : FoldsTo us vs) (h' : FoldsTo vs ws) : FoldsTo us ws := by
  induction h generalizing ws with
  | nil => exact h'
  | keep u h ih =>
    cases h' with
    | keep _ h' => exact .keep u (ih h')
    | leave list h' =>
      obtain ⟨first, later, rfl⟩ := h.exists_cons
      exact .leave list (ih h')
  | leave list h ih => exact .leave list (ih h')

theorem folded (h : FoldsTo us vs) : Folded us vs := by
  induction h with
  | nil => exact .refl []
  | keep u h ih => exact ih.append_left [u]
  | leave list h ih => exact (Folded.peerList list _ _).trans ih

end FoldsTo

/-! ## Announcements line by line -/

namespace Listing

/-- The listing after announcements, and what they tell one after the other. -/
def pushAll (l : Listing) : List Announcement → Listing × List Update
  | [] => (l, [])
  | a :: later =>
    let (next, update) := l.push a
    let (last, updates) := next.pushAll later
    (last, update.toList ++ updates)

theorem pushAll_append (l : Listing) (as bs : List Announcement) :
    l.pushAll (as ++ bs) =
      (((l.pushAll as).1.pushAll bs).1, (l.pushAll as).2 ++ ((l.pushAll as).1.pushAll bs).2) := by
  induction as generalizing l with
  | nil => rfl
  | cons a as ih => simp only [List.cons_append, pushAll, ih, List.append_assoc]

end Listing

/-! ## Reading -/

namespace Listener

/-- The list that is held back. -/
def held (l : Listener) : List Update :=
  match l.pending with
  | some peers => [.peerList peers]
  | none => []

/-- What is still to be told, once `as` have been read. -/
def ahead (l : Listener) (as : List Announcement) : List Update :=
  l.held ++ (l.listing.pushAll as).2

theorem flush_eq (l : Listener) : l.flush = ({ l with pending := none }, l.held) := by
  obtain ⟨unread, listing, pending, finished⟩ := l
  cases pending with
  | none => rfl
  | some peers => rfl

/-- Everything but a list lets go of the list that is held back. -/
theorem takeUpdate_spec (l : Listener) (update : Option Update) (us : List Update) :
    (∃ pending, (l.takeUpdate update).1 = { l with pending }) ∧
      FoldsTo (l.held ++ (update.toList ++ us))
        ((l.takeUpdate update).2 ++ ((l.takeUpdate update).1.held ++ us)) := by
  have hother : ∀ other, (∀ peers, other ≠ .peerList peers) →
      (∃ pending, (l.takeUpdate (some other)).1 = { l with pending }) ∧
        FoldsTo (l.held ++ ([other] ++ us))
          ((l.takeUpdate (some other)).2 ++ ((l.takeUpdate (some other)).1.held ++ us)) := by
    intro other hne
    have h : l.takeUpdate (some other) = ({ l with pending := none }, l.held ++ [other]) := by
      rw [takeUpdate, flush_eq]
      exact hne
    rw [h, ← List.append_assoc]
    exact ⟨⟨none, rfl⟩, .refl _⟩
  cases update with
  | none => exact ⟨⟨l.pending, rfl⟩, .refl _⟩
  | some update =>
    cases update with
    | peerList peers =>
      refine ⟨⟨some peers, rfl⟩, ?_⟩
      rw [held]
      split
      · exact .leave _ (.refl _)
      · exact .refl _
    | newcomer name => exact hother _ (by simp)
    | nameTaken => exact hother _ (by simp)
    | invalidCommand => exact hother _ (by simp)
    | serverFull => exact hother _ (by simp)
    | remark text => exact hother _ (by simp)

theorem takeItems_spec {l : Listener} (hf : l.finished = false) {as : List Announcement}
    (ha : ∀ a ∈ as, a.Valid) :
    (l.takeItems ((as.map Announcement.line).map .text)).1 =
        { l with listing := (l.listing.pushAll as).1, pending := none } ∧
      Folded (l.ahead as) (l.takeItems ((as.map Announcement.line).map .text)).2 := by
  induction as generalizing l with
  | nil =>
    rw [List.map_nil, List.map_nil, takeItems, flush_eq, ahead]
    simp only [Listing.pushAll, List.append_nil]
    exact ⟨trivial, .refl _⟩
  | cons a as ih =>
    have htake : l.takeItem (.text a.line) =
        takeUpdate { l with listing := (l.listing.push a).1 } (l.listing.push a).2 := by
      rw [takeItem, hf, Announcement.parse_line (ha a (List.mem_cons_self ..))]
      rfl
    obtain ⟨⟨pending, hl⟩, hfold⟩ := takeUpdate_spec { l with listing := (l.listing.push a).1 }
      (l.listing.push a).2 ((l.listing.push a).1.pushAll as).2
    rw [← htake] at hl hfold
    obtain ⟨hlast, hrest⟩ := ih (l := (l.takeItem (.text a.line)).1) (by rw [hl]; exact hf)
      fun b hb => ha b (List.mem_cons_of_mem a hb)
    rw [List.map_cons, List.map_cons, takeItems]
    refine ⟨?_, ?_⟩
    · rw [hlast, hl]
      rfl
    · have hlisting : (l.takeItem (.text a.line)).1.listing = (l.listing.push a).1 := by rw [hl]
      rw [ahead, hlisting] at hrest
      exact hfold.folded.trans (hrest.append_left _)

/-! ## Reads -/

/-- A listener that goes on: `as` are the announcements it has not read, `rest` is what has not
arrived of them. -/
structure Awaits (l : Listener) (as : List Announcement) (rest : Bytes) : Prop where
  finished : l.finished = false
  pending : l.pending = none
  unread : l.unread ++ rest = Line.writeAll (as.map Announcement.line)
  incomplete : Line.read Line.maxSize false l.unread = .incomplete

theorem read_spec {l : Listener} (hf : l.finished = false) {as : List Announcement}
    (ha : ∀ a ∈ as, a.Valid) {bytes rest : Bytes}
    (hu : l.unread ++ bytes ++ rest = Line.writeAll (as.map Announcement.line)) :
    ∃ left, left <:+ as ∧ (l.read false bytes).1.Awaits left rest ∧
      Folded (l.ahead as) ((l.read false bytes).2 ++ (l.read false bytes).1.ahead left) := by
  have hfits : ∀ s ∈ as.map Announcement.line, Line.Fits Line.maxSize s := by
    intro s hs
    obtain ⟨a, hm, rfl⟩ := List.mem_map.mp hs
    exact a.fits_line (ha a hm)
  obtain ⟨done, left, he, hi, hr, hn⟩ := Line.items_of_beginning hfits hu
  obtain ⟨bs, cs, rfl, rfl, rfl⟩ := List.map_eq_append_iff.mp he
  have hread : l.read false bytes =
      takeItems { l with unread := (Line.items Line.maxSize false (l.unread ++ bytes)).2 }
        ((bs.map Announcement.line).map .text) := by
    rw [read, hf, ← hi]
    rfl
  obtain ⟨hlast, hfold⟩ := takeItems_spec
    (l := { l with unread := (Line.items Line.maxSize false (l.unread ++ bytes)).2 }) hf
    fun b hb => ha b (List.mem_append_left cs hb)
  rw [← hread] at hlast hfold
  refine ⟨cs, List.suffix_append bs cs, ?_, ?_⟩
  · rw [hlast]
    exact ⟨hf, rfl, hr, hn⟩
  · have hahead : l.ahead (bs ++ cs) =
        l.ahead bs ++ (l.read false bytes).1.ahead cs := by
      rw [hlast, ahead, Listing.pushAll_append, ← List.append_assoc]
      rfl
    rw [hahead]
    exact hfold.append_right _

theorem reads_spec {l : Listener} {as : List Announcement} (ha : ∀ a ∈ as, a.Valid)
    {blocks : List Bytes} {rest : Bytes} (h : l.Awaits as (blocks.flatten ++ rest)) :
    ∃ left, left <:+ as ∧ (l.reads blocks).1.Awaits left rest ∧
      Folded (l.ahead as) ((l.reads blocks).2 ++ (l.reads blocks).1.ahead left) := by
  induction blocks generalizing l as with
  | nil => exact ⟨as, List.suffix_rfl, h, .refl _⟩
  | cons bytes blocks ih =>
    have hu := h.unread
    rw [List.flatten_cons, List.append_assoc, ← List.append_assoc] at hu
    obtain ⟨middle, hm, hawaits, hfold⟩ := read_spec h.finished ha hu
    obtain ⟨left, hl, hlast, hrest⟩ := ih (fun b hb => ha b (hm.subset hb)) hawaits
    refine ⟨left, hl.trans hm, hlast, hfold.trans ?_⟩
    rw [reads, List.append_assoc]
    exact hrest.append_left _

/-- A listener to which nothing is on the way has told everything. -/
theorem Awaits.eq_nil {l : Listener} {as : List Announcement} (h : l.Awaits as [])
    (ha : ∀ a ∈ as, a.Valid) : as = [] := by
  cases as with
  | nil => rfl
  | cons a as =>
    have hu := h.unread
    rw [List.append_nil, List.map_cons, Line.writeAll, List.flatMap_cons] at hu
    have hread := h.incomplete
    rw [hu, Line.read_encode (a.fits_line (ha a (List.mem_cons_self ..)))] at hread
    exact absurd hread (by simp)

end Listener

/-! ## Links -/

namespace Link

/-- What the client is still to attend to, once `as` have been read. -/
def ahead (l : Link) (as : List Announcement) : List Update := l.updates ++ l.listener.ahead as

theorem receive_spec {l : Link} {as : List Announcement} (ha : ∀ a ∈ as, a.Valid)
    {bytes rest : Bytes} (h : l.listener.Awaits as (bytes ++ rest)) :
    ∃ left, left <:+ as ∧ (l.receive bytes).listener.Awaits left rest ∧
      Folded (l.ahead as) ((l.receive bytes).ahead left) := by
  have hflat := Bytes.flatten_inBlocks (show 0 < Listener.readSize by decide) bytes
  rw [← hflat] at h
  obtain ⟨left, hl, hawaits, hfold⟩ := Listener.reads_spec ha h
  refine ⟨left, hl, hawaits, ?_⟩
  have hahead : (l.receive bytes).ahead left = l.updates ++ ((l.listener.receive bytes).2 ++
      (l.listener.receive bytes).1.ahead left) := List.append_assoc ..
  rw [hahead]
  exact hfold.append_left _

theorem ofInbox_spec (name : String) {i : Inbox} (he : i.ended = false) {as : List Announcement}
    (ha : ∀ a ∈ as, a.Valid) {rest : Bytes}
    (h : i.buffer ++ i.arrived ++ rest = Line.writeAll (as.map Announcement.line)) :
    ∃ left, left <:+ as ∧ (ofInbox name i).listener.Awaits left rest ∧
      Folded (.peerList [] :: (Listing.opened.pushAll as).2) ((ofInbox name i).ahead left) := by
  have hofInbox : ofInbox name i =
      (hear ⟨name, .start, []⟩ (Listener.start.read false i.buffer)).receive i.arrived := by
    rw [ofInbox, he]
    rfl
  rw [List.append_assoc] at h
  obtain ⟨middle, hm, hawaits, hfold⟩ := Listener.read_spec (l := .start) rfl ha h
  obtain ⟨left, hl, hlast, hrest⟩ :=
    receive_spec (l := hear ⟨name, .start, []⟩ (Listener.start.read false i.buffer))
      (fun b hb => ha b (hm.subset hb)) hawaits
  rw [← hofInbox] at hlast hrest
  exact ⟨left, hl.trans hm, hlast, hfold.trans hrest⟩

end Link

/-! ## Proper names -/

def ProperNames (peers : List Peer) : Prop := ∀ p ∈ peers, isName p.name = true

theorem isName_of_parse {line : String} {p : Peer} (h : Peer.parse line = .ok p) :
    isName p.name = true := by
  unfold Peer.parse at h
  split at h
  · rename_i name address port _
    cases hn : readName name with
    | error cause => rw [hn] at h; exact absurd h (by simp [bind, Except.bind])
    | ok own =>
      obtain ⟨hname, rfl⟩ := readName_eq_ok_iff.mp hn
      cases ha : readAddress address with
      | error cause => rw [hn, ha] at h; exact absurd h (by simp [bind, Except.bind])
      | ok a =>
        cases hp : readPort port with
        | error cause => rw [hn, ha, hp] at h; exact absurd h (by simp [bind, Except.bind])
        | ok q =>
          rw [hn, ha, hp] at h
          obtain rfl := Except.ok.inj h
          exact hname
  · exact absurd h (by simp)

theorem Announcement.isName_of_parse {line : String} {p : Peer} (h : parse line = .peer p) :
    isName p.name = true := by
  unfold parse at h
  split at h
  · exact absurd h (by simp)
  · exact absurd h (by simp)
  · exact absurd h (by simp)
  · exact absurd h (by simp)
  · split at h
    · exact absurd h (by simp)
    · split at h
      · rename_i q hq
        obtain rfl := Announcement.peer.inj h
        exact PeerChat.isName_of_parse hq
      · exact absurd h (by simp)

/-- Every peer in a list of the updates has a proper name. -/
def ProperUpdates (updates : List Update) : Prop :=
  ∀ peers, .peerList peers ∈ updates → ProperNames peers

theorem ProperUpdates.append {us vs : List Update} (hu : ProperUpdates us) (hv : ProperUpdates vs) :
    ProperUpdates (us ++ vs) := by
  intro peers hm
  rcases List.mem_append.mp hm with hm | hm
  · exact hu peers hm
  · exact hv peers hm

theorem properNames_nil : ProperNames [] := fun _ hm => absurd hm (by simp)

theorem Listing.proper_push {l : Listing} (h : ∀ peers, l.current = some peers → ProperNames peers)
    (line : String) :
    (∀ peers, (l.push (.parse line)).1.current = some peers → ProperNames peers) ∧
      ∀ peers, (l.push (.parse line)).2 = some (.peerList peers) → ProperNames peers := by
  have hclosed : ∀ peers, Listing.closed.current = some peers → ProperNames peers :=
    fun _ hp => absurd hp (by simp [closed])
  cases ha : Announcement.parse line with
  | listHeader =>
    refine ⟨fun peers hp => ?_, fun peers hp => ?_⟩
    · obtain rfl : [] = peers := Option.some.inj hp
      exact properNames_nil
    · obtain rfl : [] = peers := Update.peerList.inj (Option.some.inj hp)
      exact properNames_nil
  | peer p =>
    have hp := Announcement.isName_of_parse ha
    rw [push]
    cases hl : l.current with
    | none => exact ⟨fun peers hc => absurd (hl ▸ hc) (by simp), fun peers hc => absurd hc (by simp)⟩
    | some list =>
      have hall : ProperNames (list ++ [p]) := by
        intro q hq
        rcases List.mem_append.mp hq with hq | hq
        · exact h list hl q hq
        · rw [List.mem_singleton.mp hq]
          exact hp
      refine ⟨fun peers hc => ?_, fun peers hc => ?_⟩
      · rw [← Option.some.inj hc]
        exact hall
      · rw [← Update.peerList.inj (Option.some.inj hc)]
        exact hall
  | newcomer name => exact ⟨hclosed, fun peers hp => absurd hp (by simp [push])⟩
  | nameTaken => exact ⟨hclosed, fun peers hp => absurd hp (by simp [push])⟩
  | invalidCommand => exact ⟨hclosed, fun peers hp => absurd hp (by simp [push])⟩
  | serverFull => exact ⟨hclosed, fun peers hp => absurd hp (by simp [push])⟩
  | other text =>
    refine ⟨hclosed, fun peers hp => ?_⟩
    rw [push] at hp
    split at hp
    · exact absurd hp (by simp)
    · exact absurd hp (by simp)

namespace Listener

/-- So does every peer that the listener knows of. -/
structure Proper (l : Listener) : Prop where
  current : ∀ peers, l.listing.current = some peers → ProperNames peers
  pending : ∀ peers, l.pending = some peers → ProperNames peers

theorem proper_start : Listener.start.Proper := by
  refine ⟨fun peers h => ?_, fun peers h => ?_⟩
  · obtain rfl : [] = peers := Option.some.inj h
    exact properNames_nil
  · obtain rfl : [] = peers := Option.some.inj h
    exact properNames_nil

theorem Proper.held {l : Listener} (h : l.Proper) : ProperUpdates l.held := by
  intro peers hm
  rw [Listener.held] at hm
  split at hm
  · rename_i list hp
    rw [Update.peerList.inj (List.mem_singleton.mp hm)]
    exact h.pending list hp
  · exact absurd hm (by simp)

theorem Proper.takeItem {l : Listener} (h : l.Proper) (item : Line.Item) :
    (l.takeItem item).1.Proper ∧ ProperUpdates (l.takeItem item).2 := by
  have hnil : ProperUpdates [] := fun _ hm => absurd hm (by simp)
  have hnone : ∀ peers, (none : Option (List Peer)) = some peers → ProperNames peers :=
    fun _ hp => absurd hp (by simp)
  unfold Listener.takeItem
  split
  · exact ⟨h, hnil⟩
  · split
    · rename_i line
      obtain ⟨hcurrent, hupdate⟩ := Listing.proper_push h.current line
      simp only []
      generalize (l.listing.push (.parse line)).1 = listing at hcurrent ⊢
      generalize (l.listing.push (.parse line)).2 = update at hupdate ⊢
      unfold takeUpdate
      split
      · exact ⟨⟨hcurrent, h.pending⟩, hnil⟩
      · rename_i peers
        refine ⟨⟨hcurrent, fun list hp => ?_⟩, hnil⟩
        rw [← Option.some.inj hp]
        exact hupdate peers rfl
      · rename_i other hother
        rw [flush_eq]
        have hheld : ProperUpdates (Listener.held { l with listing }) := h.held
        refine ⟨⟨hcurrent, hnone⟩, hheld.append fun peers hm => ?_⟩
        exact absurd (List.mem_singleton.mp hm).symm (hother peers)
    · exact ⟨⟨h.current, h.pending⟩, hnil⟩
    · exact ⟨⟨h.current, h.pending⟩, hnil⟩

theorem Proper.takeItems {l : Listener} (h : l.Proper) (items : List Line.Item) :
    (l.takeItems items).1.Proper ∧ ProperUpdates (l.takeItems items).2 := by
  induction items generalizing l with
  | nil =>
    rw [Listener.takeItems, flush_eq]
    exact ⟨⟨h.current, fun _ hp => absurd hp (by simp)⟩, h.held⟩
  | cons item items ih =>
    obtain ⟨hl, hu⟩ := h.takeItem item
    obtain ⟨hlast, hrest⟩ := ih hl
    exact ⟨hlast, hu.append hrest⟩

theorem Proper.read {l : Listener} (h : l.Proper) (ended : Bool) (bytes : Bytes) :
    (l.read ended bytes).1.Proper ∧ ProperUpdates (l.read ended bytes).2 := by
  unfold Listener.read
  split
  · exact ⟨h, fun _ hm => absurd hm (by simp)⟩
  · refine Proper.takeItems ?_ _
    exact ⟨h.current, h.pending⟩

theorem Proper.reads {l : Listener} (h : l.Proper) (blocks : List Bytes) :
    (l.reads blocks).1.Proper ∧ ProperUpdates (l.reads blocks).2 := by
  induction blocks generalizing l with
  | nil => exact ⟨h, fun _ hm => absurd hm List.not_mem_nil⟩
  | cons bytes blocks ih =>
    obtain ⟨hl, hu⟩ := h.read false bytes
    obtain ⟨hlast, hrest⟩ := ih hl
    exact ⟨hlast, hu.append hrest⟩

end Listener

namespace Link

structure Proper (l : Link) : Prop where
  listener : l.listener.Proper
  updates : ProperUpdates l.updates

theorem Proper.hear {l : Link} (h : l.Proper) {heard : Listener × List Update}
    (hl : heard.1.Proper) (hu : ProperUpdates heard.2) : (l.hear heard).Proper :=
  ⟨hl, h.updates.append hu⟩

theorem name_receive (l : Link) (bytes : Bytes) : (l.receive bytes).name = l.name := rfl

theorem name_ofInbox (name : String) (i : Inbox) : (ofInbox name i).name = name := by
  unfold ofInbox
  simp only []
  split <;> rfl

theorem Proper.receive {l : Link} (h : l.Proper) (bytes : Bytes) : (l.receive bytes).Proper := by
  obtain ⟨hl, hu⟩ := h.listener.reads (Bytes.inBlocks Listener.readSize bytes)
  exact h.hear hl hu

theorem Proper.serverEnded {l : Link} (h : l.Proper) : l.serverEnded.Proper := by
  obtain ⟨hl, hu⟩ := h.listener.read true []
  exact h.hear hl hu

theorem proper_ofInbox (name : String) (i : Inbox) : (ofInbox name i).Proper := by
  have hstart : Proper ⟨name, .start, []⟩ :=
    ⟨Listener.proper_start, fun _ hm => absurd hm (by simp)⟩
  obtain ⟨hl, hu⟩ := Listener.proper_start.read false i.buffer
  have hlast := (hstart.hear hl hu).receive i.arrived
  unfold ofInbox
  simp only []
  split
  · exact hlast.serverEnded
  · exact hlast

end Link

end PeerChat
