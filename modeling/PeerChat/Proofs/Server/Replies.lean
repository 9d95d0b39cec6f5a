import PeerChat.Proofs.Server.Steps

/-!
# Replies come one for one

What a run queues for a connection whose outbox is never full is what the run owes it, until a write to
it fails: its replies, one for each line that calls for one, and among them the notices of others
(`queued_as_owed`).  Without an outbox, the first line that calls for a reply is its last.

Each operation puts its message behind what is in the outbox, so a step queues what it owes where there
is room (`queuedBy_eq`).
-/

namespace PeerChat.Server

variable {s t : Server} {f : Step} {id j : ConnectionId} {line : String} {c : Connection}

/-- Two lists put together, neither of them out of its order. -/
inductive Interleaved {α : Type} : List α → List α → List α → Prop
  | nil : Interleaved [] [] []
  | left {a : α} {as bs cs : List α} : Interleaved as bs cs → Interleaved (a :: as) bs (a :: cs)
  | right {b : α} {as bs cs : List α} : Interleaved as bs cs → Interleaved as (b :: bs) (b :: cs)

theorem Interleaved.append {α : Type} {as bs cs : List α} (h : Interleaved as bs cs)
    (front back : List α) : Interleaved (front ++ as) (back ++ bs) (front ++ back ++ cs) := by
  induction front with
  | cons a front ih => exact .left ih
  | nil =>
    induction back with
    | nil => exact h
    | cons b back ih => exact .right ih

theorem Interleaved.length_eq {α : Type} {as bs cs : List α} (h : Interleaved as bs cs) :
    cs.length = as.length + bs.length := by
  induction h with
  | nil => rfl
  | left h ih => rw [List.length_cons, List.length_cons, ih, Nat.add_right_comm]
  | right h ih => rw [List.length_cons, List.length_cons, ih, Nat.add_assoc]

/-! ## Outboxes -/

theorem outboxOf_congr (h : t.connection? id = s.connection? id) : t.outboxOf id = s.outboxOf id := by
  rw [outboxOf, outboxOf, h]

@[simp] theorem outboxOf_directory (directory : Directory) :
    ({ s with directory } : Server).outboxOf id = s.outboxOf id := rfl

theorem hasRoom_congr (h : t.connection? id = s.connection? id) : t.hasRoom id = s.hasRoom id := by
  rw [hasRoom, hasRoom, h]

theorem connection?_update_of_ne {g : Connection → Connection} (hg : ∀ c, (g c).id = c.id)
    (h : id ≠ j) : (s.update j g).connection? id = s.connection? id := by
  rw [connection?_update hg, if_neg h]

theorem connection?_queue_of_ne (m : ServerMessage) (h : id ≠ j) :
    (s.queue j m).connection? id = s.connection? id := by
  unfold queue
  split
  · exact connection?_update_of_ne (fun _ => rfl) h
  · rfl

theorem outboxOf_queue (m : ServerMessage) :
    (s.queue j m).outboxOf id = s.outboxOf id ++ if j = id ∧ s.hasRoom id then [m] else [] := by
  by_cases hj : j = id
  · subst hj
    by_cases hr : s.hasRoom j = true
    · rw [if_pos ⟨rfl, hr⟩, outboxOf, connection?_queue m hr, if_pos rfl, outboxOf]
      cases hc : s.connection? j with
      | none => simp [hasRoom, hc] at hr
      | some c => rfl
    · rw [if_neg fun h => hr h.2, List.append_nil, queue, if_neg hr]
  · rw [if_neg fun h => hj h.1, List.append_nil]
    exact outboxOf_congr (connection?_queue_of_ne m (Ne.symm hj))

theorem outboxOf_notify (m : ServerMessage) {ids : List ConnectionId} (hids : ids.Nodup) :
    (s.notify ids m).outboxOf id =
      s.outboxOf id ++ if id ∈ ids ∧ s.hasRoom id then [m] else [] := by
  induction ids generalizing s with
  | nil => simp [notify]
  | cons i ids ih =>
    obtain ⟨hi, hids⟩ := List.nodup_cons.mp hids
    have hrest : (s.notify (i :: ids) m).outboxOf id = ((s.queue i m).notify ids m).outboxOf id := rfl
    rw [hrest, ih hids, outboxOf_queue]
    by_cases he : i = id
    · subst he
      simp [hi]
    · rw [hasRoom_congr (connection?_queue_of_ne m (Ne.symm he))]
      simp [he, Ne.symm he]

theorem connection?_close :
    (s.close j).connection? id = if id = j then
      (s.connection? j).map fun c => { c with phase := .closed, unread := [] }
      else s.connection? id := by
  cases hc : s.connection? j with
  | none =>
    rw [show s.close j = s by simp only [close, hc]]
    split
    · rename_i h
      rw [h, hc]
      rfl
    · rfl
  | some c =>
    have hsame : ∀ i, (s.withdraw c).connection? i = s.connection? i := fun i =>
      connection?_congr (withdraw_connections s c)
    rw [show s.close j = (s.withdraw c).update j fun c => { c with phase := .closed, unread := [] } by
      simp only [close, hc], ← hc, ← hsame, ← hsame]
    exact connection?_update fun _ => rfl

theorem outboxOf_close : (s.close j).outboxOf id = s.outboxOf id := by
  by_cases h : id = j
  · rw [outboxOf, outboxOf, connection?_close, if_pos h, h]
    cases s.connection? j <;> rfl
  · exact outboxOf_congr (by rw [connection?_close, if_neg h])

theorem outboxOf_reply (m : ServerMessage) :
    (s.reply j m).outboxOf id = s.outboxOf id ++ if j = id ∧ s.hasRoom id then [m] else [] := by
  unfold reply
  split
  · exact outboxOf_queue m
  · rename_i hr
    rw [outboxOf_close, if_neg, List.append_nil]
    rintro ⟨rfl, h⟩
    exact hr h

theorem connection?_of_mem (h : Tidy s) (hc : c ∈ s.connections) : s.connection? c.id = some c := by
  cases hd : s.connection? c.id with
  | none => exact absurd (decide_eq_true rfl) (List.find?_eq_none.mp hd c hc)
  | some d =>
    obtain ⟨hm, hid⟩ := connection?_mem hd
    rw [List.inj_on_of_nodup_map h.ids_unique hm hc hid]

theorem mem_audience_iff (h : Tidy s) {except : ConnectionId} :
    id ∈ s.audience except ↔ id ≠ except ∧ ∃ c, s.connection? id = some c ∧ c.phase ≠ .closed := by
  refine ⟨fun hm => ?_, fun ⟨hne, c, hc, ho⟩ => mem_audience hc ho hne⟩
  obtain ⟨hm, hne⟩ := List.mem_filter.mp hm
  obtain ⟨c, hc, rfl⟩ := List.mem_map.mp hm
  obtain ⟨hc, ho⟩ := List.mem_filter.mp hc
  exact ⟨by simpa using hne, c, connection?_of_mem h hc, by simpa using ho⟩

theorem nodup_audience (h : Tidy s) (except : ConnectionId) : (s.audience except).Nodup :=
  (h.ids_unique.sublist (List.Sublist.map _ List.filter_sublist)).filter _

theorem connection?_entered (hc : s.connection? c.id = some c) {name : String} {directory : Directory} :
    (s.entered c.id name directory).connection? id =
      if id = c.id then some { c with phase := .registered name } else s.connection? id := by
  rw [entered, connection?_update (f := fun d => { d with phase := .registered name }) fun _ => rfl]
  change (if id = c.id then (s.connection? c.id).map _ else s.connection? id) = _
  rw [hc]
  rfl

theorem outboxOf_entered (hc : s.connection? c.id = some c) {name : String} {directory : Directory} :
    (s.entered c.id name directory).outboxOf id = s.outboxOf id := by
  rw [outboxOf, outboxOf, connection?_entered hc]
  by_cases hid : id = c.id
  · rw [if_pos hid, hid, hc]
  · rw [if_neg hid]

theorem hasRoom_entered (hc : s.connection? c.id = some c) {name : String} {directory : Directory} :
    (s.entered c.id name directory).hasRoom id = s.hasRoom id := by
  rw [hasRoom, hasRoom, connection?_entered hc]
  by_cases hid : id = c.id
  · rw [if_pos hid, hid, hc]
  · rw [if_neg hid]

/-- A registration queues the list for the one, and a notice for all others that are open. -/
theorem outboxOf_register (h : Tidy s) (hc : s.connection? j = some c) {name : String} {port : UInt16}
    {directory : Directory} {others : List Peer}
    (hi : s.directory.insert ⟨name, c.address, port⟩ (some j) = .ok (directory, others)) :
    (s.register c name port).outboxOf id = s.outboxOf id ++
      if j = id then if s.hasRoom id then [.peerList others] else []
      else if (∃ c, s.connection? id = some c ∧ c.phase ≠ .closed) ∧ s.hasRoom id then
        [.newcomer name] else [] := by
  obtain rfl := connection?_id hc
  have hentered : Tidy (s.entered c.id name directory) :=
    h.of_same (ids_update fun _ => rfl) rfl (h.inOrder.insert hi)
  have hqueued := hentered.frame (Frame.queue _ c.id (.peerList others))
  have hboth : (s.register c name port).outboxOf id =
      ((s.entered c.id name directory).welcome c.id name others).outboxOf id := by
    rw [register_eq hi]
    split
    · rfl
    · exact outboxOf_close
  rw [hboth, welcome, broadcast, outboxOf_notify _ (nodup_audience hqueued c.id), outboxOf_queue,
    outboxOf_entered hc, hasRoom_entered hc, List.append_assoc]
  simp only [mem_audience_iff hqueued]
  by_cases hid : c.id = id
  · simp [hid]
  · have hrest : ((s.entered c.id name directory).queue c.id (.peerList others)).connection? id =
        s.connection? id := by
      rw [connection?_queue_of_ne _ (Ne.symm hid), connection?_entered hc, if_neg (Ne.symm hid)]
    simp only [hasRoom_congr hrest, hrest]
    simp [hid, Ne.symm hid]

theorem outboxOf_accept (h : Tidy s) (address : IpAddress) :
    (s.accept address).outboxOf id = s.outboxOf id := by
  have hused : ∀ c ∈ s.connections, c.id < s.nextId := fun c hc =>
    h.ids_used c.id (List.mem_map_of_mem hc)
  by_cases hid : id = s.nextId
  · subst hid
    simp [outboxOf, connection?_accept hused, connection?_nextId hused]
  · exact outboxOf_congr (by rw [connection?_accept hused, if_neg hid])

theorem outboxOf_flush : s.flush.2.outboxOf id = [] := by
  rw [outboxOf]
  cases hc : s.flush.2.connection? id with
  | none => rfl
  | some c =>
    obtain ⟨d, -, rfl⟩ := List.mem_map.mp (connection?_mem hc).1
    rfl

theorem outboxOf_abandon : (s.abandon j).outboxOf id = if id = j then [] else s.outboxOf id := by
  rw [outboxOf, outboxOf, abandon,
    connection?_update (f := fun c => { c with outbox := [], writable := false }) fun _ => rfl]
  by_cases h : id = j
  · rw [if_pos h, if_pos h]
    cases s.connection? j <;> rfl
  · rw [if_neg h, if_neg h]

theorem outboxOf_written (count : Nat) :
    (s.update j fun c => { c with outbox := c.outbox.drop count }).outboxOf id =
      (s.outboxOf id).drop (if id = j then count else 0) := by
  rw [outboxOf, outboxOf,
    connection?_update (f := fun c => { c with outbox := c.outbox.drop count }) fun _ => rfl]
  by_cases h : id = j
  · rw [if_pos h, if_pos h, h]
    cases s.connection? j <;> simp
  · rw [if_neg h, if_neg h]
    rfl

/-! ## Steps -/

theorem replyTo_of_speaks (h : Speaks s j line c) :
    s.replyTo id (.read j (.text line)) = if j = id then (s.replyDue c line).toList else [] := by
  by_cases hid : j = id
  · subst hid
    simp only [replyTo, h.found, h.is_open, h.not_blank, ne_eq, not_false_eq_true, and_self, if_true]
  · simp only [replyTo, hid, false_and, if_false]
    cases s.connection? id <;> rfl

theorem replyTo_of_silent (h : ∀ c, ¬ Speaks s j line c) :
    s.replyTo id (.read j (.text line)) = [] := by
  rw [replyTo]
  cases hc : s.connection? id with
  | none => rfl
  | some c =>
    refine if_neg ?_
    rintro ⟨rfl, ho, hb⟩
    exact h c ⟨hc, ho, hb⟩

theorem entering?_of_silent (h : ∀ c, ¬ Speaks s j line c) :
    s.entering? (.read j (.text line)) = none := by
  have hheard : s.heard? (.read j (.text line)) = none := by
    rw [heard?]
    cases hc : s.connection? j with
    | none => rfl
    | some c => exact if_pos (done_of_silent h hc)
  rw [entering?, hheard]

theorem noticeTo_of_none (h : s.entering? f = none) : s.noticeTo id f = [] := by
  rw [noticeTo, h]
  cases s.connection? id <;> rfl

theorem noticeTo_of_some {name : String} (h : s.entering? f = some (j, name)) :
    s.noticeTo id f = if j ≠ id ∧ ∃ c, s.connection? id = some c ∧ c.phase ≠ .closed then
      [.newcomer name] else [] := by
  rw [noticeTo, h]
  cases s.connection? id with
  | none => simp
  | some c => simp

theorem replyDue_of_insert (hphase : c.phase = .registering) {name : String} {port : UInt16}
    (hp : Command.parse line = .ok (.register name port)) {directory : Directory}
    {others : List Peer} {owner : Option OwnerId}
    (hi : s.directory.insert ⟨name, c.address, port⟩ owner = .ok (directory, others)) :
    s.replyDue c line = some (.peerList others) := by
  obtain ⟨hfree, hsize, -, -⟩ := Directory.insert_eq_ok hi
  have hcontains : ¬ s.directory.contains name = true := by
    rw [Directory.contains_iff]
    rintro ⟨e, he, hn⟩
    exact hfree e he hn
  have hothers : s.directory.peers none = others := by
    rw [Directory.peers_of_insert hi, Directory.peers]
    simp
  simp only [replyDue, hphase, hp, if_neg hcontains, if_neg (Nat.not_le.mpr hsize), hothers]

theorem mem_replyTo_iff {m : ServerMessage} : m ∈ s.replyTo id f ↔
    ∃ line c, f = .read id (.text line) ∧ Speaks s id line c ∧ s.replyDue c line = some m := by
  constructor
  · intro hm
    unfold replyTo at hm
    split at hm
    case h_1 j line =>
      cases hc : s.connection? id with
      | none => simp [hc] at hm
      | some c =>
        simp only [hc] at hm
        by_cases hs : j = id ∧ c.phase ≠ .closed ∧ Text.trim line ≠ ""
        · rw [if_pos hs] at hm
          obtain ⟨rfl, ho, hb⟩ := hs
          exact ⟨line, c, rfl, ⟨hc, ho, hb⟩, by simpa using hm⟩
        · simp [hs] at hm
    case h_2 => exact absurd hm List.not_mem_nil
  · rintro ⟨line, c, rfl, hs, hdue⟩
    rw [replyTo_of_speaks hs, if_pos rfl, hdue]
    exact List.mem_singleton_self m

theorem hasRoom_of_unwritable (h : Tidy s) (hu : s.Unwritable id) : s.hasRoom id = false := by
  obtain ⟨c, hc, rfl, hw⟩ := hu
  simp only [Server.hasRoom, connection?_of_mem h hc, hw, Bool.false_and]

/-- An open connection with an outbox that is not full has room for a message. -/
theorem Ready.hasRoom (h : s.Ready id) (hw : ¬ s.Unwritable id) (hc : s.connection? id = some c)
    (ho : c.phase ≠ .closed) : s.hasRoom id = true := by
  obtain ⟨hm, hid⟩ := connection?_mem hc
  have hwritable : c.writable = true := by
    rw [← Bool.not_eq_false]
    exact fun hfalse => hw ⟨c, hm, hid, hfalse⟩
  simp only [Server.hasRoom, hc, hwritable, Bool.true_and]
  exact decide_eq_true (h c hm hid ho)

/-- The outbox after a step: what is owed is queued where there is room for it. -/
theorem outboxOf_step (h : Tidy s) (hquiet : ∀ j count, f ≠ .written j count)
    (hintact : ∀ j, f ≠ .broken j) (hkept : f ≠ .flushed) :
    (s.step f).outboxOf id =
      s.outboxOf id ++ if s.hasRoom id then s.replyTo id f ++ s.noticeTo id f else [] := by
  have ho := step_outcome s f
  generalize s.step f = t at ho ⊢
  cases ho with
  | accept address =>
    rw [outboxOf_accept h, noticeTo_of_none rfl]
    simp [replyTo]
  | write j count => exact absurd rfl (hquiet j count)
  | abandon j => exact absurd rfl (hintact j)
  | flush => exact absurd rfl hkept
  | @close f j hends =>
    rw [outboxOf_close]
    rcases hends with rfl | rfl | rfl
    all_goals
      rw [noticeTo_of_none rfl]
      simp [replyTo]
  | ignore hnot =>
    rw [replyTo_of_silent hnot, noticeTo_of_none (entering?_of_silent hnot)]
    simp
  | @reply j line c m hs hdue hnone =>
    rw [outboxOf_reply, replyTo_of_speaks hs, noticeTo_of_none hnone, hdue, List.append_nil]
    by_cases hid : j = id
    · simp [hid]
    · simp [hid]
  | @enter j line c name port directory others hs hphase hp hi =>
    rw [outboxOf_register h hs.found hi, replyTo_of_speaks hs, replyDue_of_insert hphase hp hi,
      noticeTo_of_some (entering?_of_insert hs hphase hp hi)]
    by_cases hid : j = id
    · simp [hid]
    · by_cases hopen : ∃ c, s.connection? id = some c ∧ c.phase ≠ .closed
      · simp [hid, hopen]
      · simp only [hid, hopen, if_false, false_and, and_false, List.append_nil, ite_self]
  | @remove j line c own name hs hphase hp =>
    have hdue : s.replyDue c line = none := by simp only [replyDue, hphase, hp]
    have hnone := entering?_of_not_register hs hp (by simp [hphase])
    rw [outboxOf_close, replyTo_of_speaks hs, hdue, noticeTo_of_none hnone]
    simp
  | @reportGone j line c own name hs hphase hp =>
    have hdue : s.replyDue c line = none := by simp only [replyDue, hphase, hp]
    have hnone := entering?_of_not_register hs hp (by simp [hphase])
    rw [replyTo_of_speaks hs, hdue, noticeTo_of_none hnone]
    simp

theorem queuedBy_eq (h : Tidy s) : s.queuedBy id f =
    if s.hasRoom id then s.replyTo id f ++ s.noticeTo id f else [] := by
  rw [queuedBy]
  cases f with
  | written j count =>
    have hreply : s.replyTo id (.written j count) = [] := rfl
    rw [hreply, noticeTo_of_none rfl, List.append_nil, ite_self]
    exact List.drop_eq_nil_of_le (by rw [step, outboxOf_written]; simp)
  | broken j =>
    have hreply : s.replyTo id (.broken j) = [] := rfl
    rw [hreply, noticeTo_of_none rfl, List.append_nil, ite_self]
    refine List.drop_eq_nil_of_le ?_
    rw [step, outboxOf_abandon]
    split
    · exact Nat.zero_le _
    · exact Nat.le_refl _
  | flushed =>
    have hreply : s.replyTo id .flushed = [] := rfl
    rw [hreply, noticeTo_of_none rfl, List.append_nil, ite_self, step, outboxOf_flush, List.drop_nil]
  | _ => rw [outboxOf_step h (by simp) (by simp) (by simp), List.drop_left]

/-- Nothing is owed to a connection that is not open. -/
theorem owed_of_not_open (h : ∀ c, s.connection? id = some c → c.phase = .closed) :
    s.replyTo id f = [] ∧ s.noticeTo id f = [] := by
  constructor
  · refine List.eq_nil_iff_forall_not_mem.mpr fun m hm => ?_
    obtain ⟨line, c, -, hs, -⟩ := mem_replyTo_iff.mp hm
    exact hs.is_open (h c hs.found)
  · cases he : s.entering? f with
    | none => exact noticeTo_of_none he
    | some entered =>
      rw [noticeTo_of_some he, if_neg]
      rintro ⟨-, c, hc, ho⟩
      exact ho (h c hc)

/-- A step queues what it owes, as long as the connection can be written to. -/
theorem queuedBy_of_ready (h : Tidy s) (hready : s.Ready id) :
    s.queuedBy id f = s.whileWritable id (replyTo id) f ++ s.whileWritable id (noticeTo id) f := by
  rw [queuedBy_eq h, whileWritable, whileWritable]
  by_cases hu : s.Unwritable id
  · rw [hasRoom_of_unwritable h hu, if_pos hu, if_pos hu]
    rfl
  · rw [if_neg hu, if_neg hu]
    by_cases hopen : ∃ c, s.connection? id = some c ∧ c.phase ≠ .closed
    · obtain ⟨c, hc, ho⟩ := hopen
      rw [hready.hasRoom hu hc ho]
      rfl
    · have hclosed : ∀ c, s.connection? id = some c → c.phase = .closed := fun c hc =>
        Classical.not_not.mp fun ho => hopen ⟨c, hc, ho⟩
      obtain ⟨hreplies, hnotices⟩ := owed_of_not_open (f := f) hclosed
      rw [hreplies, hnotices, List.append_nil, ite_self]

theorem exists_closed {a : IpAddress} {p : Phase} (hm : (id, a, p) ∈ s.roll) :
    ∃ c ∈ (s.close id).connections, c.id = id ∧ c.phase = .closed := by
  have hclosed : (id, a, .closed) ∈ (s.close id).roll := by
    rw [roll_close]
    exact List.mem_map.mpr ⟨_, hm, if_pos rfl⟩
  obtain ⟨c, hc, hid, -, hphase⟩ := exists_of_mem_roll hclosed
  exact ⟨c, hc, hid, hphase⟩

/-- A reply for which there is no outbox any more ends the connection. -/
theorem closed_of_unwritable (h : Tidy s) (hu : s.Unwritable id) (hdue : s.replyTo id f ≠ []) :
    ∃ c ∈ (s.step f).connections, c.id = id ∧ c.phase = .closed := by
  obtain ⟨m, hm⟩ := List.exists_mem_of_ne_nil _ hdue
  obtain ⟨line, c, rfl, hs, hreply⟩ := mem_replyTo_iff.mp hm
  obtain ⟨hc, rfl⟩ := connection?_mem hs.found
  have hfull := hasRoom_of_unwritable h hu
  have ho := step_outcome s (.read c.id (.text line))
  generalize s.step (.read c.id (.text line)) = t at ho ⊢
  cases ho with
  | close hends => exact absurd hends (by simp [Step.Ends])
  | ignore hnot => exact absurd hs (hnot c)
  | reply =>
    rw [reply, if_neg (by simp [hfull])]
    exact exists_closed (mem_roll hc)
  | @enter id line d name port directory others hd hphase hp hi =>
    obtain rfl := Option.some.inj (hs.found.symm.trans hd.found)
    have hroom : (s.entered c.id name directory).hasRoom c.id = false :=
      (hasRoom_entered hs.found).trans hfull
    rw [register_eq hi, if_neg (by simp [hroom])]
    refine exists_closed (a := c.address) (p := .registered name) ?_
    rw [(Frame.welcome _ c.id name others).roll]
    exact mem_roll_entered.mpr (.inl ⟨rfl, rfl, _, mem_roll hc⟩)
  | @remove id line d own name hd hphase hp =>
    obtain rfl := Option.some.inj (hs.found.symm.trans hd.found)
    simp [replyDue, hphase, hp] at hreply
  | @reportGone id line d own name hd hphase hp =>
    obtain rfl := Option.some.inj (hs.found.symm.trans hd.found)
    simp [replyDue, hphase, hp] at hreply

/-! ## Lists -/

theorem cases_of_list_due {peers : List Peer} (hdue : s.replyDue c line = some (.peerList peers)) :
    (∃ name port directory, c.phase = .registering ∧
      Command.parse line = .ok (.register name port) ∧
      s.directory.insert ⟨name, c.address, port⟩ (some c.id) = .ok (directory, peers)) ∨
    ∃ own, c.phase = .registered own ∧ Command.parse line = .ok .listPeers ∧
      peers = s.directory.peers (some own) := by
  unfold replyDue at hdue
  split at hdue
  case h_1 name port hphase hp =>
    by_cases hcontains : s.directory.contains name = true
    · simp [hcontains] at hdue
    by_cases hsize : s.directory.capacity ≤ s.directory.size
    · simp [hcontains, hsize] at hdue
    obtain ⟨⟨directory, others⟩, hi⟩ := Directory.exists_insert_of_room
      ⟨name, c.address, port⟩ (some c.id) hcontains hsize
    have hothers := replyDue_of_insert hphase hp hi
    simp only [replyDue, hphase, hp, hdue] at hothers
    obtain rfl : peers = others := by simpa using hothers
    exact .inl ⟨name, port, directory, hphase, hp, hi⟩
  case h_2 own hphase hp => exact .inr ⟨own, hphase, hp, by simpa using hdue.symm⟩
  all_goals simp at hdue

/-- A list is queued alone. -/
theorem queuedBy_of_list (h : Tidy s) (hroom : s.hasRoom id = true) {peers : List Peer}
    (hm : .peerList peers ∈ s.replyTo id f) : s.queuedBy id f = [.peerList peers] := by
  obtain ⟨line, c, rfl, hs, hdue⟩ := mem_replyTo_iff.mp hm
  have hnotice : s.noticeTo id (.read id (.text line)) = [] := by
    cases he : s.entering? (.read id (.text line)) with
    | none => exact noticeTo_of_none he
    | some entered =>
      obtain rfl := entering?_id hs he
      simp [noticeTo_of_some he]
  rw [queuedBy_eq h, if_pos hroom, hnotice, replyTo_of_speaks hs, if_pos rfl, hdue]
  rfl

/-- A list is what the directory holds when it is queued, without the connection's own name. -/
theorem list_of_replyTo (hroom : s.hasRoom id = true) {peers : List Peer}
    (hm : .peerList peers ∈ s.replyTo id f) :
    ∃ own a, (id, a, .registered own) ∈ (s.step f).roll ∧
      peers = (s.step f).directory.peers (some own) := by
  obtain ⟨line, c, rfl, hs, hdue⟩ := mem_replyTo_iff.mp hm
  obtain rfl := connection?_id hs.found
  have hc := (connection?_mem hs.found).1
  rcases cases_of_list_due hdue with ⟨name, port, directory, hphase, hp, hi⟩ | ⟨own, hphase, hp, rfl⟩
  · have hstep : s.step (.read c.id (.text line)) =
        (s.entered c.id name directory).welcome c.id name peers := by
      have hfits : (s.entered c.id name directory).hasRoom c.id = true := by
        rw [hasRoom_entered hs.found, hroom]
      rw [step_speaks hs hp]
      simp only [obey, hphase, register_eq hi, if_pos hfits]
    have hf := Frame.welcome (s.entered c.id name directory) c.id name peers
    obtain ⟨-, -, -, hothers⟩ := Directory.insert_eq_ok hi
    refine ⟨name, c.address, ?_, ?_⟩
    · rw [hstep, hf.roll]
      exact mem_roll_entered.mpr (.inl ⟨rfl, rfl, _, mem_roll hc⟩)
    · rw [hstep, hf.directory]
      exact hothers
  · have hstep : s.step (.read c.id (.text line)) =
        s.queue c.id (.peerList (s.directory.peers (some own))) := by
      rw [step_speaks hs hp]
      simp only [obey, hphase, reply, if_pos hroom]
    have hf := Frame.queue s c.id (.peerList (s.directory.peers (some own)))
    refine ⟨own, c.address, ?_, ?_⟩
    · rw [hstep, hf.roll]
      exact hphase ▸ mem_roll hc
    · rw [hstep, hf.directory]

/-! ## Runs -/

theorem tidy_run (h : Tidy s) (steps : List Step) : Tidy (s.run steps) := by
  induction steps generalizing s with
  | nil => exact h
  | cons f steps ih => exact ih (h.step f)

theorem run_mem_scanl (s : Server) (before later : List Step) :
    s.run before ∈ (before ++ later).scanl step s := by
  induction before generalizing s with
  | nil => cases later <;> simp [run]
  | cons f before ih =>
    rw [List.cons_append, List.scanl_cons]
    exact List.mem_cons_of_mem _ (ih (s.step f))

theorem interleaved_run (h : Tidy s) {steps : List Step}
    (hready : ∀ t ∈ steps.scanl step s, t.Ready id) :
    Interleaved (log (whileWritable id (replyTo id)) s steps) (log (whileWritable id (noticeTo id)) s steps)
      (log (queuedBy id) s steps) := by
  induction steps generalizing s with
  | nil => exact .nil
  | cons f steps ih =>
    rw [List.scanl_cons, List.forall_mem_cons] at hready
    rw [log, log, log, queuedBy_of_ready h hready.1]
    exact (ih (h.step f) hready.2).append _ _

/-- If no write fails, there is no end to what is noted. -/
theorem log_whileWritable {note : Server → Step → List ServerMessage} {steps : List Step}
    (h : ∀ t ∈ steps.scanl step s, ¬ t.Unwritable id) :
    log (whileWritable id note) s steps = log note s steps := by
  induction steps generalizing s with
  | nil => rfl
  | cons f steps ih =>
    rw [List.scanl_cons, List.forall_mem_cons] at h
    rw [log, log, ih h.2, whileWritable, if_neg h.1]

/-- Until a write to it fails, the replies to a connection's own lines come in order, with the notices of
others among them; then the first line that calls for a reply ends it.  A list is queued at once: it is
what the directory then holds, without the connection's own name. -/
theorem queued_as_owed {d : Directory} (hd : d.InOrder) (steps : List Step) (id : ConnectionId)
    (hready : ∀ s ∈ steps.scanl step (.start d), s.Ready id) :
    ((∀ s ∈ steps.scanl step (.start d), ¬ s.Unwritable id) →
      Interleaved (log (replyTo id) (.start d) steps) (log (noticeTo id) (.start d) steps)
        (log (queuedBy id) (.start d) steps)) ∧
    Interleaved (log (whileWritable id (replyTo id)) (.start d) steps)
      (log (whileWritable id (noticeTo id)) (.start d) steps) (log (queuedBy id) (.start d) steps) ∧
    (∀ before f later, steps = before ++ f :: later → (run (.start d) before).Unwritable id →
      replyTo id (run (.start d) before) f ≠ [] →
      ∃ c ∈ (run (.start d) (before ++ [f])).connections, c.id = id ∧ c.phase = .closed) ∧
    ∀ before f later peers, steps = before ++ f :: later → ¬ (run (.start d) before).Unwritable id →
      .peerList peers ∈ replyTo id (run (.start d) before) f →
      queuedBy id (run (.start d) before) f = [.peerList peers] ∧
      ∃ c ∈ (run (.start d) (before ++ [f])).connections, ∃ own,
        c.id = id ∧ c.phase = .registered own ∧ Directory.Ascending peers ∧
        ∀ p, p ∈ peers ↔ p.name ≠ own ∧
          ∃ e ∈ (run (.start d) (before ++ [f])).directory.entries, e.peer = p := by
  have hall := interleaved_run (Tidy.start hd) hready
  refine ⟨fun hwritable => ?_, hall, ?_, ?_⟩
  · rwa [log_whileWritable hwritable, log_whileWritable hwritable] at hall
  · rintro before f later rfl hu hdue
    rw [run_concat]
    exact closed_of_unwritable (tidy_run (Tidy.start hd) before) hu hdue
  rintro before f later peers rfl hw hm
  have ht := tidy_run (Tidy.start hd) before
  obtain ⟨line, c, -, hs, -⟩ := mem_replyTo_iff.mp hm
  have hroom := (hready _ (run_mem_scanl _ before (f :: later))).hasRoom hw hs.found hs.is_open
  obtain ⟨own, a, hroll, hpeers⟩ := list_of_replyTo hroom hm
  obtain ⟨c, hc, hid, -, hphase⟩ := exists_of_mem_roll hroll
  refine ⟨queuedBy_of_list ht hroom hm, ?_⟩
  rw [run_concat]
  refine ⟨c, hc, own, hid, hphase, ?_, fun p => ?_⟩
  · rw [hpeers]
    exact (ht.step f).inOrder.ascending_peers _
  · rw [hpeers, Directory.mem_peers, and_comm]
    simp

/-- Carol comes between the list that Bob gets and his next reply; when he cannot be written to any more,
he gets no reply, and is gone. -/
theorem queued_as_owed_crossing :
    let steps : List Step := [.accepted (.v4 10 0 0 1), .read 1 (.text "REGISTER alice 6001"),
      .accepted (.v4 10 0 0 2), .accepted (.v4 10 0 0 3), .read 2 (.text "REGISTER bob 6002"),
      .read 2 (.text " "), .read 3 (.text "REGISTER bob 6003"), .read 3 (.text "REGISTER carol 6003"),
      .read 2 (.text "PEER_DISCONNECTED alice"), .written 2 1, .read 2 (.text "GET_PEER_LIST"),
      .broken 2, .read 2 (.text "GET_PEER_LIST")]
    (∀ s ∈ steps.scanl step (.start (.empty 3)), s.Ready 2) ∧
    Interleaved
      [.peerList [⟨"alice", .v4 10 0 0 1, 6001⟩], .peerList [⟨"carol", .v4 10 0 0 3, 6003⟩]]
      [.newcomer "carol"] (log (queuedBy 2) (.start (.empty 3)) steps) ∧
    ∃ c ∈ (run (.start (.empty 3)) steps).connections, c.id = 2 ∧ c.phase = .closed := by
  intro steps
  have hready : ∀ s ∈ steps.scanl step (.start (.empty 3)), s.Ready 2 := by decide +kernel
  have hreplies : log (whileWritable 2 (replyTo 2)) (.start (.empty 3)) steps =
      [.peerList [⟨"alice", .v4 10 0 0 1, 6001⟩], .peerList [⟨"carol", .v4 10 0 0 3, 6003⟩]] := by
    decide +kernel
  have hnotices : log (whileWritable 2 (noticeTo 2)) (.start (.empty 3)) steps =
      [.newcomer "carol"] := by
    decide +kernel
  obtain ⟨-, hall, hgone, -⟩ :=
    queued_as_owed (d := .empty 3) List.Pairwise.nil steps 2 hready
  rw [hreplies, hnotices] at hall
  exact ⟨hready, hall, hgone (steps.take 12) (.read 2 (.text "GET_PEER_LIST")) [] rfl
    (by decide +kernel) (by decide +kernel)⟩

/-- A line does not get its reply once a write has failed, or if it is too long for the server. -/
theorem unanswered :
    let lost : List Step := [.accepted (.v4 10 0 0 1), .read 1 (.text "REGISTER alice 6001"),
      .broken 1, .read 1 (.text "GET_PEER_LIST")]
    let long : List Step := [.accepted (.v4 10 0 0 1), .read 1 (.text "REGISTER alice 6001"),
      .read 1 .tooLong]
    (∀ s ∈ lost.scanl step (.start (.empty 2)), s.Ready 1) ∧
    log (replyTo 1) (.start (.empty 2)) lost = [.peerList [], .peerList []] ∧
    ¬ Interleaved (log (replyTo 1) (.start (.empty 2)) lost) (log (noticeTo 1) (.start (.empty 2)) lost)
      (log (queuedBy 1) (.start (.empty 2)) lost) ∧
    (∀ s ∈ long.scanl step (.start (.empty 2)), s.Ready 1) ∧
    ¬ Interleaved [.peerList [], .invalidCommand] (log (noticeTo 1) (.start (.empty 2)) long)
      (log (queuedBy 1) (.start (.empty 2)) long) := by
  intro lost long
  have hlost : (log (queuedBy 1) (.start (.empty 2)) lost).length ≠
      (log (replyTo 1) (.start (.empty 2)) lost).length +
        (log (noticeTo 1) (.start (.empty 2)) lost).length := by decide +kernel
  have hlong : (log (queuedBy 1) (.start (.empty 2)) long).length ≠
      2 + (log (noticeTo 1) (.start (.empty 2)) long).length := by decide +kernel
  exact ⟨by decide +kernel, by decide +kernel, fun h => hlost h.length_eq, by decide +kernel,
    fun h => hlong h.length_eq⟩

end PeerChat.Server
