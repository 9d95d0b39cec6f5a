import PeerChat.Proofs.Client.Deed
import PeerChat.Proofs.Client.Lifecycle
import PeerChat.Proofs.Client.Speech

/-!
# Registering for the first time

A client that has reached the server offers it one name after the other: the one that is configured,
then those that the user types. What it has sent are the valid ones of them, and the replies that it
has heard are as many refusals but the last (`Client.Stage`). This holds whatever it meets with, as each
incident keeps it (`Progress.meet`, `registration_course`).
-/

namespace PeerChat

/-! ## Names and replies -/

/-- How a registration fails by its reply. -/
def SignUp.error? : SignUp → Option ClientError
  | .rejected reason => some (.told (Texts.registrationRejected reason))
  | .failed cause => some (.failed cause)
  | _ => none

namespace Client

/-- Whether the client is about to register for the first time, on a connection to the server. -/
def isSigningUp (c : Client) : Bool :=
  match c.task with
  | .choosingName | .signingUp _ => true
  | _ => false

/-- The names that are offered: the one that is configured, then one for each line that is used. -/
def candidates (c : Client) (used : List String) : List String :=
  c.settings.name.toList ++ used.map Text.trim

def registrations (c : Client) (names : List String) : List Effect :=
  names.map fun name => .sendServer (Command.register name c.port).bytes

/-- All names are taken. -/
def refusals (names : List String) : List SignUp := names.map fun _ => .nameTaken

/-- How far a client has come from `c` that has offered the valid names and heard the replies: what it
has done to the server, and what has become of it. -/
inductive Stage (c : Client) (valid : List String) (replies : List SignUp) (out : List Effect)
    (now : Client) : Prop
  | choosing (task : now.task = .choosingName) (refused : replies = refusals valid)
      (sent : out = c.registrations valid)
  | waiting {before : List String} {name : String} (task : now.task = .signingUp name)
      (last : valid = before ++ [name]) (refused : replies = refusals before)
      (sent : out = c.registrations valid)
  | registered {before : List String} {name : String} {link : Link} (task : now.task = .registered)
      (last : valid = before ++ [name]) (accepted : replies = refusals before ++ [.registered])
      (sent : out = c.registrations valid) (status : now.status = .registered)
      (named : now.name = name) (link_eq : now.link = some link) (linked : link.name = name)
  | failed {before : List String} {name : String} {reply : SignUp} {cause : ClientError}
      (task : now.task = .over (.error cause)) (last : valid = before ++ [name])
      (told : replies = refusals before ++ [reply]) (cause_eq : reply.error? = some cause)
      (sent : out = c.registrations valid ++ [.closeServer])
  | inputEnded {text : String} (task : now.task = .over (.error (.told text)))
      (refused : replies = refusals valid) (typed : now.typed = []) (ended : now.inputEnded = true)
      (sent : out = c.registrations valid ++ [.closeServer])
  | unsent {before : List String} {name : String}
      (task : now.task = .over (.error (.failed (.transport .brokenPipe))))
      (last : valid = before ++ [name]) (refused : replies = refusals before)
      (broken : now.serverWritable = false)
      (sent : out = c.registrations before ++ [.closeServer])

theorem registrations_concat (c : Client) (names : List String) (name : String) :
    c.registrations (names ++ [name]) =
      c.registrations names ++ [.sendServer (Command.register name c.port).bytes] := List.map_append

theorem refusals_concat (names : List String) (name : String) :
    refusals (names ++ [name]) = refusals names ++ [.nameTaken] := List.map_append

end Client

/-! ## One incident -/

/-- A registration under way: what is typed has been used in order, what is said has been heard in
order, and the client has come as far as that leads. -/
structure Client.Progress (c : Client) (s : Speech) (lines used : List String)
    (heard : List Line.Item) (out : List Effect) (now : Client) : Prop where
  settings : now.settings = c.settings
  port : now.port = c.port
  typed : lines = used ++ now.typed
  said : heard <+: s.items
  inbox : now.isSigningUp = true → ∃ i, now.inbox = some i ∧ i.Follows s heard
  stage : c.Stage ((c.candidates used).filter isName) (heard.filterMap SignUp.ofLine) out now

namespace Client

variable {c now : Client}

theorem cases_isSigningUp (h : now.isSigningUp = true) :
    now.task = .choosingName ∨ ∃ name, now.task = .signingUp name := by
  unfold isSigningUp at h
  split at h
  · exact .inl ‹_›
  · exact .inr ⟨_, ‹_›⟩
  · exact absurd h (by simp)

/-! ## Names that are offered -/

theorem candidates_concat (c : Client) (used : List String) (line : String) :
    c.candidates (used ++ [line]) = c.candidates used ++ [Text.trim line] := by
  simp [candidates]

/-- Where a name has been offered, after `valid` and so many refusals. -/
structure Offered (c : Client) (valid : List String) (out : List Effect) (name : String)
    (before : Client) (t : Turn) : Prop where
  settings : t.client.settings = before.settings
  port : t.client.port = before.port
  typed : t.client.typed = before.typed
  inbox : t.client.isSigningUp = true → t.client.inbox = before.inbox
  stage : c.Stage (valid ++ [name].filter isName) (refusals valid) (out ++ t.toServer) t.client

/-- A failure on the way closes the connection, and is told. -/
theorem client_closeInbox_fail (t : Turn) (cause : ClientError) :
    (t.closeInbox.fail cause).client =
      { t.client with
        inbox := none
        reception := t.client.reception.close.1
        task := .over (.error cause) } := by
  rw [Turn.fail, Turn.finish, Turn.client_setTask, Turn.client_receive]
  rfl

theorem toServer_closeInbox_fail (t : Turn) (cause : ClientError) :
    (t.closeInbox.fail cause).toServer = t.toServer ++ [.closeServer] := by
  rw [Turn.fail, Turn.finish, Turn.toServer_setTask, Turn.toServer_receive,
    Turn.toServer_closeInbox]

/-- A valid name is sent, if the server takes it; after another one the user is asked again. -/
theorem offered_offerName {t : Turn} {valid : List String} {out : List Effect}
    (hport : t.client.port = c.port) (hout : out = c.registrations valid) (ht : t.toServer = [])
    (name : String) : Offered c valid out name t.client (t.offerName name) := by
  unfold Turn.offerName
  split
  · rename_i hname
    have hvalid : [name].filter isName = [name] := List.filter_cons_of_pos hname
    unfold Turn.sendRegistration
    split
    · rename_i hw
      have hwritten : t.sendCommand (.register name t.client.port) =
          t.emit (.sendServer (Command.register name t.client.port).bytes) := if_pos hw
      rw [hwritten]
      refine ⟨rfl, rfl, rfl, fun _ => rfl, ?_⟩
      rw [hvalid]
      refine .waiting rfl rfl rfl ?_
      rw [Turn.toServer_setTask, Turn.toServer_sendServer, ht, hout, hport, registrations_concat]
      rfl
    · rename_i hw
      have hclient := client_closeInbox_fail t (.failed (.transport .brokenPipe))
      refine ⟨by rw [hclient], by rw [hclient], by rw [hclient], fun hs => ?_, ?_⟩
      · rw [hclient] at hs
        exact absurd hs (by simp [isSigningUp])
      · rw [hvalid]
        refine .unsent (congrArg Client.task hclient) rfl rfl ?_ ?_
        · rw [hclient]
          exact eq_false_of_ne_true hw
        · rw [toServer_closeInbox_fail, ht, hout]
          rfl
  · rename_i hname
    refine ⟨rfl, rfl, rfl, fun _ => rfl, ?_⟩
    rw [List.filter_cons_of_neg hname, List.filter_nil, List.append_nil]
    refine .choosing rfl rfl ?_
    rw [Turn.askName, Turn.toServer_setTask, Turn.toServer_print, Turn.toServer_printLine, ht,
      List.append_nil, hout]

/-! ## What each incident leads to -/

theorem Stage.of_choosing {valid : List String} {replies : List SignUp} {out : List Effect}
    (h : c.Stage valid replies out now) (ht : now.task = .choosingName) :
    replies = refusals valid ∧ out = c.registrations valid := by
  cases h with
  | choosing task refused sent => exact ⟨refused, sent⟩
  | waiting task | registered task | failed task | inputEnded task | unsent task =>
    exact absurd (ht.symm.trans task) (by simp)

theorem Stage.of_waiting {valid : List String} {replies : List SignUp} {out : List Effect}
    {name : String} (h : c.Stage valid replies out now) (ht : now.task = .signingUp name) :
    ∃ before, valid = before ++ [name] ∧ replies = refusals before ∧
      out = c.registrations valid := by
  cases h with
  | waiting task last refused sent =>
    obtain rfl := Task.signingUp.inj (ht.symm.trans task)
    exact ⟨_, last, refused, sent⟩
  | choosing task | registered task | failed task | inputEnded task | unsent task =>
    exact absurd (ht.symm.trans task) (by simp)

theorem Stage.of_same {valid : List String} {replies : List SignUp} {out : List Effect}
    {now' : Client} (h : c.Stage valid replies out now) (hs : now.isSigningUp = true)
    (ht : now'.task = now.task) : c.Stage valid replies out now' := by
  rcases cases_isSigningUp hs with hn | ⟨name, hn⟩
  · obtain ⟨hrefused, hsent⟩ := h.of_choosing hn
    exact .choosing (ht.trans hn) hrefused hsent
  · obtain ⟨before, hlast, hrefused, hsent⟩ := h.of_waiting hn
    exact .waiting (ht.trans hn) hlast hrefused hsent

namespace Progress

variable {s : Speech} {lines used : List String} {heard : List Line.Item} {out : List Effect}
  {x : Incident}

/-- More can be said, and more be typed. -/
theorem listens (h : c.Progress s lines used heard out now) (hs : now.isSigningUp = true)
    (hx : s.isOver = true → x.isSaid = false) {t : Turn} (ht : t.Listens now x) :
    c.Progress (s.hear x) (lines ++ x.line?.toList) used heard (out ++ t.toServer) t.client := by
  obtain ⟨i, hi, hfollows⟩ := h.inbox hs
  have hlater := hfollows.meet hx
  refine ⟨ht.settings.trans h.settings, ht.port.trans h.port, ?_, ?_, fun _ => ?_, ?_⟩
  · rw [ht.typed, h.typed, List.append_assoc]
  · rw [hlater.items_eq]
    exact List.prefix_append ..
  · exact ⟨i.meet x, by rw [ht.inbox, hi]; rfl, hlater⟩
  · rw [ht.silent, List.append_nil]
    exact h.stage.of_same hs ht.task

/-- A line is a name that is offered. -/
theorem offers (h : c.Progress s lines used heard out now) (hn : now.task = .choosingName)
    {line : String} {typed : List String} (hline : now.typed = line :: typed) :
    c.Progress s lines (used ++ [line]) heard
      (out ++ ((Turn.of { now with typed }).offerName (Text.trim line)).toServer)
      ((Turn.of { now with typed }).offerName (Text.trim line)).client := by
  obtain ⟨hrefused, hsent⟩ := h.stage.of_choosing hn
  have hoffer := offered_offerName (t := Turn.of { now with typed }) h.port hsent rfl (Text.trim line)
  refine ⟨hoffer.settings.trans h.settings, hoffer.port.trans h.port, ?_, h.said, fun hs => ?_, ?_⟩
  · rw [hoffer.typed, h.typed, hline, List.append_assoc]
    rfl
  · rw [hoffer.inbox hs]
    exact h.inbox (by simp only [isSigningUp, hn])
  · rw [candidates_concat, List.filter_append, hrefused]
    exact hoffer.stage

/-- The connection is closed for a cause. -/
theorem closes (h : c.Progress s lines used heard out now) {heard' : List Line.Item}
    (hsaid : heard' <+: s.items) (cause : ClientError)
    (hstage : ∀ now' : Client, now'.task = .over (.error cause) → now'.typed = now.typed →
      now'.inputEnded = now.inputEnded →
      c.Stage ((c.candidates used).filter isName) (heard'.filterMap SignUp.ofLine)
        (out ++ [.closeServer]) now') :
    c.Progress s lines used heard' (out ++ ((Turn.of now).closeInbox.fail cause).toServer)
      ((Turn.of now).closeInbox.fail cause).client := by
  have hclient := client_closeInbox_fail (Turn.of now) cause
  have htask := congrArg Client.task hclient
  refine ⟨?_, ?_, ?_, hsaid, fun hs => ?_, ?_⟩
  · rw [hclient]
    exact h.settings
  · rw [hclient]
    exact h.port
  · rw [hclient]
    exact h.typed
  · rw [hclient] at hs
    exact absurd hs (by simp [isSigningUp])
  · rw [toServer_closeInbox_fail]
    exact hstage _ htask (by rw [hclient]; rfl) (by rw [hclient]; rfl)

/-- Without another line there is no other name. -/
theorem inputEnds (h : c.Progress s lines used heard out now) (hn : now.task = .choosingName)
    (htyped : now.typed = []) (hended : now.inputEnded = true) (text : String) :
    c.Progress s lines used heard (out ++ ((Turn.of now).closeInbox.fail (.told text)).toServer)
      ((Turn.of now).closeInbox.fail (.told text)).client := by
  obtain ⟨hrefused, hsent⟩ := h.stage.of_choosing hn
  refine h.closes h.said (.told text) fun now' htask htyped' hended' => ?_
  exact .inputEnded htask hrefused (htyped'.trans htyped) (hended'.trans hended) (by rw [hsent])

/-- A reply is heard, and the client goes on or comes to an end. -/
theorem replies (h : c.Progress s lines used heard out now) {name : String}
    (hn : now.task = .signingUp name) {i later : Inbox} (hi : now.inbox = some i) {reply : SignUp}
    (hr : i.awaitReply = (some reply, later)) :
    ∃ heard', c.Progress s lines used heard'
      (out ++ ((Turn.of now).concludeSignUp name later reply).toServer)
      ((Turn.of now).concludeSignUp name later reply).client := by
  obtain ⟨before, hlast, hrefused, hsent⟩ := h.stage.of_waiting hn
  obtain ⟨i', hi', hfollows⟩ := h.inbox (by simp only [isSigningUp, hn])
  obtain rfl := Option.some.inj (hi.symm.trans hi')
  obtain ⟨skipped, item, hskipped, hitem, hsaid, hlater⟩ := hfollows.reply hr
  have hreplies : (heard ++ (skipped ++ [item])).filterMap SignUp.ofLine =
      refusals before ++ [reply] := by
    rw [List.filterMap_append, List.filterMap_append, hrefused,
      List.filterMap_eq_nil_iff.mpr hskipped]
    simp [hitem]
  refine ⟨heard ++ (skipped ++ [item]), ?_⟩
  cases reply with
  | registered =>
    refine ⟨h.settings, h.port, h.typed, hsaid, fun hs => absurd hs Bool.false_ne_true, ?_⟩
    refine .registered rfl hlast hreplies ?_ rfl rfl rfl (Link.name_ofInbox name later)
    rw [hsent]
    exact List.append_nil _
  | nameTaken =>
    have hne : item ≠ .ended := by
      rintro rfl
      exact absurd hitem (by simp [SignUp.ofLine])
    refine ⟨h.settings, h.port, h.typed, hsaid, fun _ => ⟨later, rfl, hlater hne⟩, ?_⟩
    refine .choosing rfl ?_ ?_
    · rw [hreplies, hlast, refusals_concat]
    · rw [hsent]
      exact List.append_nil _
  | rejected reason =>
    refine h.closes hsaid (.told (Texts.registrationRejected reason)) fun now' htask _ _ => ?_
    exact .failed htask hlast hreplies rfl (by rw [hsent])
  | failed cause =>
    refine h.closes hsaid (.failed cause) fun now' htask _ _ => ?_
    exact .failed htask hlast hreplies rfl (by rw [hsent])

/-- No reply has come, and all that has come is passed over. -/
theorem skips (h : c.Progress s lines used heard out now) {name : String}
    (hn : now.task = .signingUp name) {i later : Inbox} (hi : now.inbox = some i)
    (hr : i.awaitReply = (none, later)) :
    ∃ heard', c.Progress s lines used heard' out { now with inbox := some later } := by
  obtain ⟨i', hi', hfollows⟩ := h.inbox (by simp only [isSigningUp, hn])
  obtain rfl := Option.some.inj (hi.symm.trans hi')
  obtain ⟨skipped, hskipped, hlater, hsaid⟩ := hfollows.skips hr
  have hreplies : (heard ++ skipped).filterMap SignUp.ofLine = heard.filterMap SignUp.ofLine := by
    rw [List.filterMap_append, List.filterMap_eq_nil_iff.mpr hskipped, List.append_nil]
  refine ⟨heard ++ skipped, h.settings, h.port, h.typed, hsaid ▸ List.prefix_rfl,
    fun _ => ⟨later, rfl, hlater⟩, ?_⟩
  rw [hreplies]
  exact h.stage.of_same (by simp only [isSigningUp, hn]) rfl

/-- The user's next line is used, or the input has ended. -/
theorem keyboard (h : c.Progress s lines used heard out now) (hn : now.task = .choosingName) {t : Turn}
    (hm : now.moveKeyboard = some t) :
    ∃ used', c.Progress s lines used' heard (out ++ t.toServer) t.client := by
  have hwaits : now.awaitsLine = true := by rw [awaitsLine, hn]
  rw [moveKeyboard, if_pos hwaits] at hm
  split at hm
  · rename_i line typed hline
    have hoffer : onLine { now with typed } line =
        (Turn.of { now with typed }).offerName (Text.trim line) := by
      rw [onLine]
      simp only [hn]
    obtain rfl := Option.some.inj hm
    rw [hoffer]
    exact ⟨_, h.offers hn hline⟩
  · rename_i hnil
    split at hm
    · rename_i hended
      have hends : now.onInputEnd =
          (Turn.of now).closeInbox.fail (.told "stdin closed before registration") := by
        rw [onInputEnd, hn]
      obtain rfl := Option.some.inj hm
      rw [hends]
      exact ⟨used, h.inputEnds hn hnil hended _⟩
    · exact absurd hm (by simp)

/-- The server is heard, up to the reply or as far as it has spoken. -/
theorem server (h : c.Progress s lines used heard out now) {name : String}
    (hn : now.task = .signingUp name) {t : Turn} (hm : now.moveServer = some t) :
    ∃ heard', c.Progress s lines used heard' (out ++ t.toServer) t.client := by
  simp only [moveServer, hn] at hm
  obtain ⟨i, hi, hm⟩ := Option.bind_eq_some_iff.mp hm
  split at hm
  · rename_i reply later hr
    simp only [onReply, hn] at hm
    obtain rfl := Option.some.inj hm
    exact h.replies hn hi hr
  · rename_i later hr
    split at hm
    · exact absurd hm (by simp)
    · obtain rfl := Option.some.inj hm
      obtain ⟨heard', hlater⟩ := h.skips hn hi hr
      refine ⟨heard', ?_⟩
      rw [Turn.toServer_setInbox, Turn.toServer_of, List.append_nil]
      exact hlater

/-- Whatever a client meets with that registers, it goes on as it should. -/
theorem meet (h : c.Progress s lines used heard out now) (hs : now.isSigningUp = true)
    (hx : s.isOver = true → x.isSaid = false) :
    ∃ used' heard', c.Progress (s.hear x) (lines ++ x.line?.toList) used' heard'
      (out ++ (now.meet x).toServer) (now.meet x).client := by
  cases now.meeting x with
  | hears listens => exact ⟨used, heard, h.listens hs hx listens⟩
  | heeds awaited =>
    rcases cases_isSigningUp hs with hn | ⟨name, hn⟩ <;>
      exact absurd awaited (by simp [hn, Task.awaits])
  | loses mem =>
    rcases cases_isSigningUp hs with hn | ⟨name, hn⟩ <;>
      exact absurd mem (by simp [hn, Task.sources])
  | @moves source t mem move turn =>
    have hlines : lines ++ (Incident.act (.move source)).line?.toList = lines :=
      List.append_nil lines
    rw [turn, hlines]
    rcases cases_isSigningUp hs with hn | ⟨name, hn⟩
    · obtain rfl : source = .keyboard := by simpa [hn, Task.sources] using mem
      obtain ⟨used', hused⟩ := h.keyboard hn move
      exact ⟨used', heard, hused⟩
    · obtain rfl : source = .server := by simpa [hn, Task.sources] using mem
      obtain ⟨heard', hheard⟩ := h.server hn move
      exact ⟨used, heard', hheard⟩

end Progress

/-! ## All that is met with -/

/-- By induction on what the client meets with. -/
theorem Progress.meetAll {s : Speech} {lines used : List String} {heard : List Line.Item} {t : Turn}
    (h : c.Progress s lines used heard t.toServer t.client) {world : List Incident}
    (hs : t.Throughout (fun now => now.isSigningUp = true) world)
    (hover : s.isOver = true → ∀ x ∈ world, x.isSaid = false) (horder : Speech.Orderly world) :
    ∃ used' heard', c.Progress (s.hearAll world) (lines ++ world.filterMap Incident.line?) used' heard'
      (t.meetAll world).toServer (t.meetAll world).client := by
  induction world generalizing s lines used heard t with
  | nil => exact ⟨used, heard, by simpa [Speech.hearAll, Turn.meetAll] using h⟩
  | cons x world ih =>
    obtain ⟨hnow, hlater⟩ := hs
    obtain ⟨hx, horder⟩ := List.pairwise_cons.mp horder
    obtain ⟨used', heard', hnext⟩ :=
      h.meet hnow fun hclosed => hover hclosed x (List.mem_cons_self ..)
    rw [← Turn.toServer_meet] at hnext
    have hover' : (s.hear x).isOver = true → ∀ y ∈ world, y.isSaid = false := by
      intro hclosed y hy
      rw [Speech.isOver_hear, Bool.or_eq_true] at hclosed
      rcases hclosed with hclosed | hends
      · exact hover hclosed y (List.mem_cons_of_mem x hy)
      · exact hx y hy hends
    obtain ⟨used'', heard'', hrest⟩ := ih (t := t.meet x) hnext hlater hover' horder
    refine ⟨used'', heard'', ?_⟩
    have hlines : lines ++ (x :: world).filterMap Incident.line? =
        lines ++ x.line?.toList ++ world.filterMap Incident.line? := by
      cases hl : x.line? with
      | none => rw [List.filterMap_cons_none hl]; simp
      | some line => rw [List.filterMap_cons_some hl]; simp
    rw [hlines]
    exact hrest

/-- A client that has nothing to do awaits a line, or a reply. -/
theorem Progress.rests {s : Speech} {lines used : List String} {heard : List Line.Item}
    {out : List Effect} (h : c.Progress s lines used heard out now)
    (hrest : ∀ source, now.move? source = none) :
    (now.task = .choosingName → now.typed = [] ∧ now.inputEnded = false) ∧
      ∀ name, now.task = .signingUp name → s.isOver = false ∧ s.items = heard := by
  constructor
  · intro hn
    have hnone : now.moveKeyboard = none := hrest .keyboard
    have hwaits : now.awaitsLine = true := by rw [awaitsLine, hn]
    rw [moveKeyboard, if_pos hwaits] at hnone
    split at hnone
    · exact absurd hnone (by simp)
    · rename_i hnil
      split at hnone
      · exact absurd hnone (by simp)
      · rename_i hended
        exact ⟨hnil, eq_false_of_ne_true hended⟩
  · intro name hn
    obtain ⟨i, hi, hfollows⟩ := h.inbox (by simp only [isSigningUp, hn])
    have hnone : now.moveServer = none := hrest .server
    simp only [moveServer, hn, hi, Option.bind_some] at hnone
    split at hnone
    · exact absurd hnone (by simp)
    · rename_i later hr
      split at hnone
      · rename_i hsame
        obtain ⟨hopen, -, hwaits, -⟩ := Inbox.skips_of_awaitReply hr
        refine ⟨hfollows.ended_eq.symm.trans hopen, ?_⟩
        rw [hfollows.items_eq, hopen, ← hsame, hwaits, List.append_nil]
      · exact absurd hnone (by simp)

end Client

end PeerChat
