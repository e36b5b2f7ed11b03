import SockTestProgram.App.FrontRefinement

/-!
# Which session a request goes to

A handler sends its request on the session that is current when its event is handled.  That is the
right one if the servers keep to their part (`KeepsTo`): a world server sends no world list and no
response to a registration, and the directory no answer to a login that asks for a new player, and
neither a world list nor a response to a registration after the response that makes the client
switch to a world.  The world list is requested from the directory, and the login from a world, in
any case (`requests_of_run`).
-/

open Lts

namespace SockTestProgram

/-- The server that sends a response. -/
def Response.server : Response → Server
  | .worldList | .userRegister => .directory
  | .login | .createPlayer => .world

/-- The server that a request is for. -/
def Request.server (r : Request) : Server := r.response.server

/-- A request goes to a session that was opened for its server. -/
def ClientAction.Addressed : ClientAction → Prop
  | .connectServer _ _ _ _ => True
  | .sendBuffer r recipient => ∃ p ∈ recipient, p.serverID = r.server.id

/-- A request goes to a session that was opened for its server and is connected. -/
def ClientAction.Right : ClientAction → Prop
  | .connectServer _ _ _ _ => True
  | .sendBuffer r recipient => ∃ p ∈ recipient, p.serverID = r.server.id ∧ p.connected = true

instance : DecidablePred ClientAction.Right
  | .connectServer _ _ _ _ => isTrue trivial
  | .sendBuffer _ none => isFalse (by simp [ClientAction.Right])
  | .sendBuffer r (some p) =>
    decidable_of_iff (p.serverID = r.server.id ∧ p.connected = true) (by simp [ClientAction.Right])

/-- `chosenServer` after these events. -/
def chosenBy (told : List Notice) : Option (Option WorldInfo) :=
  told.foldl (fun chosen n => match n with
    | .answer .worldList m => m.worldList.head?
    | _ => chosen) none

/-- What a server may send. -/
def KeepsTo : Server → List Notice → Prop
  | .directory, told =>
    (∀ m, .answer .login m ∈ told → m.exception ≠ "ET_NO_DATA") ∧
      ∀ before m after, told = before ++ .answer .userRegister m :: after →
        (chosenBy before).isSome = true →
        ∀ r m', .answer r m' ∈ after → r.server ≠ .directory
  | .world, told => ∀ r m, .answer r m ∈ told → r.server ≠ .directory

/-- Every server keeps to its part. -/
def Client.ServersKeep (decode : String → Bytes → Decoded LuaMessage) (c : Client) : Prop :=
  ∀ s ∈ c.world.manager.sessions, ∀ server : Server,
    s.session.connectingServerStr = server.id → KeepsTo server (s.told decode)

/-! ## The same of a front -/

theorem chosenBy_concat (told : List Notice) (n : Notice) :
    chosenBy (told ++ [n]) = match n with
      | .answer .worldList m => m.worldList.head?
      | _ => chosenBy told := by
  rw [chosenBy, List.foldl_concat]
  rfl

theorem KeepsTo.of_append {server : Server} {told more : List Notice}
    (h : KeepsTo server (told ++ more)) : KeepsTo server told := by
  cases server with
  | directory =>
    refine ⟨fun m hm => h.1 m (List.mem_append_left _ hm), ?_⟩
    rintro before m after rfl hchosen r m' hm'
    exact h.2 before m (after ++ more) (by simp) hchosen r m' (List.mem_append_left _ hm')
  | world => exact fun r m hm => h r m (List.mem_append_left _ hm)

namespace Front

variable {f f' : Front}

/-- Every server keeps to its part. -/
def Keeps (f : Front) : Prop := ∀ p ∈ f.peers, KeepsTo p.server p.told

theorem recipient_congr (h : f'.peers = f.peers) : f'.recipient = f.recipient := by
  simp only [recipient, current, h]

theorem recipient_concat (ps : List Peer) (p : Peer) (h : f.peers = ps ++ [p]) :
    f.recipient = some ⟨ps.length, p.server.id, p.connected⟩ := by
  simp [recipient, current, h]

end Front

/-- A session that told something is connected; it told that first, and then passed answers on. -/
structure Peer.Sound (p : Peer) : Prop where
  connected : p.told ≠ [] → p.connected = true
  first : ∀ n ∈ p.told.head?, n = .connected p.server
  answers : ∀ n ∈ p.told.tail, ∃ r m, n = .answer r m

namespace Peer

variable {p : Peer}

theorem sound_new (server : Server) : (⟨server, false, []⟩ : Peer).Sound :=
  ⟨fun h => absurd rfl h, by simp, by simp⟩

theorem Sound.connect (h : p.Sound) : ({ p with connected := true } : Peer).Sound :=
  ⟨fun _ => rfl, h.first, h.answers⟩

theorem Sound.tell (h : p.Sound) {n : Notice} (hc : p.connected = true) (hn : Front.MayTell p n) :
    ({ p with told := p.told ++ [n] } : Peer).Sound := by
  refine ⟨fun _ => hc, ?_, ?_⟩
  · cases n with
    | disconnected => cases hn
    | connected server => simp [hn.1, hn.2]
    | answer r m =>
      obtain ⟨n₀, told, htold⟩ := List.exists_cons_of_ne_nil hn
      simpa [htold] using h.first
  · cases n with
    | disconnected => cases hn
    | connected server => simp [hn.2]
    | answer r m =>
      obtain ⟨n₀, told, htold⟩ := List.exists_cons_of_ne_nil hn
      have hanswers := h.answers
      simp only [htold, List.tail_cons, List.cons_append, List.mem_append,
        List.mem_singleton] at hanswers ⊢
      rintro n (hn | rfl)
      · exact hanswers n hn
      · exact ⟨r, m, rfl⟩

/-- What a session told is an answer, unless it is the first. -/
theorem Sound.cases (h : p.Sound) {n : Notice} (hn : n ∈ p.told) :
    n = .connected p.server ∨ ∃ r m, n = .answer r m := by
  cases htold : p.told with
  | nil => simp [htold] at hn
  | cons n₀ told =>
    rw [htold] at hn
    rcases List.mem_cons.1 hn with rfl | hn
    · exact .inl (h.first n (by simp [htold]))
    · exact .inr (h.answers n (by simpa [htold] using hn))

end Peer

/-- A request for the world list was right, a login was addressed to a world, and every action is
right if the servers keep to their part (`keeps`). -/
def ClientAction.Placed (keeps : Prop) (a : ClientAction) : Prop :=
  (∀ recipient, a = .sendBuffer .requestWorldList recipient → a.Right) ∧
    ((∃ r recipient, a = .sendBuffer r recipient ∧ r.response = .login) → a.Addressed) ∧
    (keeps → a.Right)

theorem ClientAction.Placed.mono {keeps keeps' : Prop} {a : ClientAction} (h : a.Placed keeps)
    (hk : keeps' → keeps) : a.Placed keeps' :=
  ⟨h.1, h.2.1, fun hkeeps => h.2.2 (hk hkeeps)⟩

theorem ClientAction.Right.placed {keeps : Prop} {a : ClientAction} (h : a.Right) :
    a.Placed keeps := by
  refine ⟨fun _ _ => h, fun _ => ?_, fun _ => h⟩
  cases a with
  | connectServer => trivial
  | sendBuffer r recipient =>
    obtain ⟨p, hp, hserver, -⟩ := h
    exact ⟨p, hp, hserver⟩

namespace Front

variable {f f' : Front}

/-- The directory session `d` is the only one, and its events were handled up to those in the
queue. -/
structure AtDirectory (f : Front) (d : Peer) (handled : List Notice) : Prop where
  peers : f.peers = [d]
  sound : d.Sound
  server : d.server = .directory
  told : d.told = handled ++ f.queue
  chosen : f.chosenServer = chosenBy handled

/-- The client has switched from the directory to a world, or to several in turn; `m` was the
response that made it switch, and `rest` is what the directory told after it. -/
structure AtWorld (f : Front) (d : Peer) (ws : List Peer) (handled : List Notice) (m : LuaMessage)
    (rest : List Notice) : Prop where
  peers : f.peers = d :: ws
  sound : ∀ p ∈ d :: ws, p.Sound
  directory : d.server = .directory
  worlds : ∀ w ∈ ws, w.server = .world
  switched : ws ≠ []
  told : d.told = handled ++ .answer .userRegister m :: rest
  chosen : (chosenBy handled).isSome = true
  queue : ∀ n ∈ f.queue, n ∈ rest ∨ ∃ w ∈ ws, n ∈ w.told
  single : f.Keeps → ws.length = 1

/-- Where the client stands. -/
inductive Standing (f : Front) : Prop
  | opening (peers : f.peers = []) (queue : f.queue = [.disconnected])
      (chosen : f.chosenServer = none)
  | directory (d : Peer) (handled : List Notice) (h : f.AtDirectory d handled)
  | world (d : Peer) (ws : List Peer) (handled : List Notice) (m : LuaMessage) (rest : List Notice)
    (h : f.AtWorld d ws handled m rest)

/-- What holds in every state. -/
structure Placing (f : Front) : Prop where
  standing : f.Standing
  placed : ∀ a ∈ f.actions, a.Placed f.Keeps

/-! ## One step -/

theorem mem_set_of_getElem? {ps : List Peer} {j : ℕ} {p q : Peer} (p' : Peer)
    (hp : ps[j]? = some p) (hq : q ∈ ps) : q ∈ ps.set j p' ∨ q = p ∧ p' ∈ ps.set j p' := by
  obtain ⟨i, hi⟩ := List.mem_iff_getElem?.1 hq
  by_cases hij : j = i
  · subst hij
    obtain rfl := Option.some.inj (hp.symm.trans hi)
    exact .inr ⟨rfl, List.mem_of_getElem?
      (List.getElem?_set_self (List.getElem?_eq_some_iff.1 hp).1)⟩
  · exact .inl (List.mem_of_getElem? ((List.getElem?_set_ne hij).trans hi))

theorem handle_peers {n : Notice} (h : f.handle n = some f') : f.peers <+: f'.peers := by
  cases handled_of_handle h
  case disconnected => exact List.prefix_append _ _
  case switch => exact List.prefix_append _ _
  all_goals exact List.prefix_rfl

/-- Servers that keep to their part after a step did so before it. -/
theorem keeps_of_step {e : FrontEvent} (h : f.step e = some f') (hk : f'.Keeps) : f.Keeps := by
  intro q hq
  cases stepped_of_step h with
  | connected j p hp =>
    rcases mem_set_of_getElem? { p with connected := true } hp hq with hq' | ⟨rfl, hq'⟩
    · exact hk q hq'
    · have hkeeps := hk _ hq'
      exact hkeeps
  | tell j n p hp hc hn =>
    rcases mem_set_of_getElem? { p with told := p.told ++ [n] } hp hq with hq' | ⟨rfl, hq'⟩
    · exact hk q hq'
    · exact (hk _ hq').of_append
  | handle n rest f' hqueue hf => exact hk q ((handle_peers hf).subset hq)

variable {d : Peer} {ws : List Peer} {handled rest : List Notice} {m : LuaMessage}

theorem AtDirectory.recipient (h : f.AtDirectory d handled) :
    f.recipient = some ⟨0, Server.directory.id, d.connected⟩ := by
  rw [recipient_concat [] d h.peers, h.server]
  rfl

theorem AtWorld.recipient (h : f.AtWorld d ws handled m rest) :
    ∃ j, ∃ w ∈ ws, f.recipient = some ⟨j, Server.world.id, w.connected⟩ := by
  obtain hnil | ⟨ws', w, hws⟩ := List.eq_nil_or_concat ws
  · exact absurd hnil h.switched
  rw [List.concat_eq_append] at hws
  have hw : w ∈ ws := by simp [hws]
  have hrec := recipient_concat (f := f) (d :: ws') w (by rw [h.peers, hws]; rfl)
  rw [h.worlds w hw] at hrec
  exact ⟨_, w, hw, hrec⟩

/-- An event of the directory's that waits to be handled. -/
theorem AtDirectory.cases (h : f.AtDirectory d handled) {n : Notice} (hn : n ∈ f.queue) :
    n ∈ d.told ∧ (n = .connected .directory ∨ ∃ r m, n = .answer r m) := by
  have hmem : n ∈ d.told := by simp [h.told, hn]
  exact ⟨hmem, h.server ▸ h.sound.cases hmem⟩

/-- The directory told that it is connected before its other events. -/
theorem AtWorld.rest_answers (h : f.AtWorld d ws handled m rest) {n : Notice} (hn : n ∈ rest) :
    ∃ r m, n = .answer r m := by
  have hsound := h.sound d (by simp)
  refine hsound.answers n ?_
  rw [h.told]
  cases handled with
  | nil => simpa using hn
  | cons n₀ handled => simp [hn]

/-- An event that waits to be handled after the switch: the directory's or a world's. -/
theorem AtWorld.cases (h : f.AtWorld d ws handled m rest) {n : Notice} (hn : n ∈ f.queue) :
    (∃ r m, n = .answer r m) ∨ n = .connected .world ∧ ∃ w ∈ ws, n ∈ w.told := by
  obtain hn | ⟨w, hw, hn⟩ := h.queue n hn
  · exact .inl (h.rest_answers hn)
  · rcases (h.sound w (by simp [hw])).cases hn with rfl | hanswer
    · exact .inr ⟨by rw [h.worlds w hw], w, hw, hn⟩
    · exact .inl hanswer

/-- While the servers keep to their part, no answer of the directory's waits after the switch. -/
theorem AtWorld.no_directory_answer (h : f.AtWorld d ws handled m rest) (hk : f.Keeps)
    {r : Response} {m' : LuaMessage} (hn : .answer r m' ∈ f.queue) : r.server ≠ .directory := by
  obtain hn | ⟨w, hw, hn⟩ := h.queue _ hn
  · have hkeeps := hk d (by simp [h.peers])
    rw [h.directory] at hkeeps
    exact hkeeps.2 handled m rest h.told h.chosen r m' hn
  · have hkeeps := hk w (by simp [h.peers, hw])
    rw [h.worlds w hw] at hkeeps
    exact hkeeps r m' hn

/-- What a world told shows that the current session is connected, while the servers keep to their
part. -/
theorem AtWorld.recipient_connected (h : f.AtWorld d ws handled m rest) (hk : f.Keeps) {w : Peer}
    (hw : w ∈ ws) (hne : w.told ≠ []) :
    ∃ j, f.recipient = some ⟨j, Server.world.id, true⟩ := by
  obtain ⟨w₀, rfl⟩ := List.length_eq_one_iff.1 (h.single hk)
  obtain ⟨j, w', hw', hrec⟩ := h.recipient
  obtain rfl := List.mem_singleton.1 hw
  obtain rfl := List.mem_singleton.1 hw'
  exact ⟨j, by rw [hrec, (h.sound w' (by simp)).connected hne]⟩

/-- The session at place `j` becomes `p'`: it is connected, or told `more`. -/
structure Updates (f f' : Front) (j : ℕ) (p p' : Peer) (more : List Notice) : Prop where
  peer : f.peers[j]? = some p
  sound : p.Sound → p'.Sound
  server : p'.server = p.server
  told : p'.told = p.told ++ more
  peers : f'.peers = f.peers.set j p'
  queue : f'.queue = f.queue ++ more
  chosen : f'.chosenServer = f.chosenServer
  keeps : f'.Keeps → f.Keeps

theorem AtDirectory.update {j : ℕ} {p p' : Peer} {more : List Notice} (h : f.AtDirectory d handled)
    (hu : f.Updates f' j p p' more) : f'.AtDirectory p' handled := by
  have hp := hu.peer
  rw [h.peers, List.getElem?_singleton, Option.ite_none_right_eq_some, Option.some.injEq] at hp
  obtain ⟨rfl, rfl⟩ := hp
  exact ⟨by rw [hu.peers, h.peers]; rfl, hu.sound h.sound, hu.server.trans h.server,
    by rw [hu.told, hu.queue, h.told, List.append_assoc], hu.chosen.trans h.chosen⟩

theorem AtWorld.update {j : ℕ} {p p' : Peer} {more : List Notice}
    (h : f.AtWorld d ws handled m rest) (hu : f.Updates f' j p p' more) : f'.Standing := by
  have hp := hu.peer
  have hpeers := hu.peers
  rw [h.peers] at hp hpeers
  cases j with
  | zero =>
    obtain rfl := Option.some.inj hp
    refine .world p' ws handled m (rest ++ more) ⟨hpeers, fun q hq => ?_,
      hu.server.trans h.directory, h.worlds, h.switched, by rw [hu.told, h.told]; simp, h.chosen,
      fun n hn => ?_, fun hk => h.single (hu.keeps hk)⟩
    · rcases List.mem_cons.1 hq with rfl | hq
      · exact hu.sound (h.sound d (by simp))
      · exact h.sound q (by simp [hq])
    · rcases List.mem_append.1 (hu.queue ▸ hn) with hn | hn
      · exact (h.queue n hn).imp_left fun hn => by simp [hn]
      · exact .inl (by simp [hn])
  | succ j =>
    have hp : ws[j]? = some p := hp
    have hmem := List.mem_of_getElem? hp
    have hp' : p' ∈ ws.set j p' :=
      List.mem_of_getElem? (List.getElem?_set_self (List.getElem?_eq_some_iff.1 hp).1)
    refine .world d (ws.set j p') handled m rest ⟨hpeers, fun q hq => ?_, h.directory,
      fun w hw => ?_, by simpa using h.switched, h.told, h.chosen, fun n hn => ?_,
      fun hk => by simpa using h.single (hu.keeps hk)⟩
    · rcases List.mem_cons.1 hq with rfl | hq
      · exact h.sound q (by simp)
      · rcases List.mem_or_eq_of_mem_set hq with hq | rfl
        · exact h.sound q (by simp [hq])
        · exact hu.sound (h.sound p (by simp [hmem]))
    · rcases List.mem_or_eq_of_mem_set hw with hw | rfl
      · exact h.worlds w hw
      · exact hu.server.trans (h.worlds p hmem)
    · rcases List.mem_append.1 (hu.queue ▸ hn) with hn | hn
      · refine (h.queue n hn).imp_right fun ⟨w, hw, hn⟩ => ?_
        rcases mem_set_of_getElem? p' hp hw with hw | ⟨rfl, -⟩
        · exact ⟨w, hw, hn⟩
        · exact ⟨p', hp', by rw [hu.told]; simp [hn]⟩
      · exact .inr ⟨p', hp', by rw [hu.told]; simp [hn]⟩

theorem Standing.update {j : ℕ} {p p' : Peer} {more : List Notice} (h : f.Standing)
    (hu : f.Updates f' j p p' more) : f'.Standing := by
  cases h with
  | opening hpeers hqueue hchosen =>
    have hp := hu.peer
    simp [hpeers] at hp
  | directory d handled h => exact .directory p' handled (h.update hu)
  | world d ws handled m rest h => exact h.update hu

/-- An event was handled, and the sessions are as before. -/
theorem AtDirectory.pop (h : f.AtDirectory d handled) {n : Notice} {queue : List Notice}
    (hq : f.queue = n :: queue) (hpeers : f'.peers = f.peers) (hqueue : f'.queue = queue)
    (hchosen : f'.chosenServer = chosenBy (handled ++ [n])) :
    f'.AtDirectory d (handled ++ [n]) :=
  ⟨hpeers.trans h.peers, h.sound, h.server, by rw [h.told, hq, hqueue]; simp, hchosen⟩

/-- The event was not the world list. -/
theorem AtDirectory.pass (h : f.AtDirectory d handled) {n : Notice} {queue : List Notice}
    (hq : f.queue = n :: queue) (hpeers : f'.peers = f.peers) (hqueue : f'.queue = queue)
    (hchosen : f'.chosenServer = f.chosenServer) (hn : ∀ m, n ≠ .answer .worldList m) :
    f'.AtDirectory d (handled ++ [n]) := by
  refine h.pop hq hpeers hqueue ?_
  rw [hchosen, h.chosen, chosenBy_concat]
  split
  · exact absurd rfl (hn _)
  · rfl

theorem AtWorld.pop (h : f.AtWorld d ws handled m rest) {n : Notice} {queue : List Notice}
    (hq : f.queue = n :: queue) (hpeers : f'.peers = f.peers) (hqueue : f'.queue = queue) :
    f'.AtWorld d ws handled m rest :=
  ⟨hpeers.trans h.peers, h.sound, h.directory, h.worlds, h.switched, h.told, h.chosen,
    fun n hn => h.queue n (by rw [hq, List.mem_cons]; exact .inr (hqueue ▸ hn)),
    fun hk => h.single (by rwa [Keeps, ← hpeers])⟩

theorem Placing.same (h : f.Placing) (hs : f'.Standing) (hk : f'.Keeps → f.Keeps)
    (ha : f'.actions = f.actions) : f'.Placing :=
  ⟨hs, fun a hmem => (h.placed a (ha ▸ hmem)).mono hk⟩

theorem Placing.next (h : f.Placing) (hs : f'.Standing) (hk : f'.Keeps → f.Keeps)
    {a : ClientAction} (ha : f'.actions = f.actions ++ [a]) (hnew : a.Placed f'.Keeps) :
    f'.Placing := by
  refine ⟨hs, fun b hmem => ?_⟩
  rcases List.mem_append.1 (ha ▸ hmem) with hmem | hmem
  · exact (h.placed b hmem).mono hk
  · exact List.mem_singleton.1 hmem ▸ hnew

/-- While only the directory was opened, it gets every request, and is connected. -/
theorem AtDirectory.right (h : f.AtDirectory d handled) (hne : d.told ≠ []) {f₁ : Front}
    (hf : f₁.peers = f.peers) {r : Request} (hr : r.server = .directory) :
    (ClientAction.sendBuffer r f₁.recipient).Right := by
  rw [recipient_congr hf, h.recipient, h.sound.connected hne]
  exact ⟨_, rfl, by rw [hr], rfl⟩

theorem AtDirectory.placing_handle (hpl : f.Placing) (h : f.AtDirectory d handled) {n : Notice}
    {queue : List Notice} (hq : f.queue = n :: queue)
    (hf : Handled { f with queue := queue } n f') (hk : f'.Keeps → f.Keeps) : f'.Placing := by
  obtain ⟨hmem, hn⟩ := h.cases (n := n) (by simp [hq])
  have hne := List.ne_nil_of_mem hmem
  cases hf with
  | disconnected => simp at hn
  | directoryConnected =>
    refine hpl.next (.directory d _ (h.pass hq rfl rfl rfl (by simp))) hk rfl ?_
    exact (h.right hne rfl rfl).placed
  | worldConnected => simp at hn
  | worldList m hm =>
    refine hpl.next (.directory d _ (h.pop hq rfl rfl ?_)) hk rfl ?_
    · rw [chosenBy_concat]
      rfl
    · exact (h.right hne rfl rfl).placed
  | switch m server hs =>
    have hswitched : (chosenBy handled).isSome = true := by
      rw [← h.chosen, show f.chosenServer = some (some server) from hs]
      rfl
    have hsound : ∀ p ∈ [d, ⟨.world, false, []⟩], p.Sound := by
      simpa using ⟨h.sound, Peer.sound_new .world⟩
    refine hpl.next (.world d [⟨.world, false, []⟩] handled m queue ⟨by simp [connect, h.peers],
      hsound, h.server, by simp, by simp, by rw [h.told, hq], hswitched, fun n hn => .inl hn,
      fun _ => rfl⟩) hk rfl ?_
    exact ClientAction.Right.placed trivial
  | stay m hs =>
    exact hpl.same (.directory d _ (h.pass hq rfl rfl rfl (by simp))) hk rfl
  | newPlayer m hm =>
    refine hpl.next (.directory d _ (h.pass hq rfl rfl rfl (by simp))) hk rfl ?_
    -- the directory does not send this answer
    have hno : ¬ f.Keeps := fun hkeeps => by
      have hd := hkeeps d (by simp [h.peers])
      rw [h.server] at hd
      exact hd.1 m hmem hm.symm
    simp [ClientAction.Placed, Request.response, mt hk hno]
  | loggedIn m hm =>
    exact hpl.same (.directory d _ (h.pass hq rfl rfl rfl (by simp))) hk rfl
  | created m =>
    exact hpl.same (.directory d _ (h.pass hq rfl rfl rfl (by simp))) hk rfl

theorem AtWorld.placing_handle (hpl : f.Placing) (h : f.AtWorld d ws handled m rest) {n : Notice}
    {queue : List Notice} (hq : f.queue = n :: queue)
    (hf : Handled { f with queue := queue } n f') (hk : f'.Keeps → f.Keeps) : f'.Placing := by
  have hn := h.cases (n := n) (by simp [hq])
  -- a directory's answer is not handled while the servers keep to their part
  have hno {r : Response} {m' : LuaMessage} (hn' : n = .answer r m') (hr : r.server = .directory) :
      ¬ f.Keeps := fun hkeeps =>
    h.no_directory_answer hkeeps (show .answer r m' ∈ f.queue by simp [hq, hn']) hr
  cases hf with
  | disconnected => simp at hn
  | directoryConnected => simp at hn
  | worldConnected =>
    refine hpl.next (.world d ws handled m rest (h.pop hq rfl rfl)) hk rfl ?_
    refine ⟨by simp, fun _ => ?_, fun hkeeps => ?_⟩
    · obtain ⟨j, w, hw, hrec⟩ := h.recipient
      exact ⟨_, hrec, rfl⟩
    · obtain ⟨w, hw, htold⟩ : ∃ w ∈ ws, Notice.connected .world ∈ w.told := by simpa using hn
      obtain ⟨j, hrec⟩ := h.recipient_connected (hk hkeeps) hw (List.ne_nil_of_mem htold)
      exact ⟨_, hrec, rfl, rfl⟩
  | worldList m' hm =>
    refine hpl.next (.world d ws handled m rest (h.pop hq rfl rfl)) hk rfl ?_
    simp [ClientAction.Placed, Request.response, mt hk (hno rfl rfl)]
  | switch m' server hs =>
    let w₀ : Peer := ⟨.world, false, []⟩
    refine hpl.next (.world d (ws ++ [w₀]) handled m rest ⟨by simp [connect, h.peers, w₀], ?_,
      h.directory, ?_, by simp, h.told, h.chosen, fun n hn => ?_,
      fun hkeeps => absurd (hk hkeeps) (hno rfl rfl)⟩) hk rfl (ClientAction.Right.placed trivial)
    · intro p hp
      simp only [List.mem_cons, List.mem_append, List.not_mem_nil, or_false] at hp
      obtain rfl | hp | rfl := hp
      · exact h.sound p (by simp)
      · exact h.sound p (by simp [hp])
      · exact Peer.sound_new .world
    · intro w hw
      rcases List.mem_append.1 hw with hw | hw
      · exact h.worlds w hw
      · rw [List.mem_singleton.1 hw]
    · refine (h.queue n (by rw [hq]; exact List.mem_cons_of_mem _ hn)).imp_right ?_
      rintro ⟨w, hw, htold⟩
      exact ⟨w, by simp [hw], htold⟩
  | stay m' hs => exact hpl.same (.world d ws handled m rest (h.pop hq rfl rfl)) hk rfl
  | newPlayer m' hm =>
    refine hpl.next (.world d ws handled m rest (h.pop hq rfl rfl)) hk rfl ?_
    refine ⟨by simp, by simp [Request.response], fun hkeeps => ?_⟩
    -- the directory does not send this answer, so a world did
    rcases h.queue (.answer .login m') (by simp [hq]) with htold | ⟨w, hw, htold⟩
    · have hd := hk hkeeps d (by simp [h.peers])
      rw [h.directory] at hd
      exact absurd hm.symm (hd.1 m' (by rw [h.told]; simp [htold]))
    · obtain ⟨j, hrec⟩ := h.recipient_connected (hk hkeeps) hw (List.ne_nil_of_mem htold)
      exact ⟨_, hrec, rfl, rfl⟩
  | loggedIn m' hm => exact hpl.same (.world d ws handled m rest (h.pop hq rfl rfl)) hk rfl
  | created m' => exact hpl.same (.world d ws handled m rest (h.pop hq rfl rfl)) hk rfl

theorem placing_step {e : FrontEvent} (h : f.Placing) (hs : f.step e = some f') : f'.Placing := by
  have hk := keeps_of_step hs
  cases stepped_of_step hs with
  | connected j p hp =>
    have hu : f.Updates { f with peers := f.peers.set j { p with connected := true } } j p
        { p with connected := true } [] :=
      ⟨hp, Peer.Sound.connect, rfl, (List.append_nil _).symm, rfl,
        (List.append_nil _).symm, rfl, hk⟩
    exact h.same (h.standing.update hu) hk rfl
  | tell j n p hp hc hn =>
    have hu : f.Updates { f with
        peers := f.peers.set j { p with told := p.told ++ [n] }
        queue := f.queue ++ [n] } j p { p with told := p.told ++ [n] } [n] :=
      ⟨hp, fun hsound => hsound.tell hc hn, rfl, rfl, rfl, rfl, rfl, hk⟩
    exact h.same (h.standing.update hu) hk rfl
  | handle n queue f' hq hf =>
    have hhandled := handled_of_handle hf
    cases h.standing with
    | opening hpeers hqueue hchosen =>
      obtain ⟨rfl, rfl⟩ := List.cons.inj (hq.symm.trans hqueue)
      cases hhandled
      refine h.next (.directory ⟨.directory, false, []⟩ [] ⟨?_, Peer.sound_new _, rfl,
        rfl, hchosen⟩)
        hk rfl (ClientAction.Right.placed trivial)
      simp [connect, hpeers]
    | directory d handled hd => exact hd.placing_handle h hq hhandled hk
    | world d ws handled m rest hw => exact hw.placing_handle h hq hhandled hk

theorem placing_start : start.Placing := ⟨.opening rfl rfl rfl, by simp [start]⟩

end Front

namespace Client

open ClientEvent

variable {P : Platform} {conf : LuaConf} {packCmd : Request → Bytes}
  {decode : String → Bytes → Decoded LuaMessage} {c : Client}

theorem Shows.keeps {f : Front} (h : c.Shows decode f) (hk : c.ServersKeep decode) : f.Keeps := by
  intro p hp
  obtain ⟨j, hj⟩ := List.mem_iff_getElem?.1 hp
  have hlt : j < c.world.manager.sessions.length :=
    h.world.length ▸ (List.getElem?_eq_some_iff.1 hj).1
  have hs := List.getElem?_eq_getElem hlt
  have hshows := h.world.peers j _ p hs hj
  have hkeeps := hk _ (List.mem_of_getElem? hs) p.server hshows.server
  rwa [hshows.told] at hkeeps

/-- **Which session a request goes to.**  In every run the world list is requested from a connected
session of the directory, and the login from a session of a world.  As long as the servers keep to
their part, every request goes to a connected session of its server. -/
theorem requests_of_run {es : List ClientEvent}
    (hrun : run (step P conf packCmd decode) start es = some c) :
    (∀ recipient, .sendBuffer .requestWorldList recipient ∈ c.world.actions →
        (ClientAction.sendBuffer .requestWorldList recipient).Right) ∧
      (∀ r recipient, .sendBuffer r recipient ∈ c.world.actions → r.response = .login →
        (ClientAction.sendBuffer r recipient).Addressed) ∧
      (c.ServersKeep decode → ∀ a ∈ c.world.actions, a.Right) := by
  obtain ⟨fs, f, hfs, hshows⟩ := run_front hrun
  have h : f.Placing := run_invariant (fun _ _ _ => Front.placing_step) hfs Front.placing_start
  rw [hshows.world.actions]
  exact ⟨fun recipient ha => (h.placed _ ha).1 recipient rfl,
    fun r recipient ha hr => (h.placed _ ha).2.1 ⟨r, recipient, rfl, hr⟩,
    fun hk a ha => (h.placed a ha).2.2 (hshows.keeps hk)⟩

/-- The client registers and switches to a world, which answers the login with `ET_NO_DATA`. -/
theorem requests_of_run_new_player :
    let P : Platform := ⟨Memory.Heap.const 0, .little, headerLengthFix⟩
    let conf : LuaConf := ⟨512, 20, by decide⟩
    let decode (_ : String) (buffer : Bytes) : Decoded LuaMessage :=
      .message ⟨buffer.map fun b => some ⟨"host", b.toNat⟩, "ET_NO_DATA"⟩
    let es := [[], connects 0, receives 0 [0, 0, 0, 5, 0, 1, 138, 137, 7],
      receives 0 [0, 0, 0, 4, 0, 1, 138, 138], connects 1,
      receives 1 [0, 0, 0, 4, 0, 1, 142, 113]].flatMap fun events : List ClientEvent =>
        events ++ [.frameUpdate]
    ∃ c, run (step P conf (fun _ => []) decode) start es = some c ∧ c.world.actions.length = 6 ∧
      ∀ a ∈ c.world.actions, a.Right := by
  intro P conf decode es
  have h : ∃ c, run (step P conf (fun _ => []) decode) start es = some c ∧
      c.world.actions.length = 6 ∧
      c.world.manager.sessions.map (fun s => (s.session.connectingServerStr, s.told decode)) =
        [(Server.directory.id, [.connected .directory,
            .answer .worldList ⟨[some ⟨"host", 7⟩], "ET_NO_DATA"⟩,
            .answer .userRegister ⟨[], "ET_NO_DATA"⟩]),
          (Server.world.id, [.connected .world, .answer .login ⟨[], "ET_NO_DATA"⟩])] :=
    exists_run_of_any (by decide +kernel)
  obtain ⟨c, hrun, hlen, htold⟩ := h
  refine ⟨c, hrun, hlen, (requests_of_run hrun).2.2 fun s hs server hserver => ?_⟩
  have hmem := List.mem_map_of_mem (f := fun s => (s.session.connectingServerStr, s.told decode)) hs
  rw [htold, List.mem_cons, List.mem_singleton, hserver, Prod.mk.injEq, Prod.mk.injEq] at hmem
  obtain ⟨hid, hs⟩ | ⟨hid, hs⟩ := hmem
  · cases server with
    | directory =>
      rw [hs]
      refine ⟨by simp, fun before m after hsplit _ r m' hm' => ?_⟩
      obtain _ | ⟨_, _ | ⟨_, _ | ⟨_, before⟩⟩⟩ := before <;> simp at hsplit
      simp [hsplit] at hm'
    | world => exact absurd hid (by decide)
  · cases server with
    | directory => exact absurd hid (by decide)
    | world =>
      rw [hs]
      intro r m hm
      simp only [List.mem_cons, reduceCtorEq, Notice.answer.injEq, List.not_mem_nil, or_false,
        false_or] at hm
      rw [hm.1]
      decide

/-- The directory sends a second world list right after the response to the registration: the
account and the password go to a world, on a session that is not connected. -/
theorem registration_sent_to_world :
    let P : Platform := ⟨Memory.Heap.const 0, .little, headerLengthFix⟩
    let conf : LuaConf := ⟨512, 20, by decide⟩
    let decode (_ : String) (buffer : Bytes) : Decoded LuaMessage :=
      .message ⟨buffer.map fun b => some ⟨"host", b.toNat⟩, "ET_OK"⟩
    let es := [.frameUpdate] ++ connects 0 ++ [.frameUpdate] ++
      receives 0 [0, 0, 0, 5, 0, 1, 138, 137, 7] ++ receives 0 [0, 0, 0, 4, 0, 1, 138, 138] ++
      receives 0 [0, 0, 0, 5, 0, 1, 138, 137, 7] ++ [.frameUpdate]
    ∃ c, run (step P conf (fun _ => []) decode) start es = some c ∧
      .sendBuffer (.requestUserRegister "baihai" "baipasswd")
        (some ⟨1, ModelEvent.worldConnected, false⟩) ∈ c.world.actions ∧
      ¬ ∀ a ∈ c.world.actions, a.Right :=
  exists_run_of_any (by decide +kernel)

end Client

end SockTestProgram
