import SockTestProgram.App.FrontRefinement

/-!
# The handshake

If the servers only answer requests, each at most once (`Answered`), the client does the steps of
the handshake in order (`handshake_of_run`).  The invariant is the list of all states that it then
goes through (`Stage`): the queue never holds more than one event.
-/

open Lts

namespace SockTestProgram

/-- A step of the client, whatever session it concerns. -/
inductive Command
  | connectServer (host port serverID description : String)
  | request (r : Request)
  deriving DecidableEq, Repr

def ClientAction.command : ClientAction → Command
  | .connectServer host port serverID description => .connectServer host port serverID description
  | .sendBuffer r _ => .request r

namespace Handshake

def directorySteps : List Command :=
  [.connectServer Model.directoryServer.host Model.directoryServer.port
    ModelEvent.directoryConnected
      "directory",
    .request .requestWorldList,
    .request (.requestUserRegister Model.userName Model.password)]

def worldSteps (server : WorldInfo) : List Command :=
  [.connectServer server.host (toString server.port) ModelEvent.worldConnected "world",
    .request (.requestLogin Model.deviceID Model.userName Model.password Model.isAnonymous)]

/-- The steps of the handshake, given the world list and the answer to the login. -/
def steps (list login : Option LuaMessage) : List Command :=
  directorySteps ++
    match list.bind (·.worldList.head?) with
    | some (some server) => worldSteps server ++
        if login.map LuaMessage.exception = some "ET_NO_DATA" then
          [.request (.requestCreatePlayer Model.isAnonymous Model.deviceID Model.userName)]
        else []
    | _ => []

end Handshake

/-- The message of a response of this kind. -/
def Notice.message (r : Response) : Notice → Option LuaMessage
  | .answer r' m => if r' = r then some m else none
  | _ => none

/-- A request with a response of this type code, written to the session at place `j`. -/
def ClientAction.asks (j : ℕ) (typecode : ℤ) : ClientAction → Bool
  | .sendBuffer r (some p) => p.place = j ∧ r.response.rule.typeCode = typecode
  | _ => false

/-- A frame of this type code. -/
def Upcall.isFrame (typecode : BitVec 32) : Upcall → Bool
  | .callback typecode' _ => typecode' = typecode
  | .onConnected _ => false

namespace Client

/-- The responses of this kind that the sessions delivered, decoded. -/
def received (decode : String → Bytes → Decoded LuaMessage) (r : Response) (c : Client) :
    List LuaMessage :=
  c.world.manager.sessions.flatMap fun s => (s.told decode).filterMap (Notice.message r)

/-- The frame that a session delivered answers a request: of its type code no more were delivered
than requests with such a response were written to the session. -/
def Asked (c : Client) (j : ℕ) : Upcall → Prop
  | .onConnected _ => True
  | .callback typecode _ =>
    (c.world.manager.upcalls j).countP (Upcall.isFrame typecode) ≤
      c.world.actions.countP (ClientAction.asks j typecode.toInt)

/-- Every frame that the sessions delivered answers a request of its own. -/
def Answered (c : Client) : Prop :=
  ∀ j < c.world.manager.sessions.length, ∀ u ∈ c.world.manager.upcalls j, c.Asked j u

instance (c : Client) (j : ℕ) : DecidablePred (c.Asked j)
  | .onConnected _ => isTrue trivial
  | .callback _ _ => inferInstanceAs (Decidable (_ ≤ _))

instance (c : Client) : Decidable c.Answered := inferInstanceAs (Decidable (∀ j < _, _))

end Client

/-! ## The front answers -/

theorem Response.typeCode_injective : Function.Injective fun r : Response => r.rule.typeCode := by
  intro r r' h
  cases r <;> cases r' <;> first | rfl | exact absurd h (by decide)

/-- A response of this kind. -/
def Notice.isAnswer (r : Response) : Notice → Bool
  | .answer r' _ => r' = r
  | _ => false

@[simp] theorem Notice.isAnswer_answer (r r' : Response) (m : LuaMessage) :
    Notice.isAnswer r (.answer r' m) = decide (r' = r) := rfl

theorem Notice.isAnswer_iff {r : Response} {n : Notice} :
    n.isAnswer r = true ↔ ∃ m, n = .answer r m := by
  obtain _ | _ | ⟨r', m⟩ := n <;> simp [Notice.isAnswer]

/-- A request with this response, written to the session at place `j`. -/
def ClientAction.wants (j : ℕ) (r : Response) : ClientAction → Bool
  | .sendBuffer req (some p) => p.place = j ∧ req.response = r
  | _ => false

theorem ClientAction.asks_typeCode (j : ℕ) (r : Response) :
    ClientAction.asks j r.rule.typeCode = ClientAction.wants j r := by
  funext a
  obtain _ | ⟨req, _ | q⟩ := a
  · rfl
  · rfl
  · simp only [asks, wants, Response.typeCode_injective.eq_iff]

/-- No session passed on more answers of a kind than requests with such a response were written to
it. -/
def Front.Answered (f : Front) : Prop :=
  ∀ j p r, f.peers[j]? = some p →
    p.told.countP (Notice.isAnswer r) ≤ f.actions.countP (ClientAction.wants j r)

theorem Upcall.eq_callback_of_notice {decode : String → Bytes → Decoded LuaMessage} {u : Upcall}
    {r : Response} {m : LuaMessage} (h : u.notice decode = some (.answer r m)) :
    ∃ typecode payload, u = .callback typecode payload ∧ typecode.toInt = r.rule.typeCode := by
  cases u with
  | onConnected serverID =>
    obtain ⟨server, -, h⟩ := Option.map_eq_some_iff.1 h
    cases h
  | callback typecode payload =>
    obtain ⟨r', hr', h⟩ := Option.bind_eq_some_iff.1 h
    have hcode := List.find?_some hr'
    split at h
    · obtain ⟨rfl, -⟩ := Notice.answer.inj (Option.some.inj h)
      exact ⟨typecode, payload, rfl, (of_decide_eq_true hcode).symm⟩
    · cases h

theorem Client.Shows.answered {decode : String → Bytes → Decoded LuaMessage} {c : Client}
    {f : Front} (h : c.Shows decode f) (hans : c.Answered) : f.Answered := by
  intro j p r hp
  by_cases hzero : p.told.countP (Notice.isAnswer r) = 0
  · omega
  have hlt : j < c.world.manager.sessions.length :=
    h.world.length ▸ (List.getElem?_eq_some_iff.1 hp).1
  have hs := List.getElem?_eq_getElem hlt
  set s := c.world.manager.sessions[j]
  have hup : c.world.manager.upcalls j = s.upcalls := by simp [SockSessionManager.upcalls, hs]
  have htold : s.upcalls.filterMap (Upcall.notice decode) = p.told :=
    (h.world.peers j s p hs hp).told
  -- a frame that is such an answer fixes the type code
  obtain ⟨n, hn, hanswer⟩ := List.countP_pos_iff.1 (Nat.pos_of_ne_zero hzero)
  rw [← htold, List.mem_filterMap] at hn
  obtain ⟨u, hu, hnotice⟩ := hn
  obtain ⟨m, rfl⟩ := Notice.isAnswer_iff.1 hanswer
  obtain ⟨typecode, payload, rfl, hcode⟩ := Upcall.eq_callback_of_notice hnotice
  have hasked := hans j hlt _ (hup ▸ hu)
  simp only [Client.Asked, hup, hcode, h.world.actions, ClientAction.asks_typeCode] at hasked
  refine le_trans ?_ hasked
  rw [← htold, List.countP_filterMap]
  refine List.countP_mono_left fun u' _ hu' => ?_
  cases hn' : Upcall.notice decode u' with
  | none => simp [hn'] at hu'
  | some n' =>
    obtain ⟨m', rfl⟩ := Notice.isAnswer_iff.1 (by simpa [hn'] using hu')
    obtain ⟨typecode', payload', rfl, hcode'⟩ := Upcall.eq_callback_of_notice hn'
    simpa [Upcall.isFrame] using BitVec.toInt_inj.1 (hcode'.trans hcode.symm)

/-! ## The stages -/

namespace Handshake

def openDirectory : ClientAction :=
  .connectServer Model.directoryServer.host Model.directoryServer.port Server.directory.id
    "directory"

def askList : ClientAction := .sendBuffer .requestWorldList (some ⟨0, Server.directory.id, true⟩)

def register : ClientAction :=
  .sendBuffer (.requestUserRegister Model.userName Model.password)
    (some ⟨0, Server.directory.id, true⟩)

def openWorld (w : WorldInfo) : ClientAction :=
  .connectServer w.host (toString w.port) Server.world.id "world"

def logIn : ClientAction :=
  .sendBuffer (.requestLogin Model.deviceID Model.userName Model.password Model.isAnonymous)
    (some ⟨1, Server.world.id, true⟩)

def createPlayer : ClientAction :=
  .sendBuffer (.requestCreatePlayer Model.isAnonymous Model.deviceID Model.userName)
    (some ⟨1, Server.world.id, true⟩)

@[simp] theorem wants_openDirectory (j : ℕ) (r : Response) : openDirectory.wants j r = false := rfl

@[simp] theorem wants_askList (j : ℕ) (r : Response) :
    askList.wants j r = decide (0 = j ∧ .worldList = r) := rfl

@[simp] theorem wants_register (j : ℕ) (r : Response) :
    register.wants j r = decide (0 = j ∧ .userRegister = r) := rfl

@[simp] theorem wants_openWorld (w : WorldInfo) (j : ℕ) (r : Response) :
    (openWorld w).wants j r = false := rfl

@[simp] theorem wants_logIn (j : ℕ) (r : Response) :
    logIn.wants j r = decide (1 = j ∧ .login = r) := rfl

@[simp] theorem wants_createPlayer (j : ℕ) (r : Response) :
    createPlayer.wants j r = decide (1 = j ∧ .createPlayer = r) := rfl

/-- The session of the directory, which told that it is connected and passed on these answers. -/
def directory (answers : List Notice) : Peer := ⟨.directory, true, .connected .directory :: answers⟩

/-- The session of the world. -/
def world (answers : List Notice) : Peer := ⟨.world, true, .connected .world :: answers⟩

@[simp] theorem told_directory_ne (answers : List Notice) : (directory answers).told ≠ [] :=
  List.cons_ne_nil _ _

@[simp] theorem told_world_ne (answers : List Notice) : (world answers).told ≠ [] :=
  List.cons_ne_nil _ _

@[simp] theorem countP_told_directory (answers : List Notice) (r : Response) :
    (directory answers).told.countP (Notice.isAnswer r) = answers.countP (Notice.isAnswer r) :=
  List.countP_cons_of_neg Bool.false_ne_true

@[simp] theorem countP_told_world (answers : List Notice) (r : Response) :
    (world answers).told.countP (Notice.isAnswer r) = answers.countP (Notice.isAnswer r) :=
  List.countP_cons_of_neg Bool.false_ne_true

/-- The states that the client goes through: `l`, `u`, `g` and `p` are the answers to the four
requests, and `w` is the world chosen. -/
inductive Stage : Front → Prop
  | starting : Stage ⟨[], [.disconnected], none, []⟩
  | opening (up : Bool) : Stage ⟨[⟨.directory, up, []⟩], [], none, [openDirectory]⟩
  | welcomed : Stage ⟨[directory []], [.connected .directory], none, [openDirectory]⟩
  | asking : Stage ⟨[directory []], [], none, [openDirectory, askList]⟩
  | listed (l : LuaMessage) :
      Stage ⟨[directory [.answer .worldList l]], [.answer .worldList l], none,
        [openDirectory, askList]⟩
  | registering (l : LuaMessage) : Stage ⟨[directory [.answer .worldList l]], [],
      l.worldList.head?, [openDirectory, askList, register]⟩
  | registered (l u : LuaMessage) : Stage
      ⟨[directory [.answer .worldList l, .answer .userRegister u]], [.answer .userRegister u],
        l.worldList.head?, [openDirectory, askList, register]⟩
  | stranded (l u : LuaMessage) : Stage
      ⟨[directory [.answer .worldList l, .answer .userRegister u]], [],
        l.worldList.head?, [openDirectory, askList, register]⟩
  | switching (l u : LuaMessage) (w : WorldInfo) (hw : l.worldList.head? = some (some w))
      (up : Bool) : Stage
      ⟨[directory [.answer .worldList l, .answer .userRegister u], ⟨.world, up, []⟩], [],
        l.worldList.head?, [openDirectory, askList, register, openWorld w]⟩
  | greeted (l u : LuaMessage) (w : WorldInfo) (hw : l.worldList.head? = some (some w)) : Stage
      ⟨[directory [.answer .worldList l, .answer .userRegister u], world []], [.connected .world],
        l.worldList.head?, [openDirectory, askList, register, openWorld w]⟩
  | loggingIn (l u : LuaMessage) (w : WorldInfo) (hw : l.worldList.head? = some (some w)) : Stage
      ⟨[directory [.answer .worldList l, .answer .userRegister u], world []], [],
        l.worldList.head?, [openDirectory, askList, register, openWorld w, logIn]⟩
  | answered (l u : LuaMessage) (w : WorldInfo) (hw : l.worldList.head? = some (some w))
      (g : LuaMessage) : Stage
      ⟨[directory [.answer .worldList l, .answer .userRegister u], world [.answer .login g]],
        [.answer .login g], l.worldList.head?,
        [openDirectory, askList, register, openWorld w, logIn]⟩
  | loggedIn (l u : LuaMessage) (w : WorldInfo) (hw : l.worldList.head? = some (some w))
      (g : LuaMessage) : Stage
      ⟨[directory [.answer .worldList l, .answer .userRegister u], world [.answer .login g]],
        [], l.worldList.head?, [openDirectory, askList, register, openWorld w, logIn]⟩
  | creating (l u : LuaMessage) (w : WorldInfo) (hw : l.worldList.head? = some (some w))
      (g : LuaMessage) (hg : "ET_NO_DATA" = g.exception) : Stage
      ⟨[directory [.answer .worldList l, .answer .userRegister u], world [.answer .login g]],
        [], l.worldList.head?, [openDirectory, askList, register, openWorld w, logIn, createPlayer]⟩
  | created (l u : LuaMessage) (w : WorldInfo) (hw : l.worldList.head? = some (some w))
      (g : LuaMessage) (hg : "ET_NO_DATA" = g.exception) (p : LuaMessage) (queue : List Notice)
      (hq : queue = [.answer .createPlayer p] ∨ queue = []) : Stage
      ⟨[directory [.answer .worldList l, .answer .userRegister u],
          world [.answer .login g, .answer .createPlayer p]],
        queue, l.worldList.head?,
        [openDirectory, askList, register, openWorld w, logIn, createPlayer]⟩

variable {f f' : Front} {j : ℕ} {p : Peer}

theorem getElem?_one {q : Peer} (hp : [q][j]? = some p) : j = 0 ∧ p = q := by
  rw [List.getElem?_singleton, Option.ite_none_right_eq_some, Option.some.injEq] at hp
  exact ⟨hp.1, hp.2.symm⟩

theorem getElem?_two {q q' : Peer} (hp : [q, q'][j]? = some p) :
    j = 0 ∧ p = q ∨ j = 1 ∧ p = q' := by
  cases j with
  | zero => exact .inl ⟨rfl, (Option.some.inj hp).symm⟩
  | succ j =>
    obtain ⟨rfl, rfl⟩ := getElem?_one (show [q'][j]? = some p from hp)
    exact .inr ⟨rfl, rfl⟩

/-- A connection that is established changes only a session that was opening. -/
theorem Stage.connected (h : Stage f) (hp : f.peers[j]? = some p) :
    Stage { f with peers := f.peers.set j { p with connected := true } } := by
  have hstage := h
  cases h with
  | starting => simp at hp
  | opening up =>
    obtain ⟨rfl, rfl⟩ := getElem?_one hp
    exact .opening true
  | welcomed | asking | listed | registering | registered | stranded =>
    obtain ⟨rfl, rfl⟩ := getElem?_one hp
    exact hstage
  | switching l u w hw up =>
    obtain ⟨rfl, rfl⟩ | ⟨rfl, rfl⟩ := getElem?_two hp
    · exact .switching l u w hw up
    · exact .switching l u w hw true
  | greeted | loggingIn | answered | loggedIn | creating | created =>
    obtain ⟨rfl, rfl⟩ | ⟨rfl, rfl⟩ := getElem?_two hp <;> exact hstage

/-- The session at place `j` tells `n`. -/
def told (f : Front) (j : ℕ) (p : Peer) (n : Notice) : Front :=
  { f with
    peers := f.peers.set j { p with told := p.told ++ [n] }
    queue := f.queue ++ [n] }

/-- A session that told something already passes on an answer that is owed. -/
theorem owed {n : Notice} (hp : f.peers[j]? = some p) (hne : p.told ≠ [])
    (hn : Front.MayTell p n) (hans : (told f j p n).Answered) :
    ∃ r m, n = .answer r m ∧
      p.told.countP (Notice.isAnswer r) < f.actions.countP (ClientAction.wants j r) := by
  obtain _ | server | ⟨r, m⟩ := n
  · cases hn
  · exact absurd hn.2 hne
  · have hle : (p.told ++ [Notice.answer r m]).countP (Notice.isAnswer r) ≤
        f.actions.countP (ClientAction.wants j r) :=
      hans j { p with told := p.told ++ [.answer r m] } r
        (List.getElem?_set_self (List.getElem?_eq_some_iff.1 hp).1)
    have hone : Notice.isAnswer r (.answer r m) = true := Notice.isAnswer_iff.2 ⟨m, rfl⟩
    rw [List.countP_append, List.countP_singleton, hone, if_pos rfl] at hle
    exact ⟨r, m, rfl, hle⟩

/-- A session that told something, and that owes no answer, tells nothing. -/
theorem silent {n : Notice} (hp : f.peers[j]? = some p) (hn : Front.MayTell p n)
    (hans : (told f j p n).Answered) (hne : p.told ≠ [])
    (hnone : ∀ r, f.actions.countP (ClientAction.wants j r) ≤
      p.told.countP (Notice.isAnswer r)) : False := by
  obtain ⟨r, m, -, hlt⟩ := owed hp hne hn hans
  exact absurd hlt (Nat.not_lt.2 (hnone r))

theorem greets {n : Notice} (hnil : p.told = []) (hn : Front.MayTell p n) :
    n = .connected p.server := by
  obtain _ | server | ⟨r, m⟩ := n
  · cases hn
  · rw [hn.1]
  · exact absurd hnil hn

/-- The handlers of an event lead to the next stage. -/
theorem Stage.handle (h : Stage f) {n : Notice} {rest : List Notice} (hq : f.queue = n :: rest)
    (hf : Front.Handled { f with queue := rest } n f') : Stage f' := by
  cases h with
  | starting =>
    obtain ⟨rfl, rfl⟩ := List.cons.inj hq
    cases hf
    exact .opening false
  | welcomed =>
    obtain ⟨rfl, rfl⟩ := List.cons.inj hq
    cases hf
    exact .asking
  | listed l =>
    obtain ⟨rfl, rfl⟩ := List.cons.inj hq
    cases hf
    exact .registering l
  | registered l u =>
    obtain ⟨rfl, rfl⟩ := List.cons.inj hq
    cases hf with
    | switch _ server hs => exact .switching l u server hs false
    | stay => exact .stranded l u
  | greeted l u w hw =>
    obtain ⟨rfl, rfl⟩ := List.cons.inj hq
    cases hf
    exact .loggingIn l u w hw
  | answered l u w hw g =>
    obtain ⟨rfl, rfl⟩ := List.cons.inj hq
    cases hf with
    | newPlayer _ hm => exact .creating l u w hw g hm
    | loggedIn => exact .loggedIn l u w hw g
  | created l u w hw g hg p queue hqueue =>
    obtain rfl | rfl := hqueue
    · obtain ⟨rfl, rfl⟩ := List.cons.inj hq
      cases hf
      exact .created l u w hw g hg p [] (.inr rfl)
    · cases hq
  | _ => cases hq

/-- What a session tells leads to the next stage. -/
theorem Stage.tell (h : Stage f) {n : Notice} (hp : f.peers[j]? = some p)
    (hc : p.connected = true) (hn : Front.MayTell p n) (hans : (told f j p n).Answered) :
    Stage (told f j p n) := by
  have howed (hne : p.told ≠ []) := owed hp hne hn hans
  have hsilent := silent hp hn hans
  cases h with
  | starting => simp at hp
  | opening up =>
    obtain ⟨rfl, rfl⟩ := getElem?_one hp
    obtain rfl : up = true := hc
    obtain rfl := greets rfl hn
    exact .welcomed
  | welcomed =>
    obtain ⟨rfl, rfl⟩ := getElem?_one hp
    exact (hsilent (by simp) fun r => by simp).elim
  | asking =>
    obtain ⟨rfl, rfl⟩ := getElem?_one hp
    obtain ⟨r, m, rfl, hlt⟩ := howed (by simp)
    cases r with
    | worldList => exact .listed m
    | _ => simp at hlt
  | listed l | registered l u | stranded l u =>
    obtain ⟨rfl, rfl⟩ := getElem?_one hp
    exact (hsilent (by simp) fun r => by cases r <;> simp).elim
  | registering l =>
    obtain ⟨rfl, rfl⟩ := getElem?_one hp
    obtain ⟨r, m, rfl, hlt⟩ := howed (by simp)
    cases r with
    | userRegister => exact .registered l m
    | _ => simp at hlt
  | switching l u w hw up =>
    obtain ⟨rfl, rfl⟩ | ⟨rfl, rfl⟩ := getElem?_two hp
    · exact (hsilent (by simp) fun r => by cases r <;> simp).elim
    · obtain rfl : up = true := hc
      obtain rfl := greets rfl hn
      exact .greeted l u w hw
  | greeted l u w hw | answered l u w hw g | loggedIn l u w hw g | created l u w hw g hg =>
    obtain ⟨rfl, rfl⟩ | ⟨rfl, rfl⟩ := getElem?_two hp
    · exact (hsilent (by simp) fun r => by cases r <;> simp).elim
    · exact (hsilent (by simp) fun r => by cases r <;> simp).elim
  | loggingIn l u w hw =>
    obtain ⟨rfl, rfl⟩ | ⟨rfl, rfl⟩ := getElem?_two hp
    · exact (hsilent (by simp) fun r => by cases r <;> simp).elim
    · obtain ⟨r, m, rfl, hlt⟩ := howed (by simp)
      cases r with
      | login => exact .answered l u w hw m
      | _ => simp at hlt
  | creating l u w hw g hg =>
    obtain ⟨rfl, rfl⟩ | ⟨rfl, rfl⟩ := getElem?_two hp
    · exact (hsilent (by simp) fun r => by cases r <;> simp).elim
    · obtain ⟨r, m, rfl, hlt⟩ := howed (by simp)
      cases r with
      | createPlayer => exact .created l u w hw g hg m _ (.inl rfl)
      | _ => simp at hlt

theorem stage_step (h : Stage f) {e : FrontEvent} (hs : f.step e = some f')
    (hans : ∀ j n, e = .tell j n → f'.Answered) : Stage f' := by
  cases Front.stepped_of_step hs with
  | connected j p hp => exact h.connected hp
  | tell j n p hp hc hn => exact h.tell hp hc hn (hans j n rfl)
  | handle n rest f' hq hf => exact h.handle hq (Front.handled_of_handle hf)

/-! ## The steps taken -/

theorem directory_prefix (k : ℕ) (list login : Option LuaMessage) :
    directorySteps.take k <+: steps list login :=
  (List.take_prefix k directorySteps).trans (List.prefix_append _ _)

theorem world_prefix {l : LuaMessage} {w : WorldInfo} (hw : l.worldList.head? = some (some w))
    (k : ℕ) (login : Option LuaMessage) :
    directorySteps ++ (worldSteps w).take k <+: steps (some l) login := by
  simp only [steps, Option.bind_some, hw, List.prefix_append_right_inj]
  exact (List.take_prefix k _).trans (List.prefix_append _ _)

theorem player_prefix {l g : LuaMessage} {w : WorldInfo}
    (hw : l.worldList.head? = some (some w)) (hg : "ET_NO_DATA" = g.exception) :
    directorySteps ++ (worldSteps w ++
        [.request (.requestCreatePlayer Model.isAnonymous Model.deviceID Model.userName)]) <+:
      steps (some l) (some g) := by
  simp [steps, hw, ← hg]

/-- The answers of this kind that were passed on. -/
def received (f : Front) (r : Response) : List LuaMessage :=
  f.peers.flatMap fun p => p.told.filterMap (Notice.message r)

theorem Stage.steps (h : Stage f) : f.actions.map ClientAction.command <+:
    Handshake.steps (received f .worldList).head? (received f .login).head? := by
  cases h with
  | starting => exact List.nil_prefix
  | opening | welcomed => exact directory_prefix 1 _ _
  | asking | listed => exact directory_prefix 2 _ _
  | registering | registered | stranded => exact directory_prefix 3 _ _
  | switching l u w hw | greeted l u w hw => exact world_prefix hw 1 _
  | loggingIn l u w hw | answered l u w hw | loggedIn l u w hw => exact world_prefix hw 2 _
  | creating l u w hw g hg | created l u w hw g hg => exact player_prefix hw hg

theorem nodup_steps (list login : Option LuaMessage) : (Handshake.steps list login).Nodup := by
  unfold Handshake.steps
  split
  · split_ifs <;>
      simp [directorySteps, worldSteps, ModelEvent.directoryConnected, ModelEvent.worldConnected]
  · simp [directorySteps]

end Handshake

namespace Client

open ClientEvent

variable {P : Platform} {conf : LuaConf} {packCmd : Request → Bytes}
  {decode : String → Bytes → Decoded LuaMessage} {c : Client}

theorem Shows.received {f : Front} (h : c.Shows decode f) (r : Response) :
    c.received decode r = Handshake.received f r := by
  have htold : c.world.manager.sessions.map (Connection.told decode) = f.peers.map Peer.told := by
    refine List.ext_getElem (by simp [h.world.length]) fun j hj hj' => ?_
    rw [List.length_map] at hj hj'
    simpa using (h.world.peers j _ _ (List.getElem?_eq_getElem hj)
      (List.getElem?_eq_getElem hj')).told
  have hmessages := congrArg (List.flatMap (List.filterMap (Notice.message r))) htold
  simp only [List.flatMap_map] at hmessages
  exact hmessages

/-- After the event, every frame delivered answers a request. -/
def Answers (P : Platform) (conf : LuaConf) (packCmd : Request → Bytes)
    (decode : String → Bytes → Decoded LuaMessage) (c : Client) (e : ClientEvent) : Prop :=
  ∀ c' ∈ c.step P conf packCmd decode e, c'.Answered

instance (c : Client) (e : ClientEvent) : Decidable (Answers P conf packCmd decode c e) :=
  inferInstanceAs (Decidable (∀ c' ∈ c.step P conf packCmd decode e, c'.Answered))

/-- **The handshake.**  In every run in which the servers only answer requests, each once at
most, the client does the steps of the handshake in order, as far as it gets, and none of them
twice. -/
theorem handshake_of_run {es : List ClientEvent}
    (hrun : run (step P conf packCmd decode) start es = some c)
    (hans : AllSteps (step P conf packCmd decode) (Answers P conf packCmd decode) start es) :
    c.world.actions.map ClientAction.command <+:
        Handshake.steps (c.received decode .worldList).head? (c.received decode .login).head? ∧
      (c.world.actions.map ClientAction.command).Nodup := by
  obtain ⟨fs, f, hfs, hall, hshows⟩ := run_simulation (R := Shows decode)
    (Q := fun f e => ∀ f', f.step e = some f' → ∀ j n, e = .tell j n → f'.Answered)
    (fun c f e c' h he hs => by
      obtain ⟨fs, f', hrun, hshows, hfs⟩ := step_front h hs
      refine ⟨fs, f', hrun, ?_, hshows⟩
      obtain hfs | ⟨e, rfl⟩ := hfs
      · exact allSteps_of_forall (fun e he _ _ _ j n htell =>
          by cases (hfs e he).symm.trans htell) _
      · obtain ⟨f₁, hf₁, hnil⟩ := run_cons_eq_some_iff.1 hrun
        obtain rfl := Option.some.inj hnil
        refine ⟨fun f₂ hf₂ _ _ _ => ?_, fun _ _ => trivial⟩
        obtain rfl := Option.some.inj (hf₁.symm.trans hf₂)
        exact hshows.answered (he c' hs)) hrun shows_start hans
  have hstage : Handshake.Stage f :=
    run_invariant_of (fun f e f' h he hs => Handshake.stage_step h hs (he f' hs)) hfs .starting hall
  have hsteps := hstage.steps
  rw [← hshows.world.actions, ← hshows.received, ← hshows.received] at hsteps
  exact ⟨hsteps, hsteps.sublist.nodup (Handshake.nodup_steps _ _)⟩

/-- Both servers answer, and the login tells that there is no player yet. -/
theorem handshake_of_run_new_player :
    let P : Platform := ⟨Memory.Heap.const 0, .little, headerLengthFix⟩
    let conf : LuaConf := ⟨512, 20, by decide⟩
    let decode (_ : String) (buffer : Bytes) : Decoded LuaMessage :=
      .message ⟨buffer.map fun b => some ⟨"host", b.toNat⟩, "ET_NO_DATA"⟩
    let es := [[], connects 0, receives 0 [0, 0, 0, 5, 0, 1, 138, 137, 7],
      receives 0 [0, 0, 0, 4, 0, 1, 138, 138], connects 1,
      receives 1 [0, 0, 0, 4, 0, 1, 142, 113]].flatMap fun events : List ClientEvent =>
        events ++ [.frameUpdate]
    ∃ c, run (step P conf (fun _ => []) decode) start es = some c ∧ c.world.actions.length = 6 ∧
      c.world.actions.map ClientAction.command <+:
        Handshake.steps (c.received decode .worldList).head? (c.received decode .login).head? := by
  intro P conf decode es
  have h : ∃ c, run (step P conf (fun _ => []) decode) start es = some c ∧
      c.world.actions.length = 6 := exists_run_of_any (by decide +kernel)
  obtain ⟨c, hrun, hlen⟩ := h
  exact ⟨c, hrun, hlen, (handshake_of_run hrun (by decide +kernel)).1⟩

end Client

end SockTestProgram
