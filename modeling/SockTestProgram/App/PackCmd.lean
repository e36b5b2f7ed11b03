import SockTestProgram.App.FrontRefinement
import SockTestProgram.App.Messages
import SockTestProgram.App.Record
import SockTestProgram.Pbc.LuaEncode
import SockTestProgram.Socket.ByteOrders

/-!
# `Proto.packCmd`

The requests as tables, and what `protobuf.encode` makes of them.  Of every request that the client
makes, a session gets a frame to write with the number of its type and bytes in which the request is
read again (`Client.carries_of_run`).
-/

open Lts Memory Word

namespace SockTestProgram

/-! ## The types of requests -/

namespace Proto

/-- `RequestWorldList` of `cs_dir.pb` -/
def requestWorldList : PbcMessage where
  fields := []
  distinct := by decide

/-- `RequestUserRegister` of `cs_dir.pb` -/
def requestUserRegister : PbcMessage where
  fields := [⟨1, "account", .string, .required, "", ""⟩,
    ⟨2, "password", .string, .required, "", ""⟩]
  distinct := by decide

/-- `RequestLogin` of `cs_world.pb` -/
def requestLogin : PbcMessage where
  fields := [⟨1, "is_anonymous", .bool, .required, "", ""⟩,
    ⟨2, "device_id", .string, .optional, "", ""⟩, ⟨3, "account", .string, .optional, "", ""⟩,
      ⟨4, "password", .string, .optional, "", ""⟩]
  distinct := by decide

/-- `RequestCreatePlayer` of `cs_world.pb` -/
def requestCreatePlayer : PbcMessage where
  fields := [⟨1, "is_anonymous", .bool, .required, "", ""⟩,
    ⟨2, "device_id", .string, .optional, "", ""⟩, ⟨3, "account", .string, .optional, "", ""⟩]
  distinct := by decide

/-- All types that the client has registered. -/
def registered : PbcTypes where
  enums := types.enums
  msgs
    | "RequestWorldList" => some requestWorldList
    | "RequestUserRegister" => some requestUserRegister
    | "RequestLogin" => some requestLogin
    | "RequestCreatePlayer" => some requestCreatePlayer
    | name => types.msgs name

theorem readable_registered : registered.Readable := by
  intro name msg hmsg
  have hall : ∀ m ∈ [requestWorldList, requestUserRegister, requestLogin, requestCreatePlayer,
      dataWorldInfo, responseWorldList, responseUserRegister, responseLogin, responseCreatePlayer],
      (∀ f ∈ m.fields, f.Numbered) ∧ (m.fields.map Field.id).Nodup ∧
        ∀ f ∈ m.fields, f.label = .packed → f.type.isLend = false := by decide
  have hmem : msg ∈ [requestWorldList, requestUserRegister, requestLogin, requestCreatePlayer,
      dataWorldInfo, responseWorldList, responseUserRegister, responseLogin,
        responseCreatePlayer] := by
    unfold registered types at hmsg
    dsimp only at hmsg
    split at hmsg
    case h_5 => split at hmsg <;> cases hmsg <;> simp
    all_goals
      cases hmsg
      simp
  obtain ⟨hnumbered, hids, hpacked⟩ := hall msg hmem
  exact ⟨hnumbered, hids, hpacked⟩

end Proto

/-! ## Requests as tables -/

namespace Request

def string (key : String) (s : String) : String × FieldValue := (key, .one (.string (utf8 s)))

def boolean (key : String) (b : Bool) : String × FieldValue := (key, .one (.boolean b))

/-- The table that is passed to `NetworkCmd.Send`, in the order in which it is written there. -/
def table : Request → List (String × FieldValue)
  | .requestWorldList => []
  | .requestUserRegister account password => [string "account" account, string "password" password]
  | .requestLogin deviceID account password isAnonymous =>
    [string "device_id" deviceID, string "account" account, string "password" password,
      boolean "is_anonymous" isAnonymous]
  | .requestCreatePlayer isAnonymous deviceID account =>
    [boolean "is_anonymous" isAnonymous, string "device_id" deviceID, string "account" account]

/-- The type of a request. -/
def message : Request → PbcMessage
  | .requestWorldList => Proto.requestWorldList
  | .requestUserRegister _ _ => Proto.requestUserRegister
  | .requestLogin _ _ _ _ => Proto.requestLogin
  | .requestCreatePlayer _ _ _ => Proto.requestCreatePlayer

theorem msgs_pn (r : Request) : Proto.registered.msgs r.pn = some r.message := by
  cases r <;> rfl

theorem nodup_table (r : Request) : (r.table.map Prod.fst).Nodup := by
  cases r <;> simp [table, string, boolean]

theorem single_message (r : Request) : ∀ f ∈ r.message.fields, f.Single := by
  have hall : ∀ m ∈ [Proto.requestWorldList, Proto.requestUserRegister, Proto.requestLogin,
      Proto.requestCreatePlayer], ∀ f ∈ m.fields, f.Numbered ∧ f.label ≠ .packed := by decide
  cases r <;> exact hall _ (by simp [message])

theorem ordinary_message (r : Request) : r.message.Ordinary := by
  have hall : ∀ m ∈ [Proto.requestWorldList, Proto.requestUserRegister, Proto.requestLogin,
      Proto.requestCreatePlayer], ∀ f ∈ m.fields, stringHash f.name ≠ 0 ∧ f.name ≠ "_CObj" ∧
        f.name ≠ "_CType" := by
    decide +kernel
  cases r <;> exact hall _ (by simp [message])

/-- No field of a request is an array. -/
theorem items_table (r : Request) : ∀ e ∈ r.table, e.2.items = [] := by
  cases r <;> simp [table, string, boolean, FieldValue.items]

theorem utf8_empty : utf8 "" = [] := by decide +kernel

theorem takesField_string {f : Field} (htype : f.type = .string) (hrep : f.isRepeated = false)
    (hdefault : f.defaultValue = "") (s : Bytes) : f.TakesField (.one (.string s)) := by
  refine ⟨hrep, ?_⟩
  unfold Field.Takes
  rw [htype, hdefault, utf8_empty]
  rfl

theorem takesField_boolean {f : Field} (htype : f.type = .bool) (hrep : f.isRepeated = false)
    (b : Bool) :
    f.TakesField (.one (.boolean b)) := by
  refine ⟨hrep, ?_⟩
  unfold Field.Takes
  rw [htype]
  trivial

/-- Every field of a request is one of its type. -/
theorem takesField_table (r : Request) :
    ∀ e ∈ r.table, ∃ f, r.message.named e.1 = some f ∧ f.TakesField e.2 := by
  cases r with
  | requestWorldList => simp [table]
  | requestUserRegister account password =>
    simp only [table, List.forall_mem_cons]
    exact ⟨⟨_, rfl, takesField_string rfl rfl rfl _⟩, ⟨_, rfl, takesField_string rfl rfl rfl _⟩,
      List.forall_mem_nil _⟩
  | requestLogin deviceID account password isAnonymous =>
    simp only [table, List.forall_mem_cons]
    exact ⟨⟨_, rfl, takesField_string rfl rfl rfl _⟩, ⟨_, rfl, takesField_string rfl rfl rfl _⟩,
      ⟨_, rfl, takesField_string rfl rfl rfl _⟩, ⟨_, rfl, takesField_boolean rfl rfl _⟩,
      List.forall_mem_nil _⟩
  | requestCreatePlayer isAnonymous deviceID account =>
    simp only [table, List.forall_mem_cons]
    exact ⟨⟨_, rfl, takesField_boolean rfl rfl _⟩, ⟨_, rfl, takesField_string rfl rfl rfl _⟩,
      ⟨_, rfl, takesField_string rfl rfl rfl _⟩, List.forall_mem_nil _⟩

end Request

/-! ## Requests in frames -/

/-- `Proto.packCmd`, where `pairs` returns the fields of a request in some order; it raises no
error for the requests that are made (`Request.exists_packed`). -/
def Proto.packCmd (H : Heap UInt8) (R : Reals) (pairs : Request → List (String × FieldValue))
    (r : Request) : Bytes :=
  (protobufEncode H R registered r.pn (pairs r)).getD []

/-- In the bytes, the request is read again. -/
def Request.ReadFrom (R : Reals) (r : Request) (payload : Bytes) : Prop :=
  ∀ h, ∃ h' i, protobufDecode Proto.registered h r.pn payload = .ok (h', some i) ∧
    ∀ e ∈ r.table, readField R Proto.registered h' i e.1 = some e.2

/-- The frame holds the number of the type of a request, and bytes in which it is read again. -/
def Request.Carried (P : Platform) (R : Reals) (r : Request) (frame : Bytes) : Prop :=
  ∃ m : Message P, frame = m.frame ∧ m.typeCode.toInt = Proto.toID r.pn ∧ r.ReadFrom R m.payload

/-- The requests that the handlers make. -/
def Request.made : List Request :=
  [.requestWorldList, .requestUserRegister Model.userName Model.password,
    .requestLogin Model.deviceID Model.userName Model.password Model.isAnonymous,
    .requestCreatePlayer Model.isAnonymous Model.deviceID Model.userName]

/-- The request that is written to the session at place `j` by an action. -/
def ClientAction.requestTo (j : ℕ) : ClientAction → Option Request
  | .sendBuffer r (some p) => if p.place = j then some r else none
  | _ => none

namespace Request

variable {H : Heap UInt8} {R : Reals} {pairs : Request → List (String × FieldValue)} {r : Request}

/-- A request is packed, whatever the order of its fields, to bytes in which it is read again. -/
theorem exists_packed (H : Heap UInt8) (R : Reals) {t : List (String × FieldValue)}
    (ht : t.Perm r.table) (hroom : tableRoom r.table < 2 ^ 27) :
    ∃ s, protobufEncode H R Proto.registered r.pn t = some s ∧ s.length < 2 ^ 27 ∧
      r.ReadFrom R s := by
  have hkeys : (t.map Prod.fst).Nodup := (ht.map Prod.fst).nodup_iff.2 r.nodup_table
  have htakes : ∀ e ∈ t, ∃ f, r.message.named e.1 = some f ∧ f.TakesField e.2 :=
    fun e he => r.takesField_table e (ht.mem_iff.1 he)
  have hsame : tableRoom t = tableRoom r.table := (ht.map _).sum_nat
  have hlimit : ∀ e ∈ t, e.2.items.length < arrayLimit := by
    intro e he
    rw [r.items_table e (ht.mem_iff.1 he)]
    decide
  have hlength := encodedLength_le R Proto.registered r.ordinary_message r.single_message htakes
    (by omega)
  obtain ⟨s, cs, hs, hlen, hdecode, hholds⟩ :=
    exists_protobufEncode H R Proto.readable_registered r.msgs_pn
    r.ordinary_message hkeys htakes hlimit (by omega)
  refine ⟨s, hs, by omega, fun h => ?_⟩
  obtain ⟨h', i, hdecoded, hfields, -⟩ := hholds.reads r.msgs_pn r.ordinary_message htakes hdecode h
  exact ⟨h', i, hdecoded, fun e he => hfields e (ht.mem_iff.2 he)⟩

theorem toInt_toID (r : Request) : (BitVec.ofInt 32 (Proto.toID r.pn)).toInt = Proto.toID r.pn := by
  have hall : ∀ name ∈ Proto.namesForTest,
      (BitVec.ofInt 32 (Proto.toID name)).toInt = Proto.toID name := by decide
  cases r <;> exact hall _ (by simp [pn, Proto.namesForTest])

/-- The buffer of a request carries it. -/
theorem carried_buffer (hpairs : ∀ r, (pairs r).Perm r.table) (hroom : tableRoom r.table < 2 ^ 27)
    {P : Platform} (hP : P.headerLengthFix = headerLengthFix) :
    ∃ frame, r.buffer P (Proto.packCmd H R pairs) = some frame ∧ r.Carried P R frame := by
  obtain ⟨s, hs, hlen, hread⟩ := exists_packed H R (hpairs r) hroom
  have hpack : Proto.packCmd H R pairs r = s := by
    rw [Proto.packCmd, hs, Option.getD_some]
  have hfix : P.headerLengthFix.toInt = -4 := by
    rw [hP]
    decide
  let m : Message P := ⟨BitVec.ofInt 32 (Proto.toID r.pn), s, by
    simp only [FitsInt, hfix]
    omega⟩
  refine ⟨m.frame, ?_, m, rfl, r.toInt_toID, hread⟩
  rw [buffer, hpack]
  exact writeBuffer_eq m

end Request

/-! ## Runs -/

/-- Only these requests are made. -/
def Front.Asks (f : Front) : Prop := ∀ r p, .sendBuffer r p ∈ f.actions → r ∈ Request.made

namespace Front

variable {f f' : Front}

theorem Asks.connect (h : f.Asks) (server : Server) (host port description : String) :
    (f.connect server host port description).Asks := by
  intro r p hp
  obtain hp | hp := List.mem_append.1 hp
  · exact h r p hp
  · cases List.mem_singleton.1 hp

theorem Asks.send (h : f.Asks) {r : Request} (hr : r ∈ Request.made) : (f.send r).Asks := by
  intro r' p hp
  obtain hp | hp := List.mem_append.1 hp
  · exact h r' p hp
  · cases List.mem_singleton.1 hp
    exact hr

theorem asks_step {e : FrontEvent} (h : f.Asks) (hs : f.step e = some f') : f'.Asks := by
  cases stepped_of_step hs with
  | connected j p hp => exact h
  | tell j n p hp hc hn => exact h
  | handle n rest f' hq hf =>
    have h' : Asks { f with queue := rest } := h
    cases handled_of_handle hf with
    | disconnected => exact h'.connect _ _ _ _
    | directoryConnected => exact h'.send (by simp [Request.made])
    | worldConnected => exact h'.send (by simp [Request.made])
    | worldList m hm =>
      have hchosen : Asks { f with queue := rest, chosenServer := m.worldList.head? } := h
      exact hchosen.send (by simp [Request.made])
    | switch m server hs => exact h'.connect _ _ _ _
    | newPlayer m hm => exact h'.send (by simp [Request.made])
    | stay | loggedIn | created => exact h'

end Front

namespace Client

open ClientEvent

variable {H H' : Heap UInt8} {R : Reals} {o : ByteOrder} {conf : LuaConf}
  {decode : String → Bytes → Decoded LuaMessage} {pairs : Request →
    List (String × FieldValue)} {c : Client}

theorem made_of_run {P : Platform} {packCmd : Request → Bytes} {es : List ClientEvent}
    (hrun : run (step P conf packCmd decode) start es = some c) {r : Request} {p : Option Recipient}
    (hp : .sendBuffer r p ∈ c.world.actions) : r ∈ Request.made := by
  obtain ⟨fs, f, hfs, hshows⟩ := run_front hrun
  have hasks : f.Asks := run_invariant (fun _ _ _ => Front.asks_step) hfs
    (by simp [Front.Asks, Front.start])
  rw [hshows.world.actions] at hp
  exact hasks r p hp

theorem forall₂_buffer {P : Platform} (hP : P.headerLengthFix = headerLengthFix)
    (hpairs : ∀ r, (pairs r).Perm r.table) (j : ℕ) {actions : List ClientAction}
    (hmade : ∀ r p, .sendBuffer r p ∈ actions → r ∈ Request.made) :
    List.Forall₂ (Request.Carried P R) (actions.filterMap (ClientAction.requestTo j))
      (actions.filterMap (ClientAction.buffer P (Proto.packCmd H R pairs) j)) := by
  induction actions with
  | nil => exact .nil
  | cons a actions ih =>
    have hrest := ih fun r p hp => hmade r p (by simp [hp])
    obtain _ | ⟨r, _ | p⟩ := a
    · exact hrest
    · exact hrest
    · have hroom : ∀ r ∈ Request.made, tableRoom r.table < 2 ^ 27 := by decide +kernel
      obtain ⟨frame, hframe, hcarried⟩ :=
        Request.carried_buffer (H := H) (R := R) hpairs (hroom r (hmade r (some p) (by simp))) hP
      rw [List.filterMap_cons, List.filterMap_cons, ClientAction.requestTo, ClientAction.buffer]
      split_ifs
      · rw [hframe]
        exact hrest.cons hcarried
      · exact hrest

/-- **Requests on the wire.**  In every run, each session was given a frame to write for every
request that was written to it, in order, with the number of the type of the request and bytes in
which the request is read again. -/
theorem carries_of_run (hpairs : ∀ r, (pairs r).Perm r.table) {es : List ClientEvent}
    (hrun : run (step (hostOf H o) conf (Proto.packCmd H' R pairs) decode) start es = some c)
    {j : ℕ} {s : Connection} (hs : c.world.manager.sessions[j]? = some s) :
    List.Forall₂ (Request.Carried (hostOf H o) R)
      (c.world.actions.filterMap (ClientAction.requestTo j)) s.frames := by
  rw [frames_of_run hrun hs]
  exact forall₂_buffer rfl hpairs j fun r p hp => made_of_run hrun hp

/-- The client asks the directory for the worlds and registers a user. -/
theorem carries_of_run_registers :
    let decode (_ : String) (_ : Bytes) : Decoded LuaMessage := .message ⟨[], "ET_OK"⟩
    let es := [[], connects 0, receives 0 [0, 0, 0, 4, 0, 1, 138, 137]].flatMap fun events :
      List ClientEvent =>
      events ++ [.frameUpdate]
    ∃ c s, run (step (hostOf (Heap.const 0) .little) ⟨512, 20, by decide⟩
        (Proto.packCmd (Heap.const 0) Reals.zero Request.table) decode) start es = some c ∧
      c.world.manager.sessions[0]? = some s ∧ s.frames.length = 2 ∧
      List.Forall₂ (Request.Carried (hostOf (Heap.const 0) .little) Reals.zero)
        (c.world.actions.filterMap (ClientAction.requestTo 0)) s.frames := by
  intro decode es
  have h : ∃ c, run (step (hostOf (Heap.const 0) .little) ⟨512, 20, by decide⟩
      (Proto.packCmd (Heap.const 0) Reals.zero Request.table) decode) start es = some c ∧
      (c.world.manager.sessions[0]?).any (fun s : Connection => decide (s.frames.length = 2)) =
        true :=
    exists_run_of_any (by decide +kernel)
  obtain ⟨c, hrun, hframes⟩ := h
  obtain ⟨s, hs, hlength⟩ := Option.any_eq_true _ _ |>.1 hframes
  exact ⟨c, s, hrun, hs, of_decide_eq_true hlength, carries_of_run (fun _ => .refl _) hrun hs⟩

end Client

end SockTestProgram
