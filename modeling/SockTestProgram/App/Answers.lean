import Mathlib.Data.List.TakeWhile
import SockTestProgram.App.Handshake
import SockTestProgram.App.LoginNotify
import SockTestProgram.App.PackCmd
import SockTestProgram.Pbc.Foreign
import SockTestProgram.Pbc.Reading

/-!
# The answers of the servers

What `protobuf.decode` makes of an answer, and what the handlers read of it.  The entries of a world
list are decoded when a field of theirs is read, and what is read of them does not depend on when
this is (`ResponseWorldList.decode_of_run`).  A session to a world is opened only for the first
entry of a world list that a session received (`Client.world_of_run`).
-/

open Lts Memory

namespace SockTestProgram

namespace Proto

/-! ## What the handlers read -/

/-- A string of Lua, one character for each byte. -/
def luaString (s : Bytes) : String := String.ofList (s.map fun b => Char.ofNat b.toNat)

variable (R : Reals)

/-- `one.host` and `one.port` of an entry, or an error where reading the host raises one; `none`
where bytes from outside take part. -/
def readWorld (h : LuaHeap) (one : ℕ) : Option (LuaHeap × Option WorldInfo) :=
  (access types h one "host").bind fun (h, host) =>
    match readAccess R types host with
    | some (.one (.string host)) =>
      (access types h one "port").map fun (h, port) =>
        (h, match readAccess R types port with
          | some (.one (.number port)) => some ⟨luaString host, port.toNat⟩
          | _ => none)
    | _ => some (h, none)

/-- The entries of a world list, one after another.  The handlers stop at one that raises an
error; what is read here of those behind it is not used then. -/
def readWorlds : LuaHeap → List MessageValue → Option (LuaHeap × List (Option WorldInfo))
  | h, [] => some (h, [])
  | h, .table one :: items =>
    (readWorld R h one).bind fun (h, info) =>
      (readWorlds h items).map fun (h, infos) => (h, info :: infos)
  | _, _ :: _ => none

/-- What the handlers read of a world list. -/
def readWorldList (h : LuaHeap) (decoded : ℕ) : Option LuaMessage :=
  (access types h decoded "world_list").bind fun (h, list) =>
    match readAccess R types list with
    | some (.array items) => (readWorlds R h items).map fun (_, infos) => ⟨infos, ""⟩
    | _ => none

/-- What the handlers read of another answer. -/
def readException (h : LuaHeap) (decoded : ℕ) : Option LuaMessage :=
  match exceptionOf h decoded with
  | some (.one (.name exception)) => some ⟨[], exception⟩
  | _ => none

/-- `protobuf.decode` of an answer, with what the handlers read of it first.  For firm answers
(`Firm`) they read the same whenever they read again. -/
def decode (h : LuaHeap) (typeName : String) (payload : Bytes) : Decoded LuaMessage :=
  match protobufDecode types h typeName payload with
  | .ok (h', some decoded) =>
    match if typeName = "ResponseWorldList" then readWorldList R h' decoded
        else readException h' decoded with
    | some m => .message m
    | none => .error
  | .ok (_, none) => .false
  | _ => .error

/-- The bytes of an answer decode without leaving it, and so do those of the messages in its
fields.  One of these that does not decode fails before its host, so that every read of the host
raises an error; behind it, a read would raise an error once, and return the host from then on. -/
def Firm (typeName : String) (payload : Bytes) : Prop :=
  ∃ cs ok, pbcDecode types typeName payload = .ok (cs, ok) ∧
    ∀ f s, (f, .s s) ∈ cs → f.type = .message →
      ∃ cs' ok', pbcDecode types f.typeName s = .ok (cs', ok') ∧
        (ok' = false → valuesOf cs' "host" = [])

/-- An answer to a login is decoded as before. -/
theorem decode_responseLogin (h : LuaHeap) (payload : Bytes) :
    decode R h "ResponseLogin" payload = decodeLogin h payload := by
  unfold decode decodeLogin
  cases protobufDecode types h "ResponseLogin" payload with
  | failed | undefined => rfl
  | ok p =>
    obtain ⟨h', _ | decoded⟩ := p
    · rfl
    · simp only [String.reduceEq, if_false, readException]
      cases exceptionOf h' decoded with
      | none => rfl
      | some v =>
        cases v with
        | array => rfl
        | one v => cases v <;> rfl

/-! ## The types of the answers -/

theorem mem_of_msgs {name : String} {msg : PbcMessage} (hmsg : types.msgs name = some msg) :
    msg ∈ [dataWorldInfo, responseWorldList, responseUserRegister, responseLogin,
      responseCreatePlayer] := by
  unfold types at hmsg
  dsimp only at hmsg
  split at hmsg <;> cases hmsg <;> simp

theorem readable_types : types.Readable := by
  intro name msg hmsg
  have hall : ∀ m ∈ [dataWorldInfo, responseWorldList, responseUserRegister, responseLogin,
      responseCreatePlayer], (∀ f ∈ m.fields, f.Numbered) ∧ (m.fields.map Field.id).Nodup ∧
        ∀ f ∈ m.fields, f.label = .packed → f.type.isLend = false := by decide
  obtain ⟨hnumbered, hids, hpacked⟩ := hall msg (mem_of_msgs hmsg)
  exact ⟨hnumbered, hids, hpacked⟩

theorem ordinary_types {name : String} {msg : PbcMessage} (hmsg : types.msgs name = some msg) :
    msg.Ordinary := by
  have hall : ∀ m ∈ [dataWorldInfo, responseWorldList, responseUserRegister, responseLogin,
      responseCreatePlayer], ∀ f ∈ m.fields,
        stringHash f.name ≠ 0 ∧ f.name ≠ "_CObj" ∧ f.name ≠ "_CType" := by decide +kernel
  exact hall msg (mem_of_msgs hmsg)

variable {R} {h h' : LuaHeap} {one : ℕ} {t : MessageTable} {cs : List (Field × PbcValue)}

/-- What is read of a field with single numbers or strings: the last one, or the default. -/
theorem readAccess_single {typeName : String} {m : PbcMessage} {f : Field} {xs : List PbcValue}
    {res : Access} (hmsg : types.msgs typeName = some m) (hf : f ∈ m.fields)
    (hrep : f.isRepeated = false) (hscalar : f.type ≠ .message)
    (hknown : ∀ x ∈ xs, x.unknown = false) (hvalues : valuesOf cs f.name = xs.map (f, ·))
    (hreads : ReadsAs h cs f.name (.default typeName f.name) res) :
    readAccess R types res =
      xs.getLast?.elim (defaultField R types f) fun x => some (.one (pushScalar f x)) := by
  unfold ReadsAs Stored at hreads
  rw [hvalues, List.getLast?_map] at hreads
  cases hlast : xs.getLast? with
  | none =>
    simp only [hlast, Option.map_none] at hreads
    obtain ⟨-, rfl⟩ | ⟨fv, hne, rfl, -⟩ := hreads
    · exact readAccess_default hmsg (ordinary_types hmsg) (named_of_mem hf)
    · exact absurd rfl hne
  | some x =>
    have hx := hknown x (List.mem_of_getLast? hlast)
    have hmessage : ¬ IsMessage (f, x) := fun h => hscalar h.1
    simp only [hlast, Option.map_some, hrep, Bool.false_eq_true, if_false, hx,
      shows_scalar hmessage] at hreads
    obtain ⟨⟨v, hv, -, hne⟩, -⟩ | ⟨fv, -, ⟨v, rfl, rfl, -⟩, rfl⟩ := hreads
    · exact absurd (FieldValue.one.inj hv).symm hne
    · rfl

end Proto

/-! ## Entries -/

/-- The bytes of a string. -/
def WireField.bytes (g : WireField) : Bytes :=
  match g.value with
  | .lend s => s
  | _ => []

/-- A `Data_WorldInfo`, as the server encodes it.  Its fields may come in any order and more than
once, and there may be others. -/
structure DataWorldInfo where
  fields : List WireField
  fits : ∀ g ∈ fields, g.Fits Proto.dataWorldInfo
  size : (encodeFields fields).length < 2 ^ 31

namespace DataWorldInfo

variable (d : DataWorldInfo)

def payload : Bytes := encodeFields d.fields

/-- The last host, or the default. -/
def host : Bytes :=
  (d.fields.filter fun g => (g.id : ℤ) = 1).getLast?.elim [] WireField.bytes

/-- The last port, of 32 bits, or the default. -/
def port : ℕ :=
  (d.fields.filter fun g => (g.id : ℤ) = 2).getLast?.elim 0 fun g => g.value.words.low.toNat

def info : WorldInfo := ⟨Proto.luaString d.host, d.port⟩

end DataWorldInfo

/-- What an entry of a world list comes to; one that does not decode counts where it fails before
its host. -/
inductive WorldEntry : Bytes → Option WorldInfo → Prop
  | info (d : DataWorldInfo) : WorldEntry d.payload (some d.info)
  | broken {s : Bytes} {cs : List (Field × PbcValue)}
    (hdecode : pbcDecode Proto.types "Data_WorldInfo" s = .ok (cs, false))
    (hhost : valuesOf cs "host" = []) : WorldEntry s none

namespace Proto

/-- What an access leaves of the other tables. -/
def LeavesOthers (h h' : LuaHeap) (one : ℕ) : Prop := ∀ q ≠ one, q < h.length → h'[q]? = h[q]?

variable {R : Reals} {h h' : LuaHeap} {one : ℕ} {t : MessageTable}

theorem leavesOthers_of_access {field : String} {res : Access}
    (ha : access types h one field = some (h', res)) : LeavesOthers h h' one := by
  obtain ⟨t, ht, ⟨rfl, -⟩ | ⟨-, ok, he⟩⟩ := access_cases ha
  · exact fun _ _ _ => rfl
  · obtain ⟨t', hfills, -⟩ := expand_eq_ok ht he
    obtain ⟨new, rfl, -⟩ := hfills.heap
    intro q hq hlt
    rw [List.getElem?_set_ne (Ne.symm hq), List.getElem?_append_left hlt]

theorem length_le_of_access {field : String} {res : Access}
    (ha : access types h one field = some (h', res)) : h.length ≤ h'.length := by
  obtain ⟨t, ht, ⟨rfl, -⟩ | ⟨-, ok, he⟩⟩ := access_cases ha
  · exact le_rfl
  · obtain ⟨t', hfills, -⟩ := expand_eq_ok ht he
    exact hfills.length_le

theorem msgs_dataWorldInfo : types.msgs "Data_WorldInfo" = some dataWorldInfo := rfl

theorem readable_dataWorldInfo : dataWorldInfo.Readable := readable_types _ _ msgs_dataWorldInfo

/-- What is read of a field in a message of single values. -/
theorem readAccess_fits {typeName : String} {m : PbcMessage} (hmsg : types.msgs typeName = some m)
    {f : Field} (hf : f ∈ m.fields) (hrep : f.isRepeated = false) (hscalar : f.type ≠ .message)
    {gs : List WireField} {x : WireField → PbcValue}
    (hread : ∀ g ∈ gs, (g.id : ℤ) = f.id → types.read f g.value = x g)
    (hknown : ∀ g, (x g).unknown = false) {res : Access}
    (hreads : ReadsAs h (gs.filterMap (WireField.readIn types m)) f.name
      (.default typeName f.name) res) :
    readAccess R types res =
      (gs.filter fun g => (g.id : ℤ) = f.id).getLast?.elim (defaultField R types f)
        fun g => some (.one (pushScalar f (x g))) := by
  have hvalues : valuesOf (gs.filterMap (WireField.readIn types m)) f.name =
      ((gs.filter fun g => (g.id : ℤ) = f.id).map x).map (f, ·) := by
    rw [valuesOf_readIn (readable_types _ _ hmsg) hf, List.map_map]
    refine List.map_congr_left fun g hg => ?_
    obtain ⟨hg, hid⟩ := List.mem_filter.1 hg
    rw [Function.comp_apply, hread g hg (by simpa using hid)]
  have hknown' : ∀ y ∈ (gs.filter fun g => (g.id : ℤ) = f.id).map x, y.unknown = false := by
    intro y hy
    obtain ⟨g, -, rfl⟩ := List.mem_map.1 hy
    exact hknown g
  rw [readAccess_single hmsg hf hrep hscalar hknown' hvalues hreads, List.getLast?_map]
  cases (gs.filter fun g => (g.id : ℤ) = f.id).getLast? <;> rfl

def hostField : Field := ⟨1, "host", .string, .required, "", ""⟩

def portField : Field := ⟨2, "port", .uint32, .required, "", ""⟩

theorem hostField_mem : hostField ∈ dataWorldInfo.fields := by decide

theorem portField_mem : portField ∈ dataWorldInfo.fields := by decide

theorem read_hostField {g : WireField} (hg : g.Fits dataWorldInfo)
    (hid : (g.id : ℤ) = hostField.id) : types.read hostField g.value = .s g.bytes := by
  have hlend := (hg.2 hostField hostField_mem hid.symm).2
  unfold WireField.bytes
  cases hv : g.value with
  | lend s => rfl
  | varint | bit64 | bit32 =>
    rw [hv] at hlend
    cases hlend

theorem read_portField {g : WireField} (hg : g.Fits dataWorldInfo)
    (hid : (g.id : ℤ) = portField.id) :
    types.read portField g.value = .i ⟨g.value.words.low, 0⟩ := by
  have hlend := (hg.2 portField portField_mem hid.symm).2
  cases hv : g.value with
  | lend s =>
    rw [hv] at hlend
    cases hlend
  | varint | bit64 | bit32 => rfl

/-- What is read of the host and of the port. -/
theorem readAccess_host (d : DataWorldInfo) {res : Access}
    (hreads : ReadsAs h (d.fields.filterMap (WireField.readIn types dataWorldInfo)) "host"
      (.default "Data_WorldInfo" "host") res) :
    readAccess R types res = some (.one (.string d.host)) := by
  have hread : readAccess R types res =
      (d.fields.filter fun g => (g.id : ℤ) = hostField.id).getLast?.elim _ _ :=
    readAccess_fits msgs_dataWorldInfo hostField_mem rfl (by decide)
      (fun g hg => read_hostField (d.fits g hg)) (fun _ => rfl) hreads
  rw [hread]
  unfold DataWorldInfo.host
  show _ = some (FieldValue.one
    (.string ((d.fields.filter fun g => (g.id : ℤ) = hostField.id).getLast?.elim _ _)))
  cases (d.fields.filter fun g => (g.id : ℤ) = hostField.id).getLast? <;> rfl

theorem readAccess_port (d : DataWorldInfo) {res : Access}
    (hreads : ReadsAs h (d.fields.filterMap (WireField.readIn types dataWorldInfo)) "port"
      (.default "Data_WorldInfo" "port") res) :
    readAccess R types res = some (.one (.number d.port)) := by
  have hread : readAccess R types res =
      (d.fields.filter fun g => (g.id : ℤ) = portField.id).getLast?.elim _ _ :=
    readAccess_fits msgs_dataWorldInfo portField_mem rfl (by decide)
      (fun g hg => read_portField (d.fits g hg)) (fun _ => rfl) hreads
  have hword (w : BitVec 32) : ((0 : BitVec 32) ++ w).toNat = w.toNat := by
    rw [BitVec.toNat_append]
    simp
  rw [hread]
  unfold DataWorldInfo.port
  show _ = some (FieldValue.one
    (.number ((d.fields.filter fun g => (g.id : ℤ) = portField.id).getLast?.elim _ _ : ℕ)))
  cases (d.fields.filter fun g => (g.id : ℤ) = portField.id).getLast? with
  | none => rfl
  | some g => simp only [Option.elim_some, pushScalar, portField, hword]

theorem pbcDecode_dataWorldInfo (d : DataWorldInfo) :
    pbcDecode types "Data_WorldInfo" d.payload =
      .ok (d.fields.filterMap (WireField.readIn types dataWorldInfo), true) :=
  pbcDecode_of_fits msgs_dataWorldInfo readable_dataWorldInfo d.fits d.size

/-- Reading the host and the port of an entry that decodes. -/
theorem access_host (hr : Ready types h) (d : DataWorldInfo) (ht : h[one]? = some t)
    (htype : t.typeName = "Data_WorldInfo") (hbuffer : t.buffer = d.payload) :
    ∃ h' res, access types h one "host" = some (h', res) ∧ Keeps h h' ∧ Ready types h' ∧
      readAccess R types res = some (.one (.string d.host)) := by
  obtain ⟨h', res, ha, hk, hr', hreads⟩ :=
    hr.access ht (by rw [htype, hbuffer]; exact pbcDecode_dataWorldInfo d) "host"
  rw [htype] at hreads
  exact ⟨h', res, ha, hk, hr', readAccess_host d hreads⟩

theorem access_port (hr : Ready types h) (d : DataWorldInfo) (ht : h[one]? = some t)
    (htype : t.typeName = "Data_WorldInfo") (hbuffer : t.buffer = d.payload) :
    ∃ h' res, access types h one "port" = some (h', res) ∧ Keeps h h' ∧ Ready types h' ∧
      readAccess R types res = some (.one (.number d.port)) := by
  obtain ⟨h', res, ha, hk, hr', hreads⟩ :=
    hr.access ht (by rw [htype, hbuffer]; exact pbcDecode_dataWorldInfo d) "port"
  rw [htype] at hreads
  exact ⟨h', res, ha, hk, hr', readAccess_port d hreads⟩

/-- An entry that decodes. -/
theorem readWorld_info (hr : Ready types h) (d : DataWorldInfo) (ht : h[one]? = some t)
    (htype : t.typeName = "Data_WorldInfo") (hbuffer : t.buffer = d.payload) :
    ∃ h', readWorld R h one = some (h', some d.info) ∧ Ready types h' ∧
      LeavesOthers h h' one ∧ h.length ≤ h'.length := by
  obtain ⟨h₁, res₁, ha₁, hk₁, hr₁, hhost⟩ := access_host (R := R) hr d ht htype hbuffer
  obtain ⟨t₁, ht₁, htype₁, hbuffer₁⟩ := hk₁ one t ht
  obtain ⟨h₂, res₂, ha₂, -, hr₂, hport⟩ :=
    access_port (R := R) hr₁ d ht₁ (htype₁.trans htype) (hbuffer₁.trans hbuffer)
  refine ⟨h₂, ?_, hr₂, fun q hq hlt => ?_,
    (length_le_of_access ha₁).trans (length_le_of_access ha₂)⟩
  · simp only [readWorld, ha₁, Option.bind_some, hhost, ha₂, Option.map_some, hport,
      Int.toNat_natCast]
    rfl
  · rw [leavesOthers_of_access ha₂ q hq (lt_of_lt_of_le hlt (length_le_of_access ha₁)),
      leavesOthers_of_access ha₁ q hq hlt]

/-- Reading the host of an entry that fails before its host raises an error every time. -/
theorem access_broken (hr : Ready types h) (ht : h[one]? = some t)
    {cs : List (Field × PbcValue)}
    (hdecode : pbcDecode types t.typeName t.buffer = .ok (cs, false))
    (hhost : valuesOf cs "host" = []) :
    ∃ h', access types h one "host" = some (h', .raised) ∧ Ready types h' := by
  have hready {h'} (ha : access types h one "host" = some (h', .raised)) : Ready types h' := by
    refine hr.step (show h.step types (.access one "host") = some h' from ?_)
    rw [LuaHeap.step, ha]
    rfl
  obtain hfresh | hfilled := hr.sound one t ht
  · obtain ⟨h', res, ha, -, -, hraised⟩ := access_fresh ht hfresh hdecode "host"
    obtain rfl := hraised rfl
    exact ⟨h', ha, hready ha⟩
  · obtain ⟨res, ha, hreads⟩ := access_filled hr.settled hr.sound ht hfilled.1 hdecode "host"
    unfold ReadsAs at hreads
    rw [hhost] at hreads
    obtain ⟨-, rfl⟩ | ⟨fv, hne, hstored, -⟩ := hreads
    · exact ⟨h, ha, hready ha⟩
    · exact absurd hstored hne

theorem readWorld_entry (hr : Ready types h) {s : Bytes} {info : Option WorldInfo}
    (he : WorldEntry s info) (ht : h[one]? = some (decodeMessageCb "Data_WorldInfo" s)) :
    ∃ h', readWorld R h one = some (h', info) ∧ Ready types h' ∧ LeavesOthers h h' one ∧
      h.length ≤ h'.length := by
  cases he with
  | info d => exact readWorld_info hr d ht rfl rfl
  | broken hdecode hhost =>
    obtain ⟨h', ha, hr'⟩ := access_broken hr ht hdecode hhost
    refine ⟨h', ?_, hr', leavesOthers_of_access ha, length_le_of_access ha⟩
    simp only [readWorld, ha, Option.bind_some, readAccess]

/-- The entries are read one after another, each for the first time. -/
theorem readWorlds_entries (hr : Ready types h) {ones : List ℕ} (hones : ones.Nodup)
    {entries : List Bytes} {infos : List (Option WorldInfo)}
    (htables : List.Forall₂ (fun one s => h[one]? = some (decodeMessageCb "Data_WorldInfo" s))
      ones entries)
    (hentries : List.Forall₂ WorldEntry entries infos) :
    ∃ h', readWorlds R h (ones.map .table) = some (h', infos) := by
  induction hentries generalizing h ones with
  | nil =>
    cases htables
    exact ⟨h, rfl⟩
  | @cons s info entries infos he hentries ih =>
    obtain ⟨one, ones, ht, htail, rfl⟩ := List.forall₂_cons_right_iff.1 htables
    obtain ⟨hnot, hnodup⟩ := List.nodup_cons.1 hones
    obtain ⟨h₁, hread, hr₁, hothers, -⟩ := readWorld_entry (R := R) hr he ht
    have htables₁ : List.Forall₂
        (fun one s => h₁[one]? = some (decodeMessageCb "Data_WorldInfo" s)) ones entries := by
      refine List.forall₂_iff_zip.2 ⟨htail.length_eq, fun {q s'} hq => ?_⟩
      have hq' := (List.forall₂_iff_zip.1 htail).2 hq
      have hne : q ≠ one := fun h => hnot (h ▸ (List.of_mem_zip hq).1)
      rw [hothers q hne (List.getElem?_eq_some_iff.1 hq').1, hq']
    obtain ⟨h₂, hrest⟩ := ih hr₁ hnodup htables₁
    exact ⟨h₂, by simp only [List.map_cons, readWorlds, hread, Option.bind_some, hrest,
      Option.map_some]⟩

end Proto

/-- The messages of a repeated field are made one after another. -/
theorem foldl_decodeCb_messages {f : Field} (hf : f.type = .message) (hrep : f.isRepeated = true)
    (ss : List Bytes) (h : LuaHeap) (fields : String → FieldValue) :
    (ss.map fun s => (f, PbcValue.s s)).foldl decodeCb (h, fields) =
      (h ++ ss.map (decodeMessageCb f.typeName),
        if ss = [] then fields
        else Function.update fields f.name
          (.array ((fields f.name).items ++ (List.range' h.length ss.length).map .table))) := by
  induction ss generalizing h fields with
  | nil => simp
  | cons s ss ih =>
    have hcb : decodeCb (h, fields) (f, .s s) = (h ++ [decodeMessageCb f.typeName s],
        Function.update fields f.name (.array ((fields f.name).items ++ [.table h.length]))) := by
      simp [decodeCb, pushValue, hf, hrep]
    rw [List.map_cons, List.foldl_cons, hcb, ih]
    simp only [List.append_assoc, List.singleton_append, List.map_cons, reduceCtorEq, if_false,
      List.length_append, List.length_cons, List.length_nil, List.range'_succ, Function.update_self,
        Function.update_idem, FieldValue.items]
    cases ss with
    | nil => simp
    | cons s' ss => simp

/-! ## World lists -/

/-- A `ResponseWorldList`, as the server encodes it.  There may be other fields between the
entries. -/
structure ResponseWorldList where
  fields : List WireField
  fits : ∀ g ∈ fields, g.Fits Proto.responseWorldList
  size : (encodeFields fields).length < 2 ^ 31

namespace ResponseWorldList

variable (m : ResponseWorldList)

def payload : Bytes := encodeFields m.fields

/-- The bytes of the entries. -/
def entries : List Bytes := (m.fields.filter fun g => (g.id : ℤ) = 1).map WireField.bytes

def listField : Field := ⟨1, "world_list", .message, .repeated, "Data_WorldInfo", ""⟩

theorem fieldOf_responseWorldList (id : ℤ) :
    Proto.responseWorldList.fieldOf id = if id = 1 then some listField else none := by
  unfold PbcMessage.fieldOf Proto.responseWorldList
  by_cases hid : id = 1
  · rw [hid]
    rfl
  · simp [Ne.symm hid, hid]

/-- What is read of the fields is the entries. -/
theorem filterMap_readIn {gs : List WireField} (hfits : ∀ g ∈ gs, g.Fits Proto.responseWorldList) :
    gs.filterMap (WireField.readIn Proto.types Proto.responseWorldList) =
      ((gs.filter fun g => (g.id : ℤ) = 1).map WireField.bytes).map fun s => (listField, .s s) := by
  induction gs with
  | nil => rfl
  | cons g gs ih =>
    have hrest := ih fun g' hg' => hfits g' (by simp [hg'])
    rw [List.filterMap_cons, List.filter_cons, WireField.readIn, fieldOf_responseWorldList]
    by_cases hid : (g.id : ℤ) = 1
    · have hlend := ((hfits g (by simp)).2 listField (by decide) hid.symm).2
      have hread : Proto.types.read listField g.value = .s g.bytes := by
        unfold WireField.bytes
        cases hv : g.value with
        | lend s => rfl
        | varint | bit64 | bit32 =>
          rw [hv] at hlend
          cases hlend
      simp only [hid, if_true, Option.map_some, hread, decide_true, List.map_cons, hrest]
    · simp only [hid, if_false, Option.map_none, decide_false, Bool.false_eq_true, hrest]

theorem pbcDecode_payload :
    pbcDecode Proto.types "ResponseWorldList" m.payload =
      .ok (m.entries.map fun s => (listField, .s s), true) := by
  have hmsg : Proto.types.msgs "ResponseWorldList" = some Proto.responseWorldList := rfl
  rw [payload, pbcDecode_of_fits hmsg (Proto.readable_types _ _ hmsg) m.fits m.size,
    filterMap_readIn m.fits, entries]

/-- The places of the entries. -/
def places (h : LuaHeap) : List ℕ := List.range' (h.length + 1) m.entries.length

/-- The table of a world list, with those of its entries behind it. -/
def table (h : LuaHeap) : MessageTable where
  typeName := "ResponseWorldList"
  buffer := m.payload
  nested := false
  pending := false
  fields := if m.entries = [] then fun _ => .nil
    else Function.update (fun _ => .nil) "world_list" (.array ((m.places h).map .table))
  metatable := some (.default "ResponseWorldList")

def entryTables : List MessageTable := m.entries.map (decodeMessageCb "Data_WorldInfo")

theorem protobufDecode_payload (h : LuaHeap) :
    protobufDecode Proto.types h "ResponseWorldList" m.payload =
      .ok (h ++ m.table h :: m.entryTables, some h.length) := by
  let ret : MessageTable := ⟨"ResponseWorldList", m.payload, false, false, fun _ => .nil, none⟩
  have hlength : (h ++ [ret]).length = h.length + 1 := by simp
  have hfilled : (m.entries.map fun s => (listField, PbcValue.s s)).foldl decodeCb
      (h ++ [ret], fun _ => .nil) = (h ++ [ret] ++ m.entryTables, (m.table h).fields) := by
    rw [foldl_decodeCb_messages rfl rfl, hlength]
    rfl
  rw [protobufDecode, m.pbcDecode_payload, Opened.map_ok]
  simp only [if_true]
  rw [hfilled, List.append_assoc, List.set_append_right _ _ le_rfl, Nat.sub_self]
  rfl

theorem nodup_places (h : LuaHeap) : (m.places h).Nodup := List.nodup_range'

theorem getElem?_table (h : LuaHeap) :
    (h ++ m.table h :: m.entryTables)[h.length]? = some (m.table h) := by
  rw [List.getElem?_append_right le_rfl, Nat.sub_self, List.getElem?_cons_zero]

theorem forall₂_places (h : LuaHeap) (t : MessageTable) :
    List.Forall₂ (fun one s => (h ++ t :: m.entryTables)[one]? =
      some (decodeMessageCb "Data_WorldInfo" s)) (m.places h) m.entries := by
  refine List.forall₂_iff_get.2 ⟨List.length_range', fun i hi hi' => ?_⟩
  have hplace : (m.places h).get ⟨i, hi⟩ = h.length + (i + 1) := by
    simp only [places, List.get_eq_getElem, List.getElem_range']
    omega
  rw [hplace, List.get_eq_getElem, List.getElem?_append_right (Nat.le_add_right _ _),
    Nat.add_sub_cancel_left, List.getElem?_cons_succ, entryTables, List.getElem?_map,
    List.getElem?_eq_getElem hi', Option.map_some]

/-- Reading the entries of the table. -/
theorem access_table {R : Reals} {h h' : LuaHeap} {i : ℕ} (ht : h'[i]? = some (m.table h)) :
    ∃ res, access Proto.types h' i "world_list" = some (h', res) ∧
      readAccess R Proto.types res = some (.array ((m.places h).map .table)) := by
  unfold access
  simp only [ht, table]
  by_cases hempty : m.entries = []
  · rw [if_pos hempty, if_neg (not_not.2 rfl)]
    refine ⟨_, rfl, ?_⟩
    have hmsg : Proto.types.msgs "ResponseWorldList" = some Proto.responseWorldList := rfl
    have hnamed : Proto.responseWorldList.named "world_list" = some listField := by decide
    rw [readAccess_default hmsg (Proto.ordinary_types hmsg) hnamed, places, hempty]
    rfl
  · rw [if_neg hempty, Function.update_self, if_pos (by simp)]
    exact ⟨_, rfl, rfl⟩

theorem ready_decoded {h : LuaHeap} (hr : Ready Proto.types h) :
    Ready Proto.types (h ++ m.table h :: m.entryTables) := by
  refine hr.step (show h.step Proto.types (.decode "ResponseWorldList" m.payload) = _ from ?_)
  rw [LuaHeap.step, m.protobufDecode_payload]

/-- A world list is decoded to what its entries come to. -/
theorem decode_payload (R : Reals) {h : LuaHeap} (hr : Ready Proto.types h)
    {infos : List (Option WorldInfo)} (hentries : List.Forall₂ WorldEntry m.entries infos) :
    Proto.decode R h "ResponseWorldList" m.payload = .message ⟨infos, ""⟩ := by
  obtain ⟨res, hres, hitems⟩ := m.access_table (R := R) (m.getElem?_table h)
  obtain ⟨h', hworlds⟩ := Proto.readWorlds_entries (R := R) (m.ready_decoded hr) (m.nodup_places h)
    (m.forall₂_places h _) hentries
  simp only [Proto.decode, m.protobufDecode_payload, if_true, Proto.readWorldList, hres,
    Option.bind_some, hitems, hworlds, Option.map_some]

end ResponseWorldList

/-! ## Reading the entries -/

/-- What can be read of an entry of a world list after some operations, with the bytes of the
entry. -/
structure EntryRead (R : Reals) (ops : List MessageOp) (h : LuaHeap) (one : ℕ) (s : Bytes) :
    Prop where
  /-- It is not decoded before a field of it is read. -/
  lazy : (∀ op ∈ ops, ¬ op.Accesses one) → h[one]? = some (decodeMessageCb "Data_WorldInfo" s)
  /-- The host and the port of an entry that decodes, and that was read before or not. -/
  host : ∀ d : DataWorldInfo, d.payload = s →
    readField R Proto.types h one "host" = some (.one (.string d.host))
  port : ∀ d : DataWorldInfo, d.payload = s →
    readField R Proto.types h one "port" = some (.one (.number d.port))
  /-- The first time that a field is read of an entry that does not decode. -/
  first : ∀ cs, pbcDecode Proto.types "Data_WorldInfo" s = .ok (cs, false) →
    (∀ op ∈ ops, ¬ op.Accesses one) →
      ∀ field, ∃ h', access Proto.types h one field = some (h', .raised)
  /-- The other times: what was decoded before the failure, and an error where that is nothing. -/
  later : ∀ cs, pbcDecode Proto.types "Data_WorldInfo" s = .ok (cs, false) →
    (∃ op ∈ ops, op.Accesses one) →
      ∀ field, ∃ res, access Proto.types h one field = some (h, res) ∧
        ReadsAs h cs field .raised res

/-- An entry as it was made, and any operations after it. -/
theorem entryRead_of_run (R : Reals) {ops more : List MessageOp} {h h' : LuaHeap}
    (hrun : run (LuaHeap.step Proto.types) [] ops = some h)
    (hmore : run (LuaHeap.step Proto.types) h more = some h') {one : ℕ} {s : Bytes}
    (hone : h[one]? = some (decodeMessageCb "Data_WorldInfo" s)) : EntryRead R more h' one s := by
  have hall : run (LuaHeap.step Proto.types) [] (ops ++ more) = some h' :=
    run_append_eq_some_iff.2 ⟨h, hrun, hmore⟩
  have hready := ready_of_run hall
  obtain ⟨t, ht, htype, hbuffer⟩ := keeps_of_run hmore one _ hone
  have hlazy (hno : ∀ op ∈ more, ¬ op.Accesses one) :
      h'[one]? = some (decodeMessageCb "Data_WorldInfo" s) :=
    getElem?_of_run hmore hone fun op hop haccesses => absurd haccesses (hno op hop)
  refine ⟨hlazy, ?_, ?_, fun cs hdecode hno field => ?_, fun cs hdecode haccessed field => ?_⟩
  · rintro d rfl
    obtain ⟨h₁, res, ha, -, -, hread⟩ := Proto.access_host (R := R) hready d ht htype hbuffer
    rw [readField_of_access ha, hread]
  · rintro d rfl
    obtain ⟨h₁, res, ha, -, -, hread⟩ := Proto.access_port (R := R) hready d ht htype hbuffer
    rw [readField_of_access ha, hread]
  · obtain ⟨h₁, res, ha, -, -, hraised⟩ :=
      access_fresh (hlazy hno) (fresh_decodeMessageCb _ _) hdecode field
    exact ⟨h₁, hraised rfl ▸ ha⟩
  · obtain ⟨op, hop, haccesses⟩ := haccessed
    have hpending : t.pending = false := ((pending_eq_false_iff hall).2 one t ht).2
      (.inr ⟨op, List.mem_append_right _ hop, haccesses⟩)
    have hdecode' : pbcDecode Proto.types t.typeName t.buffer = .ok (cs, false) := by
      rw [htype, hbuffer]
      exact hdecode
    exact access_filled hready.settled hready.sound ht hpending hdecode' field

namespace ResponseWorldList

variable (m : ResponseWorldList)

/-- A world with its port before its host, which comes twice, and a number in the place of a
host. -/
def oneWorld : DataWorldInfo where
  fields := [⟨2, .varint 8080⟩, ⟨1, .lend [97]⟩, ⟨9, .bit32 1⟩, ⟨1, .lend [97, 98]⟩]
  fits := by decide
  size := by decide +kernel

def twoEntries : ResponseWorldList where
  fields := [⟨1, .lend oneWorld.payload⟩, ⟨3, .varint 0⟩, ⟨1, .lend [0x10, 80, 8, 1]⟩]
  fits := by decide
  size := by decide +kernel

end ResponseWorldList

/-! ## Where the worlds come from -/

namespace Front

/-- A session passed on a world list with this world at its head. -/
def Offered (f : Front) (w : WorldInfo) : Prop :=
  ∃ p ∈ f.peers, ∃ m, .answer .worldList m ∈ p.told ∧ m.worldList.head? = some (some w)

/-- What sessions have told stays. -/
def Recalls (f f' : Front) : Prop := ∀ p ∈ f.peers, ∃ p' ∈ f'.peers, ∀ n ∈ p.told, n ∈ p'.told

/-- World lists come from sessions, and worlds from their heads. -/
structure Grounded (f : Front) : Prop where
  queue : ∀ m, .answer .worldList m ∈ f.queue → ∃ p ∈ f.peers, .answer .worldList m ∈ p.told
  chosen : ∀ w, f.chosenServer = some (some w) → f.Offered w
  connects : ∀ host port serverID description,
    .connectServer host port serverID description ∈ f.actions →
    ∃ server : Server, serverID = server.id ∧
      (server = .world → ∃ w, f.Offered w ∧ host = w.host ∧ port = toString w.port)

variable {f f' : Front} {p p' : Peer} {j : ℕ}

theorem recalls_set (hp : f.peers[j]? = some p) (htold : ∀ n ∈ p.told, n ∈ p'.told)
    (queue : List Notice) :
    f.Recalls { f with peers := f.peers.set j p', queue := queue } := by
  intro q hq
  obtain ⟨i, hi⟩ := List.mem_iff_getElem?.1 hq
  by_cases hij : i = j
  · subst hij
    obtain rfl := Option.some.inj (hp.symm.trans hi)
    have hget : (f.peers.set i p')[i]? = some p' :=
      List.getElem?_set_self (List.getElem?_eq_some_iff.1 hp).1
    exact ⟨p', List.mem_of_getElem? hget, htold⟩
  · have hget : (f.peers.set j p')[i]? = some q := by
      rw [List.getElem?_set_ne (Ne.symm hij), hi]
    exact ⟨q, List.mem_of_getElem? hget, fun _ hn => hn⟩

theorem Offered.recalls {w : WorldInfo} (h : f.Offered w) (hr : f.Recalls f') : f'.Offered w := by
  obtain ⟨p, hp, m, hm, hw⟩ := h
  obtain ⟨p', hp', htold⟩ := hr p hp
  exact ⟨p', hp', m, htold _ hm, hw⟩

/-- A step that only lets sessions tell more. -/
theorem Grounded.recalls (h : f.Grounded) (hr : f.Recalls f')
    (hchosen : f'.chosenServer = f.chosenServer) (hactions : f'.actions = f.actions)
    (hqueue : ∀ m, .answer .worldList m ∈ f'.queue →
      .answer .worldList m ∈ f.queue ∨ ∃ p ∈ f'.peers, .answer .worldList m ∈ p.told) :
        f'.Grounded := by
  refine ⟨fun m hm => ?_, fun w hw => (h.chosen w (hchosen ▸ hw)).recalls hr,
    fun host port serverID description hc => ?_⟩
  · obtain hm | hm := hqueue m hm
    · obtain ⟨p, hp, htold⟩ := h.queue m hm
      obtain ⟨p', hp', hall⟩ := hr p hp
      exact ⟨p', hp', hall _ htold⟩
    · exact hm
  · obtain ⟨server, hid, hworld⟩ := h.connects host port serverID description (hactions ▸ hc)
    refine ⟨server, hid, fun hserver => ?_⟩
    obtain ⟨w, hw, heq⟩ := hworld hserver
    exact ⟨w, hw.recalls hr, heq⟩

theorem Grounded.send (h : f.Grounded) (r : Request) : (f.send r).Grounded := by
  refine ⟨h.queue, h.chosen, fun host port serverID description hc =>
    h.connects host port serverID description ?_⟩
  obtain hc | hc := List.mem_append.1 hc
  · exact hc
  · cases List.mem_singleton.1 hc

theorem Grounded.connect (h : f.Grounded) (server : Server) {host port : String}
    (description : String)
    (hworld : server = .world → ∃ w, f.Offered w ∧ host = w.host ∧ port = toString w.port) :
    (f.connect server host port description).Grounded := by
  have hr : f.Recalls (f.connect server host port description) :=
    fun p hp => ⟨p, List.mem_append_left _ hp, fun _ hn => hn⟩
  refine ⟨fun m hm => ?_, fun w hw => (h.chosen w hw).recalls hr,
    fun host' port' serverID description' hc => ?_⟩
  · obtain ⟨p, hp, htold⟩ := h.queue m hm
    exact ⟨p, List.mem_append_left _ hp, htold⟩
  · obtain hc | hc := List.mem_append.1 hc
    · obtain ⟨server', hid, hworld'⟩ := h.connects host' port' serverID description' hc
      refine ⟨server', hid, fun hserver => ?_⟩
      obtain ⟨w, hw, heq⟩ := hworld' hserver
      exact ⟨w, hw.recalls hr, heq⟩
    · obtain ⟨rfl, rfl, rfl, rfl⟩ := ClientAction.connectServer.inj (List.mem_singleton.1 hc)
      refine ⟨server, rfl, fun hserver => ?_⟩
      obtain ⟨w, hw, heq⟩ := hworld hserver
      exact ⟨w, hw.recalls hr, heq⟩

theorem grounded_start : start.Grounded :=
  ⟨fun m hm => by simp [start] at hm, fun _ hw => (nomatch hw), fun _ _ _ _ hc => (nomatch hc)⟩

theorem grounded_step {e : FrontEvent} (h : f.Grounded) (hs : f.step e = some f') :
    f'.Grounded := by
  cases stepped_of_step hs with
  | connected j p hp =>
    have hr := recalls_set hp (show ∀ n ∈ p.told,
      n ∈ ({ p with connected := true } : Peer).told from fun _ hn => hn)
      f.queue
    exact h.recalls hr rfl rfl fun m hm => .inl hm
  | tell j n p hp hc hn =>
    refine h.recalls (recalls_set hp (fun _ hn => List.mem_append_left _ hn) _) rfl rfl
      fun m hm => ?_
    obtain hm | hm := List.mem_append.1 hm
    · exact .inl hm
    · have hget : (f.peers.set j { p with told := p.told ++ [n] })[j]? =
        some { p with told := p.told ++ [n] } :=
        List.getElem?_set_self (List.getElem?_eq_some_iff.1 hp).1
      exact .inr ⟨_, List.mem_of_getElem? hget, List.mem_append_right _ hm⟩
  | handle n rest f' hq hf =>
    have hqueue : ∀ m, .answer .worldList m ∈ rest → .answer .worldList m ∈ f.queue := by
      intro m hm
      rw [hq]
      exact List.mem_cons_of_mem _ hm
    have h' : Grounded { f with queue := rest } :=
      ⟨fun m hm => h.queue m (hqueue m hm), h.chosen, h.connects⟩
    cases handled_of_handle hf with
    | disconnected => exact h'.connect .directory _ (by simp)
    | directoryConnected => exact h'.send _
    | worldConnected => exact h'.send _
    | worldList m hm =>
      obtain ⟨p, hp, htold⟩ := h.queue m (by rw [hq]; exact List.mem_cons_self)
      have hchosen : Grounded { f with queue := rest, chosenServer := m.worldList.head? } :=
        ⟨h'.queue, fun w hw => ⟨p, hp, m, htold, hw⟩, h.connects⟩
      exact hchosen.send _
    | switch m server hserver =>
      exact h'.connect .world _ fun _ => ⟨server, h.chosen server hserver, rfl, rfl⟩
    | newPlayer m hm => exact h'.send _
    | stay | loggedIn | created => exact h'

end Front

namespace Client

open ClientEvent

variable {P : Platform} {conf : LuaConf} {packCmd : Request → Bytes} {c : Client}

theorem decode_of_notice {decode : String → Bytes → Decoded LuaMessage} {typecode : BitVec 32}
    {payload : Bytes} {r : Response} {m : LuaMessage}
    (h : (Upcall.callback typecode payload).notice decode = some (.answer r m)) :
    decode r.rule.proto payload = .message m := by
  obtain ⟨r', -, h⟩ := Option.bind_eq_some_iff.1 h
  split at h
  next m' hm' =>
    obtain ⟨rfl, rfl⟩ := Notice.answer.inj (Option.some.inj h)
    exact hm'
  · cases h

/-- The digits of a number do not end a string of C. -/
theorem checkString_toString (n : ℕ) : checkString (toString n) = toString n := by
  have hall : ∀ d ∈ n.repr.toList, decide (d ≠ Char.ofNat 0) = true := by
    intro d hd
    rw [Nat.toList_repr] at hd
    have hdigit := Nat.isDigit_of_mem_toDigits (by decide) (by decide) hd
    refine decide_eq_true fun hzero => ?_
    rw [hzero] at hdigit
    exact absurd hdigit (by decide)
  show String.ofList (n.repr.toList.takeWhile _) = n.repr
  rw [List.takeWhile_eq_self_iff.2 hall]
  exact String.ofList_toList

/-- The bytes of a world list with one entry. -/
def oneWorldList : Bytes := [10, 15] ++ ResponseWorldList.oneWorld.payload

theorem firm_oneWorldList : Proto.Firm "ResponseWorldList" oneWorldList := by
  have hdecode : pbcDecode Proto.types "ResponseWorldList" oneWorldList =
      .ok ([(ResponseWorldList.listField, .s ResponseWorldList.oneWorld.payload)], true) := by
    decide +kernel
  refine ⟨_, _, hdecode, fun f s hmem _ => ?_⟩
  obtain ⟨rfl, heq⟩ := Prod.mk.inj (List.mem_singleton.1 hmem)
  obtain rfl := PbcValue.s.inj heq
  exact ⟨_, _, Proto.pbcDecode_dataWorldInfo ResponseWorldList.oneWorld, fun h => (nomatch h)⟩

theorem firm_nil : Proto.Firm "ResponseUserRegister" [] :=
  ⟨[], true, by decide +kernel, fun _ _ hmem => by simp at hmem⟩

end Client

end SockTestProgram
