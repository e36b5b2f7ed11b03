import SockTestProgram.App.Proto
import SockTestProgram.Pbc.Expansion

/-!
# `Proto.optionalNoDefault`

The messages that the client receives, and which fields `Proto.optionalNoDefault` of `app/Proto.lua`
reads as they are in the bytes of a message (`optionalNoDefault_iff`).  It takes the metatable away
to hide the defaults; from a message in a field of another one, this takes away what would decode
it.
-/

open Lts

namespace SockTestProgram

/-! ## The messages of the client -/

namespace Proto

/-- `Data_WorldInfo` of `data.pb` -/
def dataWorldInfo : PbcMessage where
  fields := [⟨1, "host", .string, .required, "", ""⟩, ⟨2, "port", .uint32, .required, "", ""⟩,
    ⟨3, "id", .uint32, .required, "", ""⟩, ⟨4, "name", .string, .required, "", ""⟩]
  distinct := by decide

/-- `ResponseWorldList` of `cs_dir.pb` -/
def responseWorldList : PbcMessage where
  fields := [⟨1, "world_list", .message, .repeated, "Data_WorldInfo", ""⟩]
  distinct := by decide

/-- The field `exception` of the other responses. -/
def exceptionField : Field := ⟨1, "exception", .enum, .optional, "ExceptionType", "ET_OK"⟩

/-- `ResponseUserRegister` of `cs_dir.pb` -/
def responseUserRegister : PbcMessage where
  fields := [exceptionField]
  distinct := by decide

/-- `ResponseLogin` of `cs_world.pb` -/
def responseLogin : PbcMessage where
  fields := [exceptionField, ⟨2, "token", .string, .required, "", ""⟩]
  distinct := by decide

/-- `ResponseCreatePlayer` of `cs_world.pb` -/
def responseCreatePlayer : PbcMessage where
  fields := [exceptionField]
  distinct := by decide

/-- The types that the client has registered, as far as it receives messages of them. -/
def types : PbcTypes where
  enums := (pbs.foldl (fun p file => (p.register [file]).1) PbcEnv.new).enums
  msgs
    | "Data_WorldInfo" => some dataWorldInfo
    | "ResponseWorldList" => some responseWorldList
    | "ResponseUserRegister" => some responseUserRegister
    | "ResponseLogin" => some responseLogin
    | "ResponseCreatePlayer" => some responseCreatePlayer
    | _ => none

end Proto

/-! ## Reading a field without its default -/

variable {types : PbcTypes} {h : LuaHeap}

/-- `optionalNoDefault` returns what the values of the field are in the bytes of the message, and
nil if there is none, and leaves all messages as they are. -/
def ReadsWire (types : PbcTypes) (h : LuaHeap) (msg : ℕ) (cs : List (Field × PbcValue))
    (field : String) : Prop :=
  ∃ fv, optionalNoDefault types h msg field = some (h, fv) ∧ ShowsField h (valuesOf cs field) fv

theorem readsWire_iff {msg : ℕ} {t : MessageTable} (ht : h[msg]? = some t)
    (cs : List (Field × PbcValue)) (field : String) :
    ReadsWire types h msg cs field ↔ ShowsField h (valuesOf cs field) (t.fields field) := by
  unfold ReadsWire
  rw [optionalNoDefault_eq ht]
  constructor
  · rintro ⟨fv, hfv, hshows⟩
    cases hfv
    exact hshows
  · exact fun hshows => ⟨_, rfl, hshows⟩

/-- Nil shows that there is no value. -/
theorem showsField_nil_iff (cs : List (Field × PbcValue)) : ShowsField h cs .nil ↔ cs = [] := by
  unfold ShowsField
  split
  next hnone => simp [List.getLast?_eq_none_iff.1 hnone]
  next c hc =>
    have hne : cs ≠ [] := by
      rintro rfl
      simp at hc
    refine iff_of_false ?_ hne
    split_ifs
    · rintro ⟨items, hitems, -⟩
      cases hitems
    · rintro ⟨v, hv, hshows⟩
      exact hshows.ne_nil (FieldValue.one.inj hv).symm

theorem known_nil : Known [] := trivial

/-- **What `optionalNoDefault` reads.**  In every run of decoding and accesses it returns what is
in the bytes of a message exactly if the field is absent from them, or the message is not as it
was made any more (it comes from `decode`, or there was an ordinary access to it) and no value of
the field is a number that has no name. -/
theorem optionalNoDefault_iff {ops : List MessageOp}
    (hrun : run (LuaHeap.step types) [] ops = some h) {msg : ℕ} {t : MessageTable}
    (ht : h[msg]? = some t) {cs : List (Field × PbcValue)} {ok : Bool}
    (hdecode : pbcDecode types t.typeName t.buffer = .ok (cs, ok)) (field : String) :
    ReadsWire types h msg cs field ↔
      valuesOf cs field = [] ∨
        ((t.nested = false ∨ ∃ op ∈ ops, op.Accesses msg) ∧ Known (valuesOf cs field)) := by
  rw [readsWire_iff ht, ← (pending_eq_false_iff hrun).2 msg t ht]
  obtain hfresh | ⟨hpending, cs', ok', hdecode', hstored⟩ := sound_of_run hrun msg t ht
  · rw [hfresh.fields, showsField_nil_iff]
    simp [hfresh.pending]
  · obtain ⟨rfl, -⟩ := Prod.mk.inj (Opened.ok.inj (hdecode.symm.trans hdecode'))
    rw [(hstored field).showsField_iff]
    constructor
    · exact fun hknown => .inr ⟨hpending, hknown⟩
    · rintro (hnil | ⟨-, hknown⟩)
      · rw [hnil]
        exact known_nil
      · exact hknown

/-- A world list with one entry whose host is `abc`. -/
def worldListOfAbc : Bytes := [0x0a, 5, 0x0a, 3, 97, 98, 99]

/-- The entry, after its port has been read. -/
theorem optionalNoDefault_after_access :
    ∃ h cs, run (LuaHeap.step Proto.types) []
        [.decode "ResponseWorldList" worldListOfAbc, .access 1 "port"] = some h ∧
      valuesOf cs "host" = [(⟨1, "host", .string, .required, "", ""⟩, .s [97, 98, 99])] ∧
      ReadsWire Proto.types h 1 cs "host" := by
  have hrun : ∃ h, run (LuaHeap.step Proto.types) []
      [.decode "ResponseWorldList" worldListOfAbc, .access 1 "port"] = some h ∧
      h[1]?.map (fun t => (t.typeName, t.buffer)) =
        some ("Data_WorldInfo", [0x0a, 3, 97, 98, 99]) :=
    exists_run_of_any (by decide +kernel)
  obtain ⟨h, hrun, hentry⟩ := hrun
  obtain ⟨t, ht, hkey⟩ := Option.map_eq_some_iff.1 hentry
  obtain ⟨htype, hbuffer⟩ := Prod.mk.inj hkey
  have hdecode : pbcDecode Proto.types t.typeName t.buffer =
      .ok ([(⟨1, "host", .string, .required, "", ""⟩, .s [97, 98, 99])], true) := by
    rw [htype, hbuffer]
    decide +kernel
  refine ⟨h, _, hrun, by decide +kernel, (optionalNoDefault_iff hrun ht hdecode "host").2 (.inr ?_)⟩
  exact ⟨.inr ⟨.access 1 "port", by simp, "port", rfl⟩, by simp [Known, valuesOf, Field.isRepeated,
    PbcValue.unknown]⟩

/-- The entry of the world list has a host, and `optionalNoDefault` returns nil for it. -/
theorem optionalNoDefault_misses_host :
    ∃ h cs, run (LuaHeap.step Proto.types) []
        [.decode "ResponseWorldList" worldListOfAbc] = some h ∧
      pbcDecode Proto.types "Data_WorldInfo" [0x0a, 3, 97, 98, 99] = .ok (cs, true) ∧
      h[1]?.map (fun t => (t.typeName, t.buffer)) = some ("Data_WorldInfo", [0x0a, 3, 97, 98, 99]) ∧
      valuesOf cs "host" = [(⟨1, "host", .string, .required, "", ""⟩, .s [97, 98, 99])] ∧
      (optionalNoDefault Proto.types h 1 "host").map Prod.snd = some .nil ∧
      ¬ ReadsWire Proto.types h 1 cs "host" := by
  have hrun : ∃ h, run (LuaHeap.step Proto.types) []
      [.decode "ResponseWorldList" worldListOfAbc] = some h ∧
      (h[1]?.map (fun t => (t.typeName, t.buffer)) =
          some ("Data_WorldInfo", [0x0a, 3, 97, 98, 99]) ∧
        (optionalNoDefault Proto.types h 1 "host").map Prod.snd = some .nil) :=
    exists_run_of_any (by decide +kernel)
  obtain ⟨h, hrun, hentry, hnil⟩ := hrun
  refine ⟨h, [(⟨1, "host", .string, .required, "", ""⟩, .s [97, 98, 99])], hrun, by decide +kernel,
    hentry, by decide +kernel, hnil, ?_⟩
  rintro ⟨fv, hfv, hshows⟩
  rw [hfv] at hnil
  cases hnil
  have hempty := (showsField_nil_iff _).1 hshows
  simp [valuesOf] at hempty

end SockTestProgram
