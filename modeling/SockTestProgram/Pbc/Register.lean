import Mathlib.Data.Int.Notation
import Mathlib.Data.List.Basic
import Mathlib.Logic.Function.Basic
import SockTestProgram.Lib.Memo

/-!
# Registration of descriptors

`pbc_register` and what it enters in the table of enumerations of an environment.  A descriptor is
given as what `pbc_rmessage` reads of a `FileDescriptorSet`: here the names of a file and of the
files it depends on, and its messages with their enumerations.  An enumeration, once entered, stays
as it is (`extends_register`).
-/

open Memo

namespace SockTestProgram

/-- An enumeration (`struct _enum`): its enumerators with their numbers. -/
structure PbcEnum where
  values : List (String × ℤ)
  deriving DecidableEq, Repr

namespace PbcEnum

/-- `_pbcM_si_query` on `name` -/
def number (e : PbcEnum) (name : String) : Option ℤ :=
  (e.values.find? (·.1 = name)).map Prod.snd

/-- `_pbcM_ip_query` on `id` -/
def name (e : PbcEnum) (number : ℤ) : Option String :=
  (e.values.find? (·.2 = number)).map Prod.fst

end PbcEnum

/-- `EnumDescriptorProto` -/
structure EnumDescriptor where
  name : String
  value : List (String × ℤ)
  deriving DecidableEq, Repr

/-- `DescriptorProto` -/
inductive MessageDescriptor
  | mk (name : String) (enumType : List EnumDescriptor) (nestedType : List MessageDescriptor)
  deriving Repr

/-- `FileDescriptorProto` -/
structure FileDescriptor where
  name : String
  package : String
  dependency : List String
  enumType : List EnumDescriptor
  messageType : List MessageDescriptor
  deriving Repr

/-- An environment (`struct pbc_env`). -/
structure PbcEnv where
  files : List String
  enums : String → Option PbcEnum

/-- `_concat_name` -/
def concatName (scope name : String) : String :=
  if scope.isEmpty then name else scope ++ "." ++ name

namespace PbcEnv

/-- `_pbcP_push_enum`: a name that is taken is left alone. -/
def pushEnum (p : PbcEnv) (name : String) (table : List (String × ℤ)) : PbcEnv :=
  match p.enums name with
  | some _ => p
  | none => { p with enums := Function.update p.enums name (some ⟨table⟩) }

/-- `pbc_new`: the enumerations of the descriptors themselves. -/
def new : PbcEnv :=
  (((({ files := ["descriptor"], enums := fun _ => none } : PbcEnv).pushEnum
    "google.protobuf.FieldDescriptorProto.Type"
    [("TYPE_DOUBLE", 1), ("TYPE_FLOAT", 2), ("TYPE_INT64", 3), ("TYPE_UINT64", 4),
      ("TYPE_INT32", 5), ("TYPE_FIXED64", 6), ("TYPE_FIXED32", 7), ("TYPE_BOOL", 8),
      ("TYPE_STRING", 9), ("TYPE_GROUP", 10), ("TYPE_MESSAGE", 11), ("TYPE_BYTES", 12),
      ("TYPE_UINT32", 13), ("TYPE_ENUM", 14), ("TYPE_SFIXED32", 15), ("TYPE_SFIXED64", 16),
      ("TYPE_SINT32", 17), ("TYPE_SINT64", 18)]).pushEnum
    "google.protobuf.FieldDescriptorProto.Label"
    [("LABEL_OPTIONAL", 1), ("LABEL_REQUIRED", 2), ("LABEL_REPEATED", 3)]).pushEnum
    "google.protobuf.FileOptions.OptimizeMode"
    [("SPEED", 1), ("CODE_SIZE", 2), ("LITE_RUNTIME", 3)]).pushEnum
    "google.protobuf.FieldOptions.CType" [("STRING", 0), ("CORD", 1), ("STRING_PIECE", 2)]

/-- `_register_enum` -/
def registerEnum (scope : String) (p : PbcEnv) (enumType : EnumDescriptor) : PbcEnv :=
  p.pushEnum (concatName scope enumType.name) enumType.value

mutual

/-- `_register_message` -/
def registerMessage (scope : String) (p : PbcEnv) : MessageDescriptor → PbcEnv
  | .mk name enumType nestedType =>
    let temp := concatName scope name
    registerMessages temp (enumType.foldl (registerEnum temp) p) nestedType

def registerMessages (scope : String) (p : PbcEnv) : List MessageDescriptor → PbcEnv
  | [] => p
  | m :: ms => registerMessages scope (registerMessage scope p m) ms

end

/-- `_register` -/
def registerFile (p : PbcEnv) (file : FileDescriptor) : PbcEnv :=
  registerMessages file.package (file.enumType.foldl (registerEnum file.package) p) file.messageType

/-- `CHECK_FILE_OK`, `CHECK_FILE_EXIST`, `CHECK_FILE_DEPENDENCY` -/
inductive FileCheck
  | ok
  | exist
  | dependency
  deriving DecidableEq, Repr

/-- `_check_file_name` -/
def checkFileName (p : PbcEnv) (file : FileDescriptor) : FileCheck :=
  if file.name ∈ p.files then .exist
  else if file.dependency.all (· ∈ p.files) then .ok
  else .dependency

/-- `_register_no_dependency`, with the files whose dependencies are missing.  A file that exists
already is found to exist in every later pass too, so it need not be kept. -/
def registerNoDependency (p : PbcEnv) : List FileDescriptor → PbcEnv × List FileDescriptor
  | [] => (p, [])
  | file :: files =>
    match p.checkFileName file with
    | .exist => registerNoDependency p files
    | .dependency =>
      ((registerNoDependency p files).1, file :: (registerNoDependency p files).2)
    | .ok => registerNoDependency ({ p with files := file.name :: p.files }.registerFile file) files

/-- The loop of `pbc_register`, whose passes are at most as many as there are files. -/
def registerLoop : ℕ → PbcEnv → List FileDescriptor → PbcEnv × Bool
  | 0, p, _ => (p, false)
  | budget + 1, p, files =>
    let rr := p.registerNoDependency files
    if rr.2.length = files.length then (rr.1, false)
    else if 0 < rr.2.length then registerLoop budget rr.1 rr.2
    else (rr.1, true)

/-- `pbc_register`; the flag tells that all went well. -/
def register (p : PbcEnv) (files : List FileDescriptor) : PbcEnv × Bool :=
  registerLoop files.length p files

/-- The number of an enumerator, if it is registered. -/
def enumerator (p : PbcEnv) (key name : String) : Option ℤ :=
  (p.enums key).bind fun e => e.number name

/-- `pbc_get_enum_value` -/
def getEnumValue (p : PbcEnv) (key name : String) : ℤ :=
  match p.enums key with
  | none => -1
  | some e =>
    match e.number name with
    | none => -1
    | some enumId => enumId

theorem getEnumValue_eq (p : PbcEnv) (key name : String) :
    p.getEnumValue key name = (p.enumerator key name).getD (-1) := by
  unfold getEnumValue enumerator
  cases p.enums key with
  | none => rfl
  | some e =>
    show _ = (e.number name).getD (-1)
    cases h : e.number name <;> simp [h]

/-! ## Enumerations stay -/

theorem extends_pushEnum (p : PbcEnv) (name : String) (table : List (String × ℤ)) :
    Extends p.enums (p.pushEnum name table).enums := by
  intro key e he
  unfold pushEnum
  cases hname : p.enums name with
  | some e' => exact he
  | none =>
    show Function.update p.enums name _ key = some e
    rw [Function.update_of_ne, he]
    rintro rfl
    exact absurd he (by simp [hname])

theorem extends_foldl_registerEnum (scope : String) (enumType : List EnumDescriptor) (p : PbcEnv) :
    Extends p.enums (enumType.foldl (registerEnum scope) p).enums := by
  induction enumType generalizing p with
  | nil => exact .refl _
  | cons e enumType ih =>
    apply (extends_pushEnum p (concatName scope e.name) e.value).trans
    exact ih _

mutual

theorem extends_registerMessage (scope : String) (p : PbcEnv) :
    ∀ m : MessageDescriptor, Extends p.enums (registerMessage scope p m).enums
  | .mk name enumType nestedType => by
    rw [registerMessage]
    apply (extends_foldl_registerEnum (concatName scope name) enumType p).trans
    exact extends_registerMessages _ _ nestedType

theorem extends_registerMessages (scope : String) (p : PbcEnv) :
    ∀ ms : List MessageDescriptor, Extends p.enums (registerMessages scope p ms).enums
  | [] => by
    rw [registerMessages]
    exact .refl _
  | m :: ms => by
    rw [registerMessages]
    apply (extends_registerMessage scope p m).trans
    exact extends_registerMessages scope _ ms

end

theorem extends_registerFile (p : PbcEnv) (file : FileDescriptor) :
    Extends p.enums (p.registerFile file).enums := by
  apply (extends_foldl_registerEnum file.package file.enumType p).trans
  exact extends_registerMessages _ _ _

theorem extends_registerNoDependency (p : PbcEnv) (files : List FileDescriptor) :
    Extends p.enums (p.registerNoDependency files).1.enums := by
  induction files generalizing p with
  | nil => exact .refl _
  | cons file files ih =>
    rw [registerNoDependency]
    cases p.checkFileName file with
    | exist => exact ih p
    | dependency => exact ih p
    | ok => exact (extends_registerFile { p with files := file.name :: p.files } file).trans (ih _)

theorem extends_registerLoop (budget : ℕ) (p : PbcEnv) (files : List FileDescriptor) :
    Extends p.enums (registerLoop budget p files).1.enums := by
  induction budget generalizing p files with
  | zero => exact .refl _
  | succ budget ih =>
    have hpass := extends_registerNoDependency p files
    rw [registerLoop]
    split_ifs
    · exact hpass
    · exact hpass.trans (ih _ _)
    · exact hpass

theorem extends_register (p : PbcEnv) (files : List FileDescriptor) :
    Extends p.enums (p.register files).1.enums :=
  extends_registerLoop _ p files

/-- A registered enumerator keeps its number. -/
theorem enumerator_register (p : PbcEnv) (files : List FileDescriptor) {key name : String} {id : ℤ}
    (h : p.enumerator key name = some id) : (p.register files).1.enumerator key name = some id := by
  obtain ⟨e, he, hid⟩ := Option.bind_eq_some_iff.1 h
  exact Option.bind_eq_some_iff.2 ⟨e, extends_register p files key e he, hid⟩

end PbcEnv

end SockTestProgram
