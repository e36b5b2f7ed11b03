import Mathlib.Data.Int.Notation
import SockTestProgram.Interop.LuaBuffer

/-!
# The Lua stack

The functions of the C API of Lua 5.1 that the host program calls, with their effect on the stack.
A call that the API forbids (an index that is no slot, a call or a pop of more values than there
are) is `none`.  `ν` is the type of Lua numbers; functions and other objects are references.
-/

namespace SockTestProgram

inductive LuaValue (ν : Type)
  | nil
  | boolean (b : Bool)
  | number (n : ν)
  | string (s : List UInt8)
  | function (ref : ℕ)
  | table (ref : ℕ)
  | userdata (ref : ℕ)
  | thread (ref : ℕ)
  deriving DecidableEq, Repr

def LuaValue.isFunction {ν : Type} : LuaValue ν → Bool
  | .function _ => true
  | _ => false

structure LuaState (ν : Type) where
  /-- The stack of the running C function, the top first. -/
  stack : List (LuaValue ν)
  globals : String → LuaValue ν
  /-- The slots given to `lua_pcall` as error functions so far, with what is in them. -/
  errfuncs : List (ℕ × LuaValue ν)

/-- What a protected call comes to. -/
inductive Protected (ν : Type)
  | returned (results : List (LuaValue ν)) (globals : String → LuaValue ν)
  | failed (error : LuaValue ν) (globals : String → LuaValue ν)

/-- What `luaL_loadfile` comes to. -/
inductive Loaded
  | chunk (ref : ℕ)
  | failed (message : List UInt8)
  deriving DecidableEq, Repr

namespace LuaState

variable {ν : Type}

def gettop (L : LuaState ν) : ℕ := L.stack.length

def push (L : LuaState ν) (v : LuaValue ν) : LuaState ν := { L with stack := v :: L.stack }

def getglobal (L : LuaState ν) (name : String) : LuaState ν := L.push (L.globals name)

def pop (L : LuaState ν) (n : ℕ) : Option (LuaState ν) :=
  if n ≤ L.gettop then some { L with stack := L.stack.drop n } else none

/-- `lua_isfunction(L, -1)` -/
def topIsFunction (L : LuaState ν) : Bool := L.stack.head?.any LuaValue.isFunction

/-- The slot of an index, counted from 1 at the bottom; negative indices count from the top. -/
def slot (L : LuaState ν) (index : ℤ) : Option ℕ :=
  if 0 < index ∧ index ≤ L.gettop then some index.toNat
  else if index < 0 ∧ 0 < L.gettop + 1 + index then some (L.gettop + 1 + index).toNat
  else none

/-- What is in a slot. -/
def valueAt (L : LuaState ν) (slot : ℕ) : LuaValue ν := (L.stack.reverse[slot - 1]?).getD .nil

/-- `lua_pcall(L, nargs, nresults, errfunc)` with an error function: it replaces the function and
its arguments by the results, or by one error value.  The flag tells that it failed. -/
def pcall (L : LuaState ν) (nargs nresults : ℕ) (errfunc : ℤ) (p : Protected ν) :
    Option (Bool × LuaState ν) :=
  if nargs + 1 ≤ L.gettop then
    match L.slot errfunc with
    | some slot =>
      let below := L.stack.drop (nargs + 1)
      let errfuncs := L.errfuncs ++ [(slot, L.valueAt slot)]
      match p with
      | .returned results globals =>
        some (false, ⟨(results.takeD nresults .nil).reverse ++ below, globals, errfuncs⟩)
      | .failed error globals => some (true, ⟨error :: below, globals, errfuncs⟩)
    | none => none
  else none

/-- `luaL_loadfile` -/
def loadfile (L : LuaState ν) : Loaded → LuaState ν
  | .chunk ref => L.push (.function ref)
  | .failed message => L.push (.string message)

/-- The stack when a `luaL_Buffer` is closed by `luaL_pushresult`: the strings that the buffer had
pushed are replaced by one. -/
def pushresult (L : LuaState ν) (b : LuaBuffer) : LuaState ν :=
  let pieces := b.emptybuffer.2.pieces
  { L with stack := (LuaBuffer.concat pieces pieces.length).map .string ++ L.stack }

/-- `luaL_pushresult` leaves one string, however many the buffer had pushed. -/
theorem pushresult_eq (L : LuaState ν) (b : LuaBuffer) :
    L.pushresult b = L.push (.string b.pushresult) := by
  simp [pushresult, push, LuaBuffer.pushresult, LuaBuffer.concat]

end LuaState

end SockTestProgram
