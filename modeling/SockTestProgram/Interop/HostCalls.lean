import SockTestProgram.Interop.LuaStack
import SockTestProgram.Interop.Notification

/-!
# The stack of the calls into Lua

The four functions through which the host program calls Lua, as sequences of calls of the C API.
Each pushes the traceback function, the function and its arguments, calls it protected and pops what
is left.  `L_onServerConnectionEstablished` pops one value where an error has left two
(`balanced_iff`).

`_GTrackBack`, the name of the traceback function, is a parameter.
-/

open Memory

namespace SockTestProgram

variable {ν : Type}

variable (gTrackBack : String)

namespace LuaState

def lOnDecodeBuffer [IntCast ν] (H : Heap UInt8) (conf : LuaConf) (L : LuaState ν)
    (typecode : BitVec 32) (buffer : Bytes) (bufferSize : ℕ) (p : Protected ν) :
    Option (LuaState ν) := do
  let L := L.getglobal gTrackBack
  guard L.topIsFunction
  let L := L.getglobal "redirectNetBuffer"
  guard L.topIsFunction
  let L := L.push (.number typecode.toInt)
  let L := L.pushresult
    (copyLoop H conf buffer .buffinit conf.LUAL_BUFFERSIZE conf.pos 0 bufferSize)
  let (res, L) ← L.pcall 2 0 (-4) p
  let L ← if res then L.pop 1 else some L
  L.pop 1

def lOnServerConnectionEstablished (L : LuaState ν) (serverID : Bytes) (p : Protected ν) :
    Option (LuaState ν) := do
  let L := L.getglobal gTrackBack
  guard L.topIsFunction
  let L := L.getglobal "serverConnectOn"
  guard L.topIsFunction
  let L := L.push (.string serverID)
  let (_, L) ← L.pcall 1 0 (-3) p
  L.pop 1

def frameUpdate (L : LuaState ν) (dt : ν) (p : Protected ν) : Option (LuaState ν) := do
  let L := L.getglobal gTrackBack
  guard L.topIsFunction
  let L := L.getglobal "frameUpdate"
  guard L.topIsFunction
  let L := L.push (.number dt)
  let (res, L) ← L.pcall 1 0 (-3) p
  if res then L.pop 2 else L.pop 1

def loadInit (L : LuaState ν) (loaded : Loaded) (p : Protected ν) : Option (LuaState ν) := do
  let L := L.getglobal gTrackBack
  guard L.topIsFunction
  let L := L.loadfile loaded
  if L.topIsFunction then
    let (res, L) ← L.pcall 0 0 (-2) p
    let L ← if res then L.pop 1 else some L
    L.pop 1
  else L.pop 2

end LuaState

/-- A call of the host into Lua, with what the protected call in it comes to. -/
inductive HostCall (ν : Type)
  | onDecodeBuffer (typecode : BitVec 32) (buffer : Bytes) (bufferSize : ℕ) (p : Protected ν)
  | onServerConnectionEstablished (serverID : Bytes) (p : Protected ν)
  | frameUpdate (dt : ν) (p : Protected ν)
  | loadInit (loaded : Loaded) (p : Protected ν)

namespace Protected

def fails : Protected ν → Bool
  | .returned _ _ => false
  | .failed _ _ => true

/-- What a protected call without results leaves on the stack. -/
def left : Protected ν → List (LuaValue ν)
  | .returned _ _ => []
  | .failed error _ => [error]

def globals : Protected ν → String → LuaValue ν
  | .returned _ globals => globals
  | .failed _ globals => globals

end Protected

namespace HostCall

def run [IntCast ν] (H : Heap UInt8) (conf : LuaConf) (L : LuaState ν) :
    HostCall ν → Option (LuaState ν)
  | .onDecodeBuffer typecode buffer bufferSize p =>
    L.lOnDecodeBuffer gTrackBack H conf typecode buffer bufferSize p
  | .onServerConnectionEstablished serverID p =>
    L.lOnServerConnectionEstablished gTrackBack serverID p
  | .frameUpdate dt p => L.frameUpdate gTrackBack dt p
  | .loadInit loaded p => L.loadInit gTrackBack loaded p

/-- The globals that the call asserts to be functions. -/
def functions : HostCall ν → List String
  | .onDecodeBuffer _ _ _ _ => [gTrackBack, "redirectNetBuffer"]
  | .onServerConnectionEstablished _ _ => [gTrackBack, "serverConnectOn"]
  | .frameUpdate _ _ => [gTrackBack, "frameUpdate"]
  | .loadInit _ _ => [gTrackBack]

/-- The call returns with the stack as it was, and the error function of every protected call in
it is the traceback function in the slot where it was pushed. -/
def Balanced [IntCast ν] (H : Heap UInt8) (conf : LuaConf) (L : LuaState ν)
    (c : HostCall ν) : Prop :=
  ∃ L', c.run gTrackBack H conf L = some L' ∧ L'.stack = L.stack ∧
    ∃ n, L'.errfuncs = L.errfuncs ++ List.replicate n (L.gettop + 1, L.globals gTrackBack)

/-- It is not a call of `serverConnectOn` that fails. -/
def ConnectReturns : HostCall ν → Prop
  | .onServerConnectionEstablished _ p => p.fails = false
  | _ => True

end HostCall

namespace LuaState

variable {L : LuaState ν}

theorem gettop_mk (S : List (LuaValue ν)) (g : String → LuaValue ν) (e : List (ℕ × LuaValue ν)) :
    (⟨S, g, e⟩ : LuaState ν).gettop = S.length := rfl

/-- A protected call with `nargs` arguments whose error function lies below the function. -/
theorem pcall_eq (args S : List (LuaValue ν)) (f handler : LuaValue ν) (g : String → LuaValue ν)
    (e : List (ℕ × LuaValue ν)) (p : Protected ν) {errfunc : ℤ}
    (herr : errfunc = -(args.length + 2)) :
    (⟨args ++ f :: handler :: S, g, e⟩ : LuaState ν).pcall args.length 0 errfunc p =
      some (p.fails, ⟨p.left ++ handler :: S, p.globals, e ++ [(S.length + 1, handler)]⟩) := by
  have hlen : (args ++ f :: handler :: S).length = args.length + 2 + S.length := by
    simp only [List.length_append, List.length_cons]
    omega
  have hslot : (⟨args ++ f :: handler :: S, g, e⟩ : LuaState ν).slot errfunc =
      some (S.length + 1) := by
    rw [slot, gettop_mk, hlen, if_neg (by omega), if_pos (by omega)]
    congr 1
    omega
  have hvalue : (⟨args ++ f :: handler :: S, g, e⟩ : LuaState ν).valueAt (S.length + 1) =
      handler := by
    simp [valueAt]
  have hdrop : (args ++ f :: handler :: S).drop (args.length + 1) = handler :: S := by
    simp [List.drop_append]
  unfold pcall
  rw [if_pos (by rw [gettop_mk, hlen]; omega), hslot]
  simp only [hvalue]
  cases p <;> simp [Protected.fails, Protected.left, Protected.globals, hdrop]

section

variable (S : List (LuaValue ν)) (a b f handler : LuaValue ν) (g : String → LuaValue ν)
  (e : List (ℕ × LuaValue ν)) (p : Protected ν)

theorem pcall_zero : (⟨f :: handler :: S, g, e⟩ : LuaState ν).pcall 0 0 (-2) p =
    some (p.fails, ⟨p.left ++ handler :: S, p.globals, e ++ [(S.length + 1, handler)]⟩) :=
  pcall_eq [] S f handler g e p rfl

theorem pcall_one : (⟨a :: f :: handler :: S, g, e⟩ : LuaState ν).pcall 1 0 (-3) p =
    some (p.fails, ⟨p.left ++ handler :: S, p.globals, e ++ [(S.length + 1, handler)]⟩) :=
  pcall_eq [a] S f handler g e p rfl

theorem pcall_two : (⟨a :: b :: f :: handler :: S, g, e⟩ : LuaState ν).pcall 2 0 (-4) p =
    some (p.fails, ⟨p.left ++ handler :: S, p.globals, e ++ [(S.length + 1, handler)]⟩) :=
  pcall_eq [a, b] S f handler g e p rfl

end

/-- The state after a balanced call. -/
def balanced (L : LuaState ν) (p : Protected ν) : LuaState ν :=
  ⟨L.stack, p.globals, L.errfuncs ++ [(L.gettop + 1, L.globals gTrackBack)]⟩

theorem lOnDecodeBuffer_eq [IntCast ν] (H : Heap UInt8) (conf : LuaConf) (typecode : BitVec 32)
    (buffer : Bytes) (bufferSize : ℕ) (p : Protected ν)
    (htb : (L.globals gTrackBack).isFunction = true)
    (hf : (L.globals "redirectNetBuffer").isFunction = true) :
    L.lOnDecodeBuffer gTrackBack H conf typecode buffer bufferSize p =
      some (L.balanced gTrackBack p) := by
  simp only [lOnDecodeBuffer, pushresult_eq]
  simp only [getglobal, push, topIsFunction, List.head?_cons, Option.any_some, htb, hf, guard_true,
    pcall_two]
  cases p <;> rfl

/-- An error value is popped in place of the traceback function. -/
theorem lOnServerConnectionEstablished_eq (serverID : Bytes) (p : Protected ν)
    (htb : (L.globals gTrackBack).isFunction = true)
    (hf : (L.globals "serverConnectOn").isFunction = true) :
    L.lOnServerConnectionEstablished gTrackBack serverID p =
      some
        (if p.fails then (L.balanced gTrackBack p).push
          (L.globals gTrackBack) else L.balanced gTrackBack p) := by
  simp only [lOnServerConnectionEstablished]
  simp only [getglobal, push, topIsFunction, List.head?_cons, Option.any_some, htb, hf, guard_true,
    pcall_one]
  cases p <;> rfl

theorem frameUpdate_eq (dt : ν) (p : Protected ν) (htb : (L.globals gTrackBack).isFunction = true)
    (hf : (L.globals "frameUpdate").isFunction = true) :
    L.frameUpdate gTrackBack dt p = some (L.balanced gTrackBack p) := by
  simp only [frameUpdate]
  simp only [getglobal, push, topIsFunction, List.head?_cons, Option.any_some, htb, hf, guard_true,
    pcall_one]
  cases p <;> rfl

theorem loadInit_eq (loaded : Loaded) (p : Protected ν)
    (htb : (L.globals gTrackBack).isFunction = true) :
    L.loadInit gTrackBack loaded p = some (match loaded with
      | .chunk _ => L.balanced gTrackBack p
      | .failed _ => L) := by
  simp only [loadInit]
  cases loaded with
  | chunk ref =>
    simp only [getglobal, loadfile, push, topIsFunction, List.head?_cons, Option.any_some, htb,
      guard_true, pcall_zero]
    cases p <;> rfl
  | failed message =>
    simp only [getglobal, loadfile, push, topIsFunction, List.head?_cons, Option.any_some, htb,
      guard_true]
    rfl

end LuaState

namespace HostCall

variable [IntCast ν] {L : LuaState ν}

theorem balanced_of_eq_some {H : Heap UInt8} {conf : LuaConf} {c : HostCall ν} {p : Protected ν}
    (h : c.run gTrackBack H conf L = some (L.balanced gTrackBack p)) :
    c.Balanced gTrackBack H conf L :=
  ⟨_, h, rfl, 1, rfl⟩

/-- **The stack is balanced.**  If the globals that it asserts to be functions are, a call of the
host into Lua leaves the stack as it was and passes the traceback function as error function,
exactly if it is not a call of `serverConnectOn` that fails. -/
theorem balanced_iff (H : Heap UInt8) (conf : LuaConf) (L : LuaState ν) (c : HostCall ν)
    (hf : ∀ name ∈ c.functions gTrackBack, (L.globals name).isFunction = true) :
    c.Balanced gTrackBack H conf L ↔ c.ConnectReturns := by
  cases c with
  | onDecodeBuffer typecode buffer bufferSize p =>
    refine iff_of_true (balanced_of_eq_some gTrackBack (p := p) ?_) trivial
    exact L.lOnDecodeBuffer_eq gTrackBack H conf typecode buffer bufferSize p
      (hf _ (by simp [functions]))
      (hf _ (by simp [functions]))
  | onServerConnectionEstablished serverID p =>
    have hrun := L.lOnServerConnectionEstablished_eq gTrackBack serverID p
      (hf _ (by simp [functions]))
      (hf _ (by simp [functions]))
    cases p with
    | returned results globals =>
      exact iff_of_true (balanced_of_eq_some gTrackBack (p := .returned results globals) hrun) rfl
    | failed error globals =>
      refine iff_of_false ?_ (by simp [ConnectReturns, Protected.fails])
      rintro ⟨L', hL', hstack, -⟩
      obtain rfl := Option.some.inj (hL'.symm.trans hrun)
      exact absurd (congrArg List.length hstack) (by simp [Protected.fails, LuaState.push,
        LuaState.balanced])
  | frameUpdate dt p =>
    refine iff_of_true (balanced_of_eq_some gTrackBack (p := p) ?_) trivial
    exact L.frameUpdate_eq gTrackBack dt p (hf _ (by simp [functions])) (hf _ (by simp [functions]))
  | loadInit loaded p =>
    have hrun := L.loadInit_eq gTrackBack loaded p (hf _ (by simp [functions]))
    refine iff_of_true ?_ trivial
    cases loaded with
    | chunk ref => exact balanced_of_eq_some gTrackBack (p := p) hrun
    | failed message => exact ⟨_, hrun, rfl, 0, by simp⟩

/-- A message of no bytes whose handling fails. -/
theorem balanced_of_failed_message :
    let L : LuaState ℤ := ⟨[.nil], fun _ => .function 0, []⟩
    (onDecodeBuffer 7 [] 0 (.failed .nil L.globals)).Balanced "traceback" (Heap.const 0) ⟨512, 20,
      by decide⟩ L :=
  (balanced_iff "traceback" (Heap.const 0) ⟨512, 20, by decide⟩ ⟨[.nil], fun _ => .function 0, []⟩
    (.onDecodeBuffer 7 [] 0 (.failed .nil fun _ => .function 0)) fun _ _ => rfl).2 trivial

/-- `serverConnectOn` fails: the traceback function stays on the stack. -/
theorem connect_error_unbalanced :
    let L : LuaState ℤ := ⟨[.nil], fun _ => .function 0, []⟩
    let c := onServerConnectionEstablished [65] (.failed (.string [101]) L.globals)
    (∀ name ∈ c.functions "traceback", (L.globals name).isFunction = true) ∧
      ¬ c.Balanced "traceback" (Heap.const 0) ⟨512, 20, by decide⟩ L ∧
      (c.run "traceback" (Heap.const 0) ⟨512, 20, by decide⟩ L).map LuaState.stack =
        some [.function 0, .nil] := by
  intro L c
  refine ⟨fun _ _ => rfl, ?_, rfl⟩
  rintro ⟨L', hL', hstack, -⟩
  have hrun : (c.run "traceback" (Heap.const 0) ⟨512, 20, by decide⟩ L).map LuaState.stack =
      some [.function 0, .nil] := rfl
  rw [hL', Option.map_some, hstack] at hrun
  exact absurd hrun (by decide)

end HostCall

end SockTestProgram
