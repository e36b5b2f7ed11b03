import SockTestProgram.Lib.Memory

/-!
# `luaL_Buffer`

The string buffer of `lauxlib.c`: a block of `LUAL_BUFFERSIZE` bytes, and the strings that it pushed
on the Lua stack when the block was full.  `content` is the string that is being built; only
`addBlock` changes it.
-/

open Memory

namespace SockTestProgram

/-- The constants of `luaconf.h` and `lua.h` that the buffer depends on. -/
structure LuaConf where
  LUAL_BUFFERSIZE : ℕ
  LUA_MINSTACK : ℕ
  pos : 0 < LUAL_BUFFERSIZE

structure LuaBuffer where
  /-- The bytes of the block before `p`. -/
  buffer : List UInt8
  /-- The `lvl` strings on the stack, the top of the stack first. -/
  pieces : List (List UInt8)
  deriving DecidableEq, Repr

namespace LuaBuffer

/-- `luaL_buffinit` -/
def buffinit : LuaBuffer := ⟨[], []⟩

def emptybuffer (b : LuaBuffer) : Bool × LuaBuffer :=
  if b.buffer.length = 0 then (false, b) else (true, ⟨[], b.buffer :: b.pieces⟩)

/-- `lua_concat(L, n)` on the strings of the buffer. -/
def concat (pieces : List (List UInt8)) (n : ℕ) : List (List UInt8) :=
  (pieces.take n).reverse.flatten :: pieces.drop n

/-- The loop of `adjuststack`: how many strings to concatenate, `rest` being those below the ones
counted so far. -/
def adjustLoop (LIMIT lvl : ℕ) : List (List UInt8) → ℕ → ℕ → ℕ
  | [], toget, _ => toget
  | piece :: rest, toget, toplen =>
    if LIMIT ≤ lvl - toget + 1 ∨ piece.length < toplen then
      adjustLoop LIMIT lvl rest (toget + 1) (toplen + piece.length)
    else toget

def adjuststack (conf : LuaConf) (b : LuaBuffer) : LuaBuffer :=
  match b.pieces with
  | top :: next :: rest =>
    let toget := adjustLoop (conf.LUA_MINSTACK / 2) b.pieces.length (next :: rest) 1 top.length
    { b with pieces := concat b.pieces toget }
  | _ => b

/-- `luaL_prepbuffer`; the pointer it returns is the start of the block. -/
def prepbuffer (conf : LuaConf) (b : LuaBuffer) : LuaBuffer :=
  let (pushed, b') := b.emptybuffer
  if pushed then b'.adjuststack conf else b'

/-- `memcpy` to the pointer that `luaL_prepbuffer` returned, and `luaL_addsize`. -/
def addBlock (b : LuaBuffer) (data : List UInt8) : LuaBuffer := { b with buffer := data }

/-- The string that `luaL_pushresult` leaves on the stack. -/
def pushresult (b : LuaBuffer) : List UInt8 :=
  let pieces := b.emptybuffer.2.pieces
  (concat pieces pieces.length).headD []

/-! ## The string that is being built -/

def content (b : LuaBuffer) : List UInt8 := b.pieces.reverse.flatten ++ b.buffer

theorem emptybuffer_spec (b : LuaBuffer) :
    b.emptybuffer.2.content = b.content ∧ b.emptybuffer.2.buffer = [] := by
  unfold emptybuffer
  split_ifs with h
  · exact ⟨rfl, List.length_eq_zero_iff.1 h⟩
  · simp [content]

theorem concat_spec (pieces : List (List UInt8)) (n : ℕ) :
    (concat pieces n).reverse.flatten = pieces.reverse.flatten := by
  have h : pieces.reverse.flatten = (pieces.drop n).reverse.flatten ++
      (pieces.take n).reverse.flatten := by
    rw [← List.flatten_append, ← List.reverse_append, List.take_append_drop]
  rw [h, concat, List.reverse_cons, List.flatten_append, List.flatten_singleton]

theorem adjuststack_spec (conf : LuaConf) (b : LuaBuffer) :
    (b.adjuststack conf).content = b.content ∧ (b.adjuststack conf).buffer = b.buffer := by
  unfold adjuststack
  split
  · simp only [content, concat_spec, and_self]
  · exact ⟨rfl, rfl⟩

/-- `luaL_prepbuffer` makes the block empty and keeps the string. -/
theorem prepbuffer_spec (conf : LuaConf) (b : LuaBuffer) :
    (b.prepbuffer conf).content = b.content ∧ (b.prepbuffer conf).buffer = [] := by
  obtain ⟨hcontent, hbuffer⟩ := b.emptybuffer_spec
  simp only [prepbuffer]
  split_ifs
  · obtain ⟨hc, hb⟩ := b.emptybuffer.2.adjuststack_spec conf
    exact ⟨hc.trans hcontent, hb.trans hbuffer⟩
  · exact ⟨hcontent, hbuffer⟩

theorem content_addBlock {b : LuaBuffer} (h : b.buffer = []) (data : List UInt8) :
    (b.addBlock data).content = b.content ++ data := by
  simp [content, addBlock, h]

theorem pushresult_eq (b : LuaBuffer) : b.pushresult = b.content := by
  obtain ⟨hcontent, hbuffer⟩ := b.emptybuffer_spec
  rw [← hcontent]
  simp [pushresult, concat, content, hbuffer]

end LuaBuffer

end SockTestProgram
