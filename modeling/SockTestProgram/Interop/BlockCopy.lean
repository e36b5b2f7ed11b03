import SockTestProgram.Interop.HostCalls

/-!
# The copy loop

`L_onDecodeBuffer` and `loadBinaryFileForLua` copy a buffer into a Lua string with the same
`do`/`while` loop.  Here the loop runs on its own counters `n`, `rlen` and `index`, and every
`memcpy` is recorded.  It ends after at most one round per byte, copies inside the buffer and inside
the block only, and leaves the string in the `luaL_Buffer` (`copyString_exact`); it ends with the
buffer that `copyLoop` computes (`copyString_eq_copyLoop`).
-/

open Memory

namespace SockTestProgram

variable {ν : Type} {H : Heap UInt8} {conf : LuaConf} {buffer : Bytes}

/-- A call `memcpy(p, buffer + index, rlen)`. -/
structure Memcpy where
  /-- The bytes that lie between the start of the block and `p`. -/
  before : Bytes
  index : ℤ
  rlen : ℤ
  deriving DecidableEq, Repr

/-- The call reads inside the buffer and writes inside a block that is empty. -/
structure Memcpy.Inside (conf : LuaConf) (buffer : Bytes) (m : Memcpy) : Prop where
  fresh : m.before = []
  rlen_nonneg : 0 ≤ m.rlen
  rlen_le : m.rlen ≤ conf.LUAL_BUFFERSIZE
  index_nonneg : 0 ≤ m.index
  index_le : m.index + m.rlen ≤ buffer.length

/-- The variables of the loop, and the calls of `memcpy` so far. -/
structure Copying where
  b : LuaBuffer
  n : ℤ
  rlen : ℤ
  index : ℤ
  copies : List Memcpy
  deriving DecidableEq, Repr

namespace Copying

/-- Before the loop.  `LUAL_BUFFERSIZE` is an `int` constant. -/
def start (conf : LuaConf) (n : ℤ) : Copying := ⟨.buffinit, n, conf.LUAL_BUFFERSIZE, 0, []⟩

/-- One round of the loop.  A `memcpy` of a negative size is recorded, and copies nothing here. -/
def round (H : Heap UInt8) (conf : LuaConf) (buffer : Bytes) (c : Copying) : Copying :=
  let b := c.b.prepbuffer conf
  let rlen := if c.rlen > c.n then c.n else c.rlen
  { b := b.addBlock (H.load buffer c.index.toNat rlen.toNat)
    n := c.n - rlen
    rlen := rlen
    index := c.index + rlen
    copies := c.copies ++ [⟨b.buffer, c.index, rlen⟩] }

/-- The loop; `none` if it has not ended after `fuel` rounds. -/
def copyRounds (H : Heap UInt8) (conf : LuaConf) (buffer : Bytes) : ℕ → Copying → Option Copying
  | 0, _ => none
  | fuel + 1, c =>
    let c := c.round H conf buffer
    if c.n > 0 then copyRounds H conf buffer fuel c else some c

end Copying

/-- The loop over a buffer of the given size. -/
def copyString (H : Heap UInt8) (conf : LuaConf) (fuel : ℕ) (buffer : Bytes)
    (bufferSize : BitVec 32) : Option Copying :=
  Copying.copyRounds H conf buffer fuel (.start conf bufferSize.toInt)

/-- What a C function that Lua calls comes to. -/
inductive CFunction (ν : Type)
  | returned (results : ℕ) (L : LuaState ν)
  | raised (message : String)

/-- `loadBinaryFileForLua`, where `file` holds the bytes of the file if it can be opened; `none`
if the loop has not ended after `fuel` rounds. -/
def loadBinaryFileForLua (H : Heap UInt8) (conf : LuaConf) (fuel : ℕ) (pbFileName : String)
    (file : Option Bytes) (L : LuaState ν) : Option (CFunction ν) :=
  match file with
  | none => some (.raised ("Cannot open " ++ pbFileName))
  | some bytes =>
    let bufferSize := BitVec.ofNat 32 bytes.length
    let buffer := bytes.take bufferSize.toNat
    (copyString H conf fuel buffer bufferSize).map fun c => .returned 1 (L.pushresult c.b)

namespace Copying

/-- Between two rounds: `index` bytes are copied, `n` are left. -/
structure Copied (conf : LuaConf) (buffer : Bytes) (c : Copying) : Prop where
  index_nonneg : 0 ≤ c.index
  n_nonneg : 0 ≤ c.n
  sum : c.index + c.n = buffer.length
  rlen_nonneg : 0 ≤ c.rlen
  rlen_pos : 0 < c.n → 0 < c.rlen
  rlen_le : c.rlen ≤ conf.LUAL_BUFFERSIZE
  content : c.b.content = slice buffer 0 c.index.toNat
  inside : ∀ m ∈ c.copies, m.Inside conf buffer

theorem copied_start (conf : LuaConf) (buffer : Bytes) :
    Copied conf buffer (start conf buffer.length) where
  index_nonneg := le_rfl
  n_nonneg := Int.natCast_nonneg _
  sum := zero_add _
  rlen_nonneg := Int.natCast_nonneg _
  rlen_pos := fun _ => Int.natCast_pos.2 conf.pos
  rlen_le := le_rfl
  content := rfl
  inside := by simp [start]

/-- How many bytes a round copies. -/
theorem rlen_round (H : Heap UInt8) (conf : LuaConf) (buffer : Bytes) (c : Copying) :
    (c.round H conf buffer).rlen = min c.rlen c.n := by
  simp only [round]
  split_ifs <;> omega

theorem n_round (H : Heap UInt8) (conf : LuaConf) (buffer : Bytes) (c : Copying) :
    (c.round H conf buffer).n = c.n - (c.round H conf buffer).rlen := rfl

theorem index_round (H : Heap UInt8) (conf : LuaConf) (buffer : Bytes) (c : Copying) :
    (c.round H conf buffer).index = c.index + (c.round H conf buffer).rlen := rfl

theorem Copied.content_round {c : Copying} (h : Copied conf buffer c) :
    (c.round H conf buffer).b.content = slice buffer 0 (c.round H conf buffer).index.toNat := by
  have hrlen := rlen_round H conf buffer c
  have hindex := index_round H conf buffer c
  have := h.index_nonneg
  have := h.rlen_nonneg
  have := h.n_nonneg
  have := h.sum
  obtain ⟨hcontent, hempty⟩ := c.b.prepbuffer_spec conf
  have hround : (c.round H conf buffer).b = (c.b.prepbuffer conf).addBlock
      (H.load buffer c.index.toNat (c.round H conf buffer).rlen.toNat) := rfl
  have hload : H.load buffer c.index.toNat (c.round H conf buffer).rlen.toNat =
      slice buffer c.index.toNat (c.round H conf buffer).rlen.toNat := by
    apply H.load_eq_slice
    omega
  have hsum : (c.round H conf buffer).index.toNat =
      c.index.toNat + (c.round H conf buffer).rlen.toNat := by omega
  rw [hround, LuaBuffer.content_addBlock hempty, hcontent, h.content, hload, hsum, slice_add,
    Nat.zero_add]

/-- One round keeps the invariant. -/
theorem Copied.round {c : Copying} (h : Copied conf buffer c) :
    Copied conf buffer (c.round H conf buffer) := by
  have hrlen := rlen_round H conf buffer c
  have hn := n_round H conf buffer c
  have hindex := index_round H conf buffer c
  have := h.index_nonneg
  have := h.rlen_nonneg
  have := h.n_nonneg
  have := h.rlen_pos
  have := h.rlen_le
  have := h.sum
  refine ⟨by omega, by omega, by omega, by omega, by omega, by omega, h.content_round, ?_⟩
  intro m hm
  rcases List.mem_append.1 hm with hm | hm
  · exact h.inside m hm
  -- the `memcpy` of this round
  · obtain rfl := List.mem_singleton.1 hm
    refine ⟨(c.b.prepbuffer_spec conf).2, ?_, ?_, h.index_nonneg, ?_⟩
    · show 0 ≤ (c.round H conf buffer).rlen
      omega
    · show (c.round H conf buffer).rlen ≤ _
      omega
    · show c.index + (c.round H conf buffer).rlen ≤ _
      omega

/-- The loop ends: every round but the last copies at least one byte. -/
theorem Copied.rounds {c : Copying} (h : Copied conf buffer c) {fuel : ℕ} (hfuel : c.n < fuel) :
    ∃ c', copyRounds H conf buffer fuel c = some c' ∧ Copied conf buffer c' ∧ c'.n = 0 := by
  induction fuel generalizing c with
  | zero =>
    have := h.n_nonneg
    omega
  | succ fuel ih =>
    have hround := h.round (H := H)
    have hrlen := rlen_round H conf buffer c
    have hn := n_round H conf buffer c
    have := h.n_nonneg
    have := h.rlen_nonneg
    have := h.rlen_pos
    have := hround.n_nonneg
    simp only [copyRounds]
    split_ifs with hmore
    · exact ih hround (by omega)
    · exact ⟨_, rfl, hround, by omega⟩

/-- The loop computes what `copyLoop` computes. -/
theorem copyRounds_eq_copyLoop {c c' : Copying} (h : Copied conf buffer c) {rlen : ℕ}
    (hrlen : 0 < rlen) (hc : c.rlen = rlen) {fuel : ℕ}
    (hrun : copyRounds H conf buffer fuel c = some c') :
    c'.b = copyLoop H conf buffer c.b rlen hrlen c.index.toNat c.n.toNat := by
  induction fuel generalizing c with
  | zero => cases hrun
  | succ fuel ih =>
    have hround := h.round (H := H)
    have hr := rlen_round H conf buffer c
    have hn := n_round H conf buffer c
    have hi := index_round H conf buffer c
    have hb : (c.round H conf buffer).b = (c.b.prepbuffer conf).addBlock
      (H.load buffer c.index.toNat (c.round H conf buffer).rlen.toNat) := rfl
    have := h.index_nonneg
    have := h.n_nonneg
    simp only [copyRounds] at hrun
    unfold copyLoop
    by_cases hmore : (c.round H conf buffer).n > 0
    · rw [if_pos hmore] at hrun
      have hsize : (c.round H conf buffer).rlen.toNat = rlen := by omega
      have hindex : (c.round H conf buffer).index.toNat = c.index.toNat + rlen := by omega
      have hleft : (c.round H conf buffer).n.toNat = c.n.toNat - rlen := by omega
      rw [ih hround (by omega) hrun, hb, hsize, hindex, hleft, dif_pos (by omega)]
    · rw [if_neg hmore, Option.some.injEq] at hrun
      have hsize : (c.round H conf buffer).rlen.toNat = c.n.toNat := by omega
      rw [← hrun, hb, hsize, dif_neg (by omega)]

end Copying

open Copying

/-- The string that `L_onDecodeBuffer` makes is made by this loop. -/
theorem copyString_eq_copyLoop (h : buffer.length < 2 ^ 31) {fuel : ℕ} {c : Copying}
    (hrun : copyString H conf fuel buffer (BitVec.ofNat 32 buffer.length) = some c) :
    c.b = copyLoop H conf buffer .buffinit conf.LUAL_BUFFERSIZE conf.pos 0 buffer.length := by
  rw [copyString, toInt_ofNat_of_lt h] at hrun
  exact copyRounds_eq_copyLoop (copied_start conf buffer) conf.pos rfl hrun

/-- **The copy is exact.**  For every string shorter than `2 ^ 31` and every `LUAL_BUFFERSIZE`
the loop ends, each `memcpy` reads inside the string and writes at most one block into a fresh
one, and `luaL_pushresult` leaves one string on the stack, equal to the source;
`loadBinaryFileForLua` returns it. -/
theorem copyString_exact (H : Heap UInt8) (conf : LuaConf) {source : Bytes}
    (h : source.length < 2 ^ 31) (L : LuaState ν) {fuel : ℕ} (hfuel : source.length < fuel) :
    (∃ c, copyString H conf fuel source (BitVec.ofNat 32 source.length) = some c ∧
      (∀ m ∈ c.copies, m.Inside conf source) ∧ L.pushresult c.b = L.push (.string source)) ∧
    ∀ pbFileName, loadBinaryFileForLua H conf fuel pbFileName (some source) L =
      some (.returned 1 (L.push (.string source))) := by
  have hn : (BitVec.ofNat 32 source.length).toInt = source.length := toInt_ofNat_of_lt h
  have htake : source.take (BitVec.ofNat 32 source.length).toNat = source := by
    rw [BitVec.toNat_ofNat, Nat.mod_eq_of_lt (by omega), List.take_length]
  have hleft : (start conf source.length).n < fuel := Int.ofNat_lt.2 hfuel
  obtain ⟨c, hrun, hcopied, hzero⟩ := (copied_start conf source).rounds (H := H) hleft
  have hresult : copyString H conf fuel source (BitVec.ofNat 32 source.length) = some c := by
    rw [copyString, hn]
    exact hrun
  have hindex : c.index.toNat = source.length := by
    have := hcopied.sum
    omega
  have hpush : L.pushresult c.b = L.push (.string source) := by
    rw [L.pushresult_eq, LuaBuffer.pushresult_eq, hcopied.content, hindex, slice_self]
  refine ⟨⟨c, hresult, hcopied.inside, hpush⟩, fun pbFileName => ?_⟩
  simp only [loadBinaryFileForLua, htake, hresult, Option.map_some, hpush]

/-- Five bytes, one of them zero, in blocks of two: the last copy is short. -/
theorem copyString_exact_five :
    let H := Heap.const (0 : UInt8)
    let conf : LuaConf := ⟨2, 20, by decide⟩
    let source : Bytes := [1, 0, 2, 3, 4]
    let L : LuaState ℤ := ⟨[], fun _ => .nil, []⟩
    (copyString H conf 6 source 5).map Copying.copies = some [⟨[], 0, 2⟩, ⟨[], 2, 2⟩, ⟨[], 4, 1⟩] ∧
      ∃ c, copyString H conf 6 source 5 = some c ∧ L.pushresult c.b = L.push (.string source) := by
  intro H conf source L
  have hlen : source.length < 2 ^ 31 := by decide
  have hfuel : source.length < 6 := by decide
  obtain ⟨⟨c, hrun, -, hpush⟩, -⟩ := copyString_exact H conf hlen L hfuel
  exact ⟨by decide +kernel, c, hrun, hpush⟩

end SockTestProgram
