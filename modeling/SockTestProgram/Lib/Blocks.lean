import SockTestProgram.Lib.Growing
import SockTestProgram.Lib.Pages

/-!
# Buffers in blocks

Buffers that grow, each in a block of an allocator.  Where the room does not last, a larger block is
allocated, and what was written is copied to it.  In every run the blocks hold what was written to
the buffers, whatever else is allocated in between (`Backed.of_run`).
-/

open Lts Memory Pages

namespace Growing

variable {β : Type*}

/-- What is done with a buffer. -/
inductive BufferOp (β : Type*)
  | reserve (n : ℕ)
  | put (data : List β)
  deriving DecidableEq, Repr

def Buffer.step (H : Heap β) (limit : ℕ) (b : Buffer β) : BufferOp β → Option (Buffer β)
  | .reserve n => b.reserve H limit n
  | .put data => b.put data

/-- What is done with some buffers. -/
inductive BufferCall (β : Type*)
  | new (n : ℕ)
  /-- with the buffer at a place -/
  | on (i : ℕ) (op : BufferOp β)
  /-- something else is allocated -/
  | alloc (n : ℕ)
  deriving DecidableEq, Repr

def BufferCall.isAlloc : BufferCall β → Bool
  | .alloc _ => true
  | _ => false

/-- The buffers, each for itself. -/
def stepAll (H : Heap β) (limit : ℕ) (bs : List (Buffer β)) :
    BufferCall β → Option (List (Buffer β))
  | .new n => some (bs ++ [⟨H.fresh n, 0⟩])
  | .on i op => bs[i]?.bind fun b => (b.step H limit op).map fun b' => bs.set i b'
  | .alloc _ => some bs

/-- A buffer in memory: which of the blocks it is in, how large this is, and where to write. -/
structure Cursor where
  block : ℕ
  size : ℕ
  ptr : ℕ
  deriving DecidableEq, Repr

/-- An allocator with the blocks that it gave and the buffers in them. -/
structure Owner (σ : Type*) where
  state : σ
  blocks : List Block
  cursors : List Cursor
  deriving DecidableEq, Repr

namespace Owner

variable {σ : Type*} (A : Allocator σ β)

/-- What stands in a block up to the place to write at. -/
def load (s : Owner σ) (c : Cursor) : Option (List β) :=
  s.blocks[c.block]?.bind fun b =>
    (A.arena s.state).pages[b.page]?.map fun cells => slice cells b.start c.ptr

/-- The allocator is called, or a block is written. -/
def call (s : Owner σ) (c : Pages.Call β) : Option (Owner σ) :=
  (A.step (s.state, s.blocks) c).map fun r => { s with state := r.1, blocks := r.2 }

def step (limit : ℕ) (s : Owner σ) : BufferCall β → Option (Owner σ)
  | .new n => (s.call A (.alloc n)).map fun s' =>
    { s' with cursors := s.cursors ++ [⟨s.blocks.length, n, 0⟩] }
  | .alloc n => s.call A (.alloc n)
  | .on i (.put data) =>
    s.cursors[i]?.bind fun c =>
      if c.ptr + data.length ≤ c.size then
        (s.call A (.write c.block c.ptr data)).map fun s' =>
          { s' with cursors := s.cursors.set i { c with ptr := c.ptr + data.length } }
      else none
  | .on i (.reserve n) =>
    s.cursors[i]?.bind fun c =>
      if c.size < c.ptr + n then
        (Buffer.double limit (c.ptr + n) (c.ptr + n) c.size).bind fun cap =>
          (s.call A (.alloc cap)).bind fun s' =>
            (s'.load A c).bind fun old =>
              (s'.call A (.write s.blocks.length 0 old)).map fun s'' =>
                { s'' with cursors := s.cursors.set i ⟨s.blocks.length, cap, c.ptr⟩ }
      else some s

end Owner

/-! ## Sizes -/

variable {limit : ℕ}

/-- Doubling keeps what it keeps once. -/
theorem double_induction {Q : ℕ → Prop} (hQ : ∀ n, Q n → n * 2 < limit → Q (n * 2))
    {size budget cap c : ℕ} (hcap : Q cap)
    (h : Buffer.double limit size budget cap = some c) : Q c := by
  induction budget generalizing cap with
  | zero => cases h
  | succ budget ih =>
    unfold Buffer.double at h
    split_ifs at h with hlimit hmore
    · exact ih (hQ cap hcap (Nat.lt_of_not_le hlimit)) h
    · obtain rfl := Option.some.inj h
      exact hQ cap hcap (Nat.lt_of_not_le hlimit)

theorem le_double {size budget cap c : ℕ} (h : Buffer.double limit size budget cap = some c) :
    cap ≤ c :=
  double_induction (Q := fun n => cap ≤ n) (fun n hn _ => by omega) le_rfl h

/-! ## One buffer -/

/-- The buffer is in an object, of which it is known what was written. -/
structure Backs (objs : Objects β) (c : Cursor) (b : Buffer β) : Prop where
  ptr : c.ptr = b.ptr
  size : c.size = b.cells.length
  valid : b.Valid
  object : ∃ obj, objs[c.block]? = some obj ∧ obj.length = c.size ∧
    obj.take c.ptr = b.written.map some

namespace Backs

variable {objs : Objects β} {c : Cursor} {b b' : Buffer β}

theorem block_lt (h : Backs objs c b) : c.block < objs.length := by
  obtain ⟨obj, hobj, -⟩ := h.object
  exact (List.getElem?_eq_some_iff.1 hobj).1

/-- More objects, or another one that is written. -/
theorem append (h : Backs objs c b) (new : Objects β) : Backs (objs ++ new) c b := by
  obtain ⟨obj, hobj, hobject⟩ := h.object
  exact ⟨h.ptr, h.size, h.valid, obj, by rw [List.getElem?_append_left h.block_lt, hobj], hobject⟩

theorem set_ne (h : Backs objs c b) {k : ℕ} (hk : k ≠ c.block) (obj : List (Option β)) :
    Backs (objs.set k obj) c b := by
  obtain ⟨obj', hobj, hobject⟩ := h.object
  exact ⟨h.ptr, h.size, h.valid, obj', by rw [List.getElem?_set_ne hk, hobj], hobject⟩

theorem put (h : Backs objs c b) {data : List β} (hput : b.put data = some b') :
    c.ptr + data.length ≤ c.size ∧ ∃ obj,
      objs.step (.write c.block c.ptr data) = some (objs.set c.block obj) ∧
        Backs (objs.set c.block obj) { c with ptr := c.ptr + data.length } b' := by
  obtain ⟨obj, hobj, hlength, htake⟩ := h.object
  obtain ⟨hfit, -⟩ := Option.ite_none_right_eq_some.1 hput
  obtain ⟨b₁, hb₁, hvalid, hwritten, hcells⟩ := Buffer.exists_put h.valid hfit
  obtain rfl := Option.some.inj (hb₁.symm.trans hput)
  rw [← h.ptr, ← h.size] at hfit
  have hroom : c.ptr + (data.map some).length ≤ obj.length := by
    rw [List.length_map, hlength]
    exact hfit
  have hstore : (store obj c.ptr (data.map some)).take (c.ptr + data.length) =
      obj.take c.ptr ++ data.map some := by
    have := slice_store_append (data.map some) (Nat.zero_le c.ptr)
      (show c.ptr ≤ obj.length by omega)
    simpa only [Nat.sub_zero, slice, List.drop_zero, List.length_map] using this
  refine ⟨hfit, store obj c.ptr (data.map some), ?_, ?_, ?_, hvalid, ?_⟩
  · rw [Objects.step, hobj, Option.bind_some, if_pos (by omega)]
  · rw [Buffer.put_eq_some (by rw [← h.ptr, ← h.size]; exact hfit)] at hb₁
    rw [← Option.some.inj hb₁, ← h.ptr]
  · rw [hcells, ← h.size]
  · refine ⟨_, List.getElem?_set_self h.block_lt, ?_, ?_⟩
    · rw [length_store hroom, hlength]
    · rw [hstore, htake, hwritten, List.map_append]

/-- A larger object that what was written is copied to. -/
theorem grow (H : Heap β) (h : Backs objs c b) {cap : ℕ} (hcap : c.size ≤ cap) :
    ∃ obj, (objs ++ [List.replicate cap none]).step (.write objs.length 0 b.written) =
        some ((objs ++ [List.replicate cap none]).set objs.length obj) ∧
      Backs ((objs ++ [List.replicate cap none]).set objs.length obj) ⟨objs.length, cap, c.ptr⟩
        ⟨store (H.fresh cap) 0 b.written, b.ptr⟩ := by
  have hwritten := Buffer.length_written h.valid
  have hsize := h.size
  have hvalid := h.valid
  have hfresh := H.length_fresh cap
  have hlength : (store (H.fresh cap) 0 b.written).length = cap := by
    rw [length_store (by have := hvalid.1; omega), hfresh]
  have hle : b.written.length ≤ cap := by
    have := hvalid.1
    omega
  have hroom : 0 + (b.written.map some).length ≤ (List.replicate cap (none : Option β)).length := by
    rw [List.length_map, List.length_replicate]
    omega
  refine ⟨store (List.replicate cap none) 0 (b.written.map some), ?_, h.ptr, hlength.symm, ?_, ?_⟩
  · rw [Objects.step, List.getElem?_concat_length, Option.bind_some, List.length_replicate,
      if_pos (by omega)]
  · refine ⟨?_, ?_⟩
    · show b.ptr ≤ (store (H.fresh cap) 0 b.written).length
      omega
    · show 0 < (store (H.fresh cap) 0 b.written).length
      have := hvalid.2
      omega
  · refine ⟨_, List.getElem?_set_self (by simp), ?_, ?_⟩
    · rw [length_store hroom, List.length_replicate]
    · have hptr : c.ptr = b.written.length := h.ptr.trans hwritten.symm
      show (store _ 0 (b.written.map some)).take c.ptr =
        ((store (H.fresh cap) 0 b.written).take b.ptr).map some
      rw [store_zero, store_zero, ← h.ptr, hptr, List.take_left' (List.length_map _),
        List.take_left]

end Backs

/-! ## All buffers -/

section

variable {σ : Type*} {A : Allocator σ β} {I : σ → Prop} {P Q : ℕ → Prop} {H : Heap β}
  {s : Owner σ} {bs bs' : List (Buffer β)} {objs objs' : Objects β}

namespace Owner

theorem exists_call (hA : A.Sound I P) (hI : I s.state)
    (h : Shows (A.arena s.state) s.blocks objs) {c : Pages.Call β} (hc : ∀ n, c = .alloc n → P n)
    (hs : objs.step c = some objs') :
    ∃ s', s.call A c = some s' ∧ I s'.state ∧ Shows (A.arena s'.state) s'.blocks objs' ∧
      s'.cursors = s.cursors := by
  obtain ⟨state, blocks, hstep, hI', hshows⟩ := hA.step hI h hc hs
  exact ⟨{ s with state := state, blocks := blocks }, by rw [call, hstep, Option.map_some], hI',
    hshows, rfl⟩

/-- What was written to a buffer stands in its block. -/
theorem load_eq (h : Shows (A.arena s.state) s.blocks objs) {c : Cursor} {b : Buffer β}
    (hbacks : Backs objs c b) : s.load A c = some b.written := by
  obtain ⟨obj, hobj, -, htake⟩ := hbacks.object
  have hlt := hbacks.block_lt
  obtain ⟨block, hblock⟩ : ∃ block, s.blocks[c.block]? = some block :=
    ⟨_, List.getElem?_eq_getElem (h.length ▸ hlt)⟩
  obtain ⟨cells, hcells, -⟩ := h.gave.inside block (List.mem_of_getElem? hblock)
  obtain ⟨-, hholds⟩ := h.holds c.block block obj hblock hobj
  have hwritten := Buffer.length_written hbacks.valid
  rw [load, hblock, Option.bind_some, hcells, Option.map_some]
  congr 1
  refine List.ext_getElem? fun i => ?_
  rw [getElem?_slice]
  split_ifs with hi
  · have hi' : i < b.written.length := by
      rw [hwritten, ← hbacks.ptr]
      exact hi
    have hknown : obj[i]? = some (some b.written[i]) := by
      rw [← List.getElem?_take_of_lt hi, htake, List.getElem?_map, List.getElem?_eq_getElem hi',
        Option.map_some]
    have hcell := hholds i _ hknown
    rw [Arena.cell, hcells, Option.bind_some] at hcell
    rw [hcell, List.getElem?_eq_getElem]
  · rw [List.getElem?_eq_none (by rw [hwritten, ← hbacks.ptr]; omega)]

end Owner

/-- The buffers are in blocks of their own. -/
structure Backed (A : Allocator σ β) (I : σ → Prop) (Q : ℕ → Prop) (s : Owner σ)
    (bs : List (Buffer β)) (objs : Objects β) : Prop where
  inv : I s.state
  shows : Shows (A.arena s.state) s.blocks objs
  length : s.cursors.length = bs.length
  backs : ∀ (i : ℕ) (c : Cursor) (b : Buffer β), s.cursors[i]? = some c → bs[i]? = some b →
    Backs objs c b
  apart : ∀ (i j : ℕ) (c d : Cursor), s.cursors[i]? = some c → s.cursors[j]? = some d →
    c.block = d.block → i = j
  sizes : ∀ c ∈ s.cursors, Q c.size

namespace Backed

theorem nil (hI : I s.state) (h : Shows (A.arena s.state) s.blocks objs) (hs : s.cursors = []) :
    Backed A I Q s [] objs :=
  ⟨hI, h, by rw [hs]; rfl, by simp, by simp [hs], by simp [hs]⟩

theorem exists_cursor (h : Backed A I Q s bs objs) {i : ℕ} {b : Buffer β} (hb : bs[i]? = some b) :
    ∃ c, s.cursors[i]? = some c ∧ Backs objs c b ∧ Q c.size := by
  have hlt : i < s.cursors.length := h.length ▸ (List.getElem?_eq_some_iff.1 hb).1
  have hc := List.getElem?_eq_getElem hlt
  exact ⟨_, hc, h.backs i _ b hc hb, h.sizes _ (List.mem_of_getElem? hc)⟩

theorem load (h : Backed A I Q s bs objs) {i : ℕ} {b : Buffer β} (hb : bs[i]? = some b) :
    ∃ c, s.cursors[i]? = some c ∧ s.load A c = some b.written := by
  obtain ⟨c, hc, hbacks, -⟩ := h.exists_cursor hb
  exact ⟨c, hc, s.load_eq h.shows hbacks⟩

/-- One buffer changes, in its block or to a new one. -/
theorem set (h : Backed A I Q s bs objs) {s' : Owner σ} {i : ℕ} {c c' : Cursor} {b' : Buffer β}
    (hc : s.cursors[i]? = some c) (hI : I s'.state)
    (hshows : Shows (A.arena s'.state) s'.blocks objs') (hcursors : s'.cursors = s.cursors.set i c')
    (hbacks : Backs objs' c' b') (hsize : Q c'.size)
    (hothers : ∀ d b, c.block ≠ d.block → Backs objs d b → Backs objs' d b)
    (hblock : c'.block = c.block ∨ objs.length ≤ c'.block) :
    Backed A I Q s' (bs.set i b') objs' := by
  have hi := (List.getElem?_eq_some_iff.1 hc).1
  have hi' : i < bs.length := h.length ▸ hi
  -- no other buffer is in the block of this one
  have hnew (j : ℕ) (d : Cursor) (hd : s.cursors[j]? = some d) (heq : c'.block = d.block) :
      i = j := by
    obtain hold | hold := hblock
    · exact h.apart i j c d hc hd (hold.symm.trans heq)
    · have hj : j < bs.length := h.length ▸ (List.getElem?_eq_some_iff.1 hd).1
      have := (h.backs j d _ hd (List.getElem?_eq_getElem hj)).block_lt
      omega
  refine ⟨hI, hshows, by rw [hcursors, List.length_set, List.length_set, h.length], ?_, ?_, ?_⟩
  · intro j d b hd hb
    rw [hcursors] at hd
    by_cases hij : i = j
    · subst hij
      rw [List.getElem?_set_self hi] at hd
      rw [List.getElem?_set_self hi'] at hb
      obtain rfl := Option.some.inj hd
      obtain rfl := Option.some.inj hb
      exact hbacks
    · rw [List.getElem?_set_ne hij] at hd hb
      exact hothers d b (fun heq => hij (h.apart i j c d hc hd heq)) (h.backs j d b hd hb)
  · intro j k d e hd he heq
    rw [hcursors] at hd he
    by_cases hij : i = j
    · subst hij
      rw [List.getElem?_set_self hi] at hd
      obtain rfl := Option.some.inj hd
      by_cases hik : i = k
      · exact hik
      · rw [List.getElem?_set_ne hik] at he
        exact hnew k e he heq
    · rw [List.getElem?_set_ne hij] at hd
      by_cases hik : i = k
      · subst hik
        rw [List.getElem?_set_self hi] at he
        obtain rfl := Option.some.inj he
        exact (hnew j d hd heq.symm).symm
      · rw [List.getElem?_set_ne hik] at he
        exact h.apart j k d e hd he heq
  · intro d hd
    rw [hcursors] at hd
    obtain hd | rfl := List.mem_or_eq_of_mem_set hd
    · exact h.sizes d hd
    · exact hsize

/-- Something else is allocated. -/
theorem alloc (h : Backed A I Q s bs objs) {s' : Owner σ} (hI : I s'.state) {new : Objects β}
    (hshows : Shows (A.arena s'.state) s'.blocks (objs ++ new))
    (hcursors : s'.cursors = s.cursors) :
    Backed A I Q s' bs (objs ++ new) := by
  refine ⟨hI, hshows, by rw [hcursors, h.length], ?_, ?_, ?_⟩
  · rw [hcursors]
    exact fun i c b hc hb => (h.backs i c b hc hb).append new
  · rw [hcursors]
    exact h.apart
  · rw [hcursors]
    exact h.sizes

/-- A buffer in the last block. -/
theorem add (h : Backed A I Q s bs objs) {c : Cursor} {b : Buffer β} (hbacks : Backs objs c b)
    (hsize : Q c.size) (hfresh : ∀ d ∈ s.cursors, d.block ≠ c.block) :
    Backed A I Q { s with cursors := s.cursors ++ [c] } (bs ++ [b]) objs := by
  have hlast {i : ℕ} {d : Cursor} (hd : (s.cursors ++ [c])[i]? = some d) :
      s.cursors[i]? = some d ∨ i = s.cursors.length ∧ d = c := by
    by_cases hi : i < s.cursors.length
    · exact .inl (by rwa [List.getElem?_append_left hi] at hd)
    · rw [List.getElem?_append_right (by omega)] at hd
      obtain ⟨hlt, rfl⟩ := List.getElem?_eq_some_iff.1 hd
      rw [List.length_singleton] at hlt
      exact .inr ⟨by omega, List.getElem_singleton _⟩
  refine ⟨h.inv, h.shows, by simp [h.length], fun i d e hd he => ?_, fun i j d e hd he heq => ?_,
    fun d hd => ?_⟩
  · obtain hd | ⟨rfl, rfl⟩ := hlast hd
    · have hi : i < bs.length := h.length ▸ (List.getElem?_eq_some_iff.1 hd).1
      rw [List.getElem?_append_left hi] at he
      exact h.backs i d e hd he
    · rw [h.length, List.getElem?_concat_length] at he
      obtain rfl := Option.some.inj he
      exact hbacks
  · obtain hd' | ⟨hi, hdc⟩ := hlast hd <;> obtain he' | ⟨hj, hec⟩ := hlast he
    · exact h.apart i j d e hd' he' heq
    · exact absurd (hec ▸ heq) (hfresh d (List.mem_of_getElem? hd'))
    · exact absurd (hdc ▸ heq).symm (hfresh e (List.mem_of_getElem? he'))
    · rw [hi, hj]
  · obtain hd | hd := List.mem_append.1 hd
    · exact h.sizes d hd
    · rwa [List.mem_singleton.1 hd]

theorem block_lt (h : Backed A I Q s bs objs) {c : Cursor} (hc : c ∈ s.cursors) :
    c.block < objs.length := by
  obtain ⟨i, hi⟩ := List.mem_iff_getElem?.1 hc
  have hlt : i < bs.length := h.length ▸ (List.getElem?_eq_some_iff.1 hi).1
  exact (h.backs i c _ hi (List.getElem?_eq_getElem hlt)).block_lt

/-- An operation on one buffer. -/
theorem on (hA : A.Sound I P) (hQ : ∀ n, Q n → n * 2 < limit → Q (n * 2)) (hQP : ∀ n, Q n → P n)
    (h : Backed A I Q s bs objs) {i : ℕ} {op : BufferOp β} {b b' : Buffer β} (hb : bs[i]? = some b)
    (hs : b.step H limit op = some b') :
    ∃ s' objs', s.step A limit (.on i op) = some s' ∧ Backed A I Q s' (bs.set i b') objs' := by
  obtain ⟨c, hc, hbacks, hsize⟩ := h.exists_cursor hb
  cases op with
  | put data =>
    obtain ⟨hfit, obj, hwrite, hbacks'⟩ := hbacks.put hs
    obtain ⟨s', hcall, hI, hshows, hcursors⟩ := Owner.exists_call hA h.inv h.shows (by simp) hwrite
    refine ⟨{ s' with cursors := s.cursors.set i { c with ptr := c.ptr + data.length } }, _, ?_,
      h.set hc hI hshows rfl hbacks' hsize (fun d e hne hd => hd.set_ne hne obj) (.inl rfl)⟩
    rw [Owner.step, hc, Option.bind_some, if_pos hfit, hcall, Option.map_some]
  | reserve n =>
    have hcells := hbacks.size
    have hptr := hbacks.ptr
    simp only [Buffer.step, Buffer.reserve] at hs
    split_ifs at hs with hroom
    · obtain ⟨cap, hcap, rfl⟩ := Option.map_eq_some_iff.1 hs
      rw [← hcells, ← hptr] at hcap
      have hQcap := double_induction hQ hsize hcap
      obtain ⟨obj, hwrite, hbacks'⟩ := hbacks.grow H (le_double hcap)
      obtain ⟨s₁, hcall₁, hI₁, hshows₁, hcursors₁⟩ := Owner.exists_call hA h.inv h.shows
        (fun m hm => Pages.Call.alloc.inj hm ▸ hQP cap hQcap)
          (show objs.step (.alloc cap) = some _ from rfl)
      have hload := s₁.load_eq hshows₁ (hbacks.append _)
      obtain ⟨s₂, hcall₂, hI₂, hshows₂, hcursors₂⟩ :=
        Owner.exists_call hA hI₁ hshows₁ (by simp) hwrite
      refine ⟨{ s₂ with cursors := s.cursors.set i ⟨objs.length, cap, c.ptr⟩ }, _, ?_,
        h.set hc hI₂ hshows₂ rfl hbacks' hQcap (fun d e _ hd => ?_) (.inr le_rfl)⟩
      · rw [Owner.step, hc, Option.bind_some, if_pos (by omega), hcap, Option.bind_some, hcall₁,
          Option.bind_some, hload, Option.bind_some, h.shows.length, hcall₂, Option.map_some]
      · have hne' : objs.length ≠ d.block := hd.block_lt.ne'
        exact (hd.append _).set_ne hne' obj
    · obtain rfl := Option.some.inj hs
      refine ⟨s, objs, ?_, ?_⟩
      · rw [Owner.step, hc, Option.bind_some, if_neg (by omega)]
      · obtain ⟨hi, rfl⟩ := List.getElem?_eq_some_iff.1 hb
        rwa [List.set_getElem_self]

theorem step (hA : A.Sound I P) (hQ : ∀ n, Q n → n * 2 < limit → Q (n * 2)) (hQP : ∀ n, Q n → P n)
    (h : Backed A I Q s bs objs) {c : BufferCall β} (hnew : ∀ n, c = .new n → 0 < n ∧ Q n)
    (halloc : ∀ n, c = .alloc n → P n) (hs : stepAll H limit bs c = some bs') :
    ∃ s' objs', s.step A limit c = some s' ∧ Backed A I Q s' bs' objs' := by
  cases c with
  | new n =>
    obtain rfl := Option.some.inj hs
    obtain ⟨hpos, hn⟩ := hnew n rfl
    obtain ⟨s', hcall, hI, hshows, hcursors⟩ := Owner.exists_call hA h.inv h.shows
      (fun m hm => Pages.Call.alloc.inj hm ▸ hQP n hn) (show objs.step (.alloc n) = some _ from rfl)
    have hbacks : Backs (objs ++ [List.replicate n none]) ⟨objs.length, n, 0⟩ ⟨H.fresh n, 0⟩ :=
      ⟨rfl, (H.length_fresh n).symm, ⟨Nat.zero_le _, hpos.trans_eq (H.length_fresh n).symm⟩,
        _, List.getElem?_concat_length, List.length_replicate, rfl⟩
    refine ⟨_, _, ?_, (h.alloc hI hshows hcursors).add hbacks hn fun d hd => ?_⟩
    · rw [Owner.step, hcall, Option.map_some, hcursors, h.shows.length]
    · exact (h.block_lt (hcursors ▸ hd)).ne
  | on i op =>
    obtain ⟨b, hb, hs⟩ := Option.bind_eq_some_iff.1 hs
    obtain ⟨b', hb', rfl⟩ := Option.map_eq_some_iff.1 hs
    exact h.on hA hQ hQP hb hb'
  | alloc n =>
    obtain rfl := Option.some.inj hs
    obtain ⟨s', hcall, hI, hshows, hcursors⟩ := Owner.exists_call hA h.inv h.shows
      (fun m hm => Pages.Call.alloc.inj hm ▸ halloc n rfl)
        (show objs.step (.alloc n) = some _ from rfl)
    exact ⟨s', _, hcall, h.alloc hI hshows hcursors⟩

/-- **Every buffer is in a block of its own**, in every run. -/
theorem of_run (hA : A.Sound I P) (hQ : ∀ n, Q n → n * 2 < limit → Q (n * 2)) (hQP : ∀ n, Q n → P n)
    (h : Backed A I Q s bs objs) {calls : List (BufferCall β)}
    (hnew : ∀ n, .new n ∈ calls → 0 < n ∧ Q n) (halloc : ∀ n, .alloc n ∈ calls → P n)
    (hrun : run (stepAll H limit) bs calls = some bs') :
    ∃ s' objs', run (Owner.step A limit) s calls = some s' ∧ Backed A I Q s' bs' objs' := by
  induction calls generalizing s bs objs with
  | nil =>
    obtain rfl := Option.some.inj hrun
    exact ⟨s, objs, rfl, h⟩
  | cons c calls ih =>
    obtain ⟨bs₁, hstep, hrest⟩ := run_cons_eq_some_iff.1 hrun
    obtain ⟨s₁, objs₁, hs₁, h₁⟩ := h.step hA hQ hQP
      (fun n hn => hnew n (by simp [hn])) (fun n hn => halloc n (by simp [hn])) hstep
    obtain ⟨s', objs', hs', h'⟩ := ih h₁ (fun n hn => hnew n (by simp [hn]))
      (fun n hn => halloc n (by simp [hn])) hrest
    exact ⟨s', objs', run_cons_eq_some_iff.2 ⟨_, hs₁, hs'⟩, h'⟩

end Backed

end

/-! ## Runs of buffers -/

variable {H : Heap β} {bs bs' : List (Buffer β)} {b b' : Buffer β}

/-- A run of one buffer is one of all. -/
theorem run_on {i : ℕ} {ops : List (BufferOp β)} (hb : bs[i]? = some b)
    (h : run (Buffer.step H limit) b ops = some b') :
    run (stepAll H limit) bs (ops.map (.on i)) = some (bs.set i b') := by
  induction ops generalizing bs b with
  | nil =>
    obtain rfl := Option.some.inj h
    obtain ⟨hi, rfl⟩ := List.getElem?_eq_some_iff.1 hb
    rw [List.set_getElem_self]
    rfl
  | cons op ops ih =>
    obtain ⟨b₁, hstep, hrest⟩ := run_cons_eq_some_iff.1 h
    have hi := (List.getElem?_eq_some_iff.1 hb).1
    refine run_cons_eq_some_iff.2 ⟨bs.set i b₁, ?_, ?_⟩
    · rw [stepAll, hb, Option.bind_some, hstep, Option.map_some]
    · rw [ih (List.getElem?_set_self hi) hrest, List.set_set]

/-- What else is allocated does not count. -/
theorem run_filter_alloc (calls : List (BufferCall β)) (bs : List (Buffer β)) :
    run (stepAll H limit) bs (calls.filter fun c => !c.isAlloc) =
      run (stepAll H limit) bs calls := by
  induction calls generalizing bs with
  | nil => rfl
  | cons c calls ih =>
    cases c with
    | alloc n =>
      rw [List.filter_cons_of_neg (by simp [BufferCall.isAlloc]), ih]
      rfl
    | new n | on i op =>
      rw [List.filter_cons_of_pos rfl, run_cons, run_cons]
      exact congrArg _ (funext ih)

end Growing
