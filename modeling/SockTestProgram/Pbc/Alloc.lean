import SockTestProgram.Io.StreamBuffer
import SockTestProgram.Lib.Pages

/-!
# Memory of pbc

The heap of `alloc.c` and the pool of strings of `stringpool.c` cut blocks from pages.  In every
run, a block of the heap is an object of its own (`PbcHeap.objects_of_run`), and a string of the
pool stays what it was built from (`StringPool.reads_of_run`).
-/

open Lts Memory Pages

namespace SockTestProgram

/-! ## The heap -/

/-- `struct heap` with its pages -/
structure PbcHeap where
  arena : Arena UInt8
  size : ℕ
  deriving DecidableEq, Repr

namespace PbcHeap

variable (H : Heap UInt8)

/-- The loop of `_pbcH_new`; `none` where `cap` overflows. -/
def capFor (pagesize : ℕ) : ℕ → ℕ → Option ℕ
  | 0, _ => none
  | budget + 1, cap =>
    if cap < pagesize then if FitsInt (cap * 2) then capFor pagesize budget (cap * 2) else none
    else some cap

/-- `_pbcH_new` -/
def new (pagesize : ℕ) : Option PbcHeap :=
  (capFor pagesize 22 1024).map fun cap => ⟨⟨[H.fresh cap], 0, 0⟩, cap⟩

/-- `_pbcH_alloc`; `none` where `size + 3` overflows. -/
def alloc (h : PbcHeap) (size : ℕ) : Option (Block × PbcHeap) :=
  if size + 3 < 2 ^ 31 then
    -- `(size + 3) & ~3`
    let size := (size + 3) / 4 * 4
    if (h.size - h.arena.used : ℤ) < size then
      let cells := if size < h.size then H.fresh h.size else H.fresh size
      some (⟨h.arena.pages.length, 0, size⟩,
        { h with arena := ⟨h.arena.pages ++ [cells], h.arena.pages.length, size⟩ })
    else
      some (⟨h.arena.current, h.arena.used, size⟩,
        { h with arena := { h.arena with used := h.arena.used + size } })
  else none

def allocator : Allocator PbcHeap UInt8 := ⟨arena, fun h a => { h with arena := a }, alloc H⟩

variable {H} {h : PbcHeap}

/-- No page is smaller than `size`. -/
def Valid (h : PbcHeap) : Prop :=
  ∃ cells, h.arena.pages[h.arena.current]? = some cells ∧ h.size ≤ cells.length

theorem exists_capFor {pagesize budget cap : ℕ} (hpagesize : pagesize ≤ 2 ^ 30)
    (hbudget : pagesize ≤ cap * 2 ^ budget) : ∃ c, capFor pagesize (budget + 1) cap = some c := by
  induction budget generalizing cap with
  | zero => exact ⟨cap, if_neg (by omega)⟩
  | succ budget ih =>
    unfold capFor
    split_ifs with hlt hfit
    · refine ih ?_
      rwa [Nat.mul_assoc, Nat.mul_comm 2, ← pow_succ]
    · exact absurd (show FitsInt (cap * 2) by unfold FitsInt; omega) hfit
    · exact ⟨cap, rfl⟩

theorem exists_new (H : Heap UInt8) {pagesize : ℕ} (hpagesize : pagesize ≤ 2 ^ 30) :
    ∃ cap, new H pagesize = some ⟨⟨[H.fresh cap], 0, 0⟩, cap⟩ := by
  obtain ⟨cap, hcap⟩ : ∃ cap, capFor pagesize (21 + 1) 1024 = some cap :=
    exists_capFor hpagesize (by omega)
  exact ⟨cap, by rw [new, hcap, Option.map_some]⟩

/-- A block comes from the page at hand, or from a new one where that has not enough cells left. -/
theorem exists_alloc (H : Heap UInt8) (hvalid : h.Valid) {n : ℕ} (hn : n + 3 < 2 ^ 31) :
    ∃ b h' m, alloc H h n = some (b, h') ∧ n ≤ m ∧ h.arena.Grants m b h'.arena ∧ h'.Valid := by
  obtain ⟨cells, hcells, hle⟩ := hvalid
  unfold alloc
  rw [if_pos hn]
  simp only
  split_ifs with hroom hsize
  · refine ⟨_, _, (n + 3) / 4 * 4, rfl, by omega, .page _ ?_, _, List.getElem?_concat_length, ?_⟩
    · rw [H.length_fresh]
      omega
    · rw [H.length_fresh]
  · refine ⟨_, _, (n + 3) / 4 * 4, rfl, by omega, .page _ ?_, _, List.getElem?_concat_length, ?_⟩
    · rw [H.length_fresh]
    · rw [H.length_fresh]
      exact Nat.le_of_not_lt hsize
  · refine ⟨_, _, (n + 3) / 4 * 4, rfl, by omega, .cut cells hcells ?_, cells, hcells, hle⟩
    omega

theorem Valid.write (hvalid : h.Valid) {a' : Arena UInt8} {page i : ℕ} {data : List UInt8}
    (hw : h.arena.write page i data = some a') : Valid { h with arena := a' } := by
  obtain ⟨cells, hcells, hle⟩ := hvalid
  obtain ⟨old, hold, hfit, rfl⟩ := Arena.write_eq_some_iff.1 hw
  by_cases hpage : page = h.arena.current
  · subst hpage
    obtain rfl := Option.some.inj (hcells.symm.trans hold)
    exact ⟨_, List.getElem?_set_self (List.getElem?_eq_some_iff.1 hcells).1,
      by rwa [length_store hfit]⟩
  · exact ⟨cells, (List.getElem?_set_ne hpage).trans hcells, hle⟩

theorem sound_allocator (H : Heap UInt8) : (allocator H).Sound Valid (fun n => n + 3 < 2 ^ 31) where
  arena_setArena _ _ := rfl
  write _ _ _ _ _ hvalid hw := hvalid.write hw
  alloc _ _ hvalid hn := exists_alloc H hvalid hn

/-- **The heap.**  Every run of allocations, each of less than `2 ^ 31 - 3` bytes, and of writes
inside the blocks is possible, and every block holds what was written to it, as if there were no
others. -/
theorem objects_of_run (H : Heap UInt8) {pagesize : ℕ} (hpagesize : pagesize ≤ 2 ^ 30)
    {calls : List (Pages.Call UInt8)} {objs : Objects UInt8}
    (hrun : run Objects.step [] calls = some objs)
    (hsizes : ∀ n, .alloc n ∈ calls → n + 3 < 2 ^ 31) :
    ∃ h h' blocks, new H pagesize = some h ∧
      run (allocator H).step (h, []) calls = some (h', blocks) ∧
      Shows h'.arena blocks objs := by
  obtain ⟨cap, hnew⟩ := exists_new H hpagesize
  have hvalid : Valid ⟨⟨[H.fresh cap], 0, 0⟩, cap⟩ := ⟨_, rfl, (H.length_fresh cap).ge⟩
  obtain ⟨h', blocks, hrun', -, hshows⟩ :=
    (sound_allocator H).shows_of_run hvalid (shows_nil 0) hsizes hrun
  exact ⟨_, h', blocks, hnew, hrun', hshows⟩

/-- Two blocks from one page, and one that takes a page of its own between them. -/
theorem objects_of_run_pages : ∃ objs h h' blocks,
    new (Heap.const 0) 16 = some h ∧
      run (allocator (Heap.const 0)).step (h, [])
        [.alloc 5, .alloc 2000, .write 0 1 [1, 2], .alloc 3, .write 1 1998 [7, 8]] = some
          (h', blocks) ∧
      Shows h'.arena blocks objs := by
  obtain ⟨objs, hobjs⟩ : ∃ objs, run Objects.step ([] : Objects UInt8)
      [.alloc 5, .alloc 2000, .write 0 1 [1, 2], .alloc 3, .write 1 1998 [7, 8]] = some objs :=
    Option.isSome_iff_exists.1 (by decide +kernel)
  obtain ⟨h, h', blocks, hrun⟩ :=
    objects_of_run (Heap.const 0) (show 16 ≤ 2 ^ 30 by decide) hobjs (by
    intro n hn
    simp only [List.mem_cons, Pages.Call.alloc.injEq, reduceCtorEq, List.not_mem_nil, or_false,
      false_or] at hn
    omega)
  exact ⟨objs, h, h', blocks, hrun⟩

end PbcHeap

/-! ## The pool of strings -/

/-- `struct _stringpool`; `used` is `len` of the page that `buffer` points to. -/
structure StringPool where
  arena : Arena UInt8
  deriving DecidableEq, Repr

namespace StringPool

def pageSize : ℕ := 256

variable (H : Heap UInt8)

/-- `_pbcS_new` -/
def new : StringPool := ⟨⟨[H.fresh pageSize], 0, 0⟩⟩

/-- `_pbcS_build`, with the pointer that it returns: `sz` bytes of `str` and the one behind them are
copied.  `none` where `sz + 1` overflows. -/
def build (pool : StringPool) (str : Bytes) (sz : ℕ) : Option (Block × StringPool) :=
  if sz + 1 < 2 ^ 31 then
    let s := sz + 1
    let a := pool.arena
    if s < pageSize - a.used then
      (a.write a.current a.used (H.load str 0 s)).map fun a' =>
        (⟨a.current, a.used, s⟩, ⟨{ a' with used := a.used + s }⟩)
    else if pageSize < s then
      some (⟨a.pages.length, 0, s⟩,
        ⟨{ a with pages := a.pages ++ [store (H.fresh s) 0 (H.load str 0 s)] }⟩)
    else
      some (⟨a.pages.length, 0, s⟩,
        ⟨⟨a.pages ++ [store (H.fresh pageSize) 0 (H.load str 0 s)], a.pages.length, s⟩⟩)
  else none

/-- A string is built; the pointers are kept. -/
def step (s : StringPool × List Block) (arg : Bytes × ℕ) : Option (StringPool × List Block) :=
  (s.1.build H arg.1 arg.2).map fun r => (r.2, s.2 ++ [r.1])

/-- The bytes that are there from a pointer on. -/
def Reads (pool : StringPool) (b : Block) (str : Bytes) : Prop :=
  ∀ i v, str[i]? = some v → pool.arena.cell b.page (b.start + i) = some v

variable {H} {pool : StringPool}

/-- The page at hand has the size of all pages but those of long strings. -/
def Valid (pool : StringPool) : Prop :=
  ∃ cells, pool.arena.pages[pool.arena.current]? = some cells ∧ cells.length = pageSize ∧
    pool.arena.used ≤ pageSize

/-- A new page is written from its start. -/
theorem write_page {pages : List Bytes} {page data : Bytes} {current used : ℕ}
    (hfit : data.length ≤ page.length) :
    Arena.write ⟨pages ++ [page], current, used⟩ pages.length 0 data =
      some ⟨pages ++ [store page 0 data], current, used⟩ := by
  refine Arena.write_eq_some_iff.2 ⟨page, List.getElem?_concat_length, by simpa using hfit, ?_⟩
  rw [List.set_append_right _ _ le_rfl, Nat.sub_self, List.set_cons_zero]

/-- A string is built in a block of its own. -/
theorem exists_build (H : Heap UInt8) (hvalid : pool.Valid) (str : Bytes) {sz : ℕ}
    (hsz : sz + 1 < 2 ^ 31) :
    ∃ b pool' a, pool.build H str sz = some (b, pool') ∧ pool.arena.Grants (sz + 1) b a ∧
      a.write b.page b.start (H.load str 0 (sz + 1)) = some pool'.arena ∧ pool'.Valid := by
  obtain ⟨cells, hcells, hlen, hused⟩ := hvalid
  have hload : (H.load str 0 (sz + 1)).length = sz + 1 := H.length_load _ _ _
  unfold build
  rw [if_pos hsz]
  simp only
  split_ifs with hroom hlong
  · have hfit : pool.arena.used + (H.load str 0 (sz + 1)).length ≤ cells.length := by omega
    have hw := Arena.write_eq_some_iff.2 ⟨cells, hcells, hfit, rfl⟩
    rw [hw, Option.map_some]
    refine ⟨_, _, _, rfl, .cut cells hcells (by omega),
      Arena.write_eq_some_iff.2 ⟨cells, hcells, hfit, rfl⟩, ?_⟩
    refine ⟨_, List.getElem?_set_self (List.getElem?_eq_some_iff.1 hcells).1,
      by rwa [length_store hfit], ?_⟩
    show pool.arena.used + (sz + 1) ≤ pageSize
    omega
  · have hfresh : (H.load str 0 (sz + 1)).length ≤ (H.fresh (sz + 1)).length := by
      rw [hload, H.length_fresh]
    refine ⟨_, _, _, rfl, .apart (H.fresh (sz + 1)) (H.length_fresh _).ge, write_page hfresh, cells,
      ?_, hlen, hused⟩
    exact getElem?_append_page hcells
  · have hfresh : (H.load str 0 (sz + 1)).length ≤ (H.fresh pageSize).length := by
      rw [hload, H.length_fresh]
      omega
    refine ⟨_, _, _, rfl, .page (H.fresh pageSize) (by rw [H.length_fresh]; omega),
      write_page hfresh, ?_⟩
    refine ⟨_, List.getElem?_concat_length, ?_, Nat.le_of_not_lt hlong⟩
    rw [length_store (by rw [Nat.zero_add]; exact hfresh), H.length_fresh]

/-- What a pointer is returned for. -/
def built (H : Heap UInt8) (arg : Bytes × ℕ) : Bytes := H.load arg.1 0 (arg.2 + 1)

theorem store_replicate (data : Bytes) :
    store (List.replicate data.length none) 0 (data.map some) = data.map some := by
  rw [store_zero, List.length_map, List.drop_replicate, Nat.sub_self, List.replicate_zero,
    List.append_nil]

/-- A string that is built is a new object, and no other changes. -/
theorem shows_build (hvalid : pool.Valid) {blocks : List Block} {objs : Objects UInt8}
    (h : Shows pool.arena blocks objs) {arg : Bytes × ℕ} (harg : arg.2 + 1 < 2 ^ 31) :
    ∃ pool' blocks', step H (pool, blocks) arg = some (pool', blocks') ∧ pool'.Valid ∧
      Shows pool'.arena blocks' (objs ++ [(built H arg).map some]) := by
  obtain ⟨b, pool', a, hbuild, hg, hw, hvalid'⟩ := exists_build H hvalid arg.1 harg
  have hgrant := h.grant hg le_rfl
  have hlen : (built H arg).length = arg.2 + 1 := H.length_load _ _ _
  have hstep : Objects.step (objs ++ [List.replicate (arg.2 + 1) none])
      (.write objs.length 0 (built H arg)) =
      some (objs ++ [(built H arg).map some]) := by
    simp only [Objects.step, List.getElem?_concat_length, Option.bind_some, List.length_replicate]
    rw [if_pos (by omega), List.set_append_right _ _ le_rfl, Nat.sub_self,
      List.set_cons_zero, ← hlen, store_replicate]
  obtain ⟨b', a', hb', hw', hshows⟩ := hgrant.write hstep
  rw [← h.length, List.getElem?_concat_length] at hb'
  obtain rfl := Option.some.inj hb'
  obtain rfl := Option.some.inj (hw'.symm.trans hw)
  refine ⟨pool', blocks ++ [b], ?_, hvalid', hshows⟩
  simp only [step, hbuild, Option.map_some]

/-- **The pool.**  In every run, every string that was built stays where it is. -/
theorem reads_of_run (H : Heap UInt8) {args : List (Bytes × ℕ)}
    (hsizes : ∀ arg ∈ args, arg.2 + 1 < 2 ^ 31) :
    ∃ pool blocks, run (step H) (new H, []) args = some (pool, blocks) ∧
      List.Forall₂ (fun b arg => pool.Reads b (built H arg)) blocks args := by
  have hrun : ∀ {pool : StringPool} {blocks objs}, pool.Valid → Shows pool.arena blocks objs →
      ∃ pool' blocks', run (step H) (pool, blocks) args = some (pool', blocks') ∧
        Shows pool'.arena blocks' (objs ++ args.map fun arg => (built H arg).map some) := by
    induction args with
    | nil => exact fun {pool blocks objs} _ h =>
      ⟨pool, blocks, rfl, by rwa [List.map_nil, List.append_nil]⟩
    | cons arg args ih =>
      intro pool blocks objs hvalid h
      obtain ⟨pool₁, blocks₁, hstep, hvalid₁, h₁⟩ :=
        shows_build hvalid h (hsizes arg List.mem_cons_self)
      obtain ⟨pool', blocks', hrun, hshows⟩ :=
        ih (fun a ha => hsizes a (List.mem_cons_of_mem _ ha)) hvalid₁ h₁
      refine ⟨pool', blocks', run_cons_eq_some_iff.2 ⟨_, hstep, hrun⟩, ?_⟩
      rwa [List.append_assoc] at hshows
  have hnew : Valid (new H) := ⟨_, rfl, H.length_fresh _, Nat.zero_le _⟩
  obtain ⟨pool, blocks, hrun, hshows⟩ := hrun hnew (shows_nil 0)
  refine ⟨pool, blocks, hrun,
    List.forall₂_iff_get.2 ⟨by simpa using hshows.length, fun k hk hk' i v hv => ?_⟩⟩
  have hobj : ([] ++ args.map fun arg => (built H arg).map some)[k]? =
      some ((built H args[k]).map some) := by
    rw [List.nil_append, List.getElem?_map, List.getElem?_eq_getElem hk']
    rfl
  refine (hshows.holds k _ _ (List.getElem?_eq_getElem hk) hobj).2 i v ?_
  rw [List.getElem?_map]
  exact congrArg (Option.map some) hv

/-- A short string, one longer than a page and another short one. -/
theorem reads_of_run_long : ∃ pool blocks,
    run (step (Heap.const 0)) (new (Heap.const 0), [])
        [([97, 98], 2), (List.replicate 300 99, 300), ([100], 1)] = some (pool, blocks) ∧
      List.Forall₂ (fun b arg => pool.Reads b (built (Heap.const 0) arg)) blocks
        [([97, 98], 2), (List.replicate 300 99, 300), ([100], 1)] := by
  refine reads_of_run (Heap.const 0) fun arg harg => ?_
  simp only [List.mem_cons, List.not_mem_nil, or_false] at harg
  obtain rfl | rfl | rfl := harg
  · exact show 2 + 1 < 2 ^ 31 by omega
  · exact show 300 + 1 < 2 ^ 31 by omega
  · exact show 1 + 1 < 2 ^ 31 by omega

end StringPool

end SockTestProgram
