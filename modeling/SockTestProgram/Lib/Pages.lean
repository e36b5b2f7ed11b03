import Mathlib.Data.List.Basic
import SockTestProgram.Lib.Memory
import SockTestProgram.Lib.Run

/-!
# Blocks that are cut from pages

An allocator that cuts blocks from a page, one behind the other, and takes a new page where the room
does not last (`Arena`).  Who writes only inside the blocks that it got may take each for an object
of its own (`Objects`): what was written there stays, whatever is allocated and written elsewhere
(`Shows.grant`, `Shows.write`), all along a run (`Allocator.shows_of_run`).
-/

open Lts Memory

namespace Pages

variable {β : Type*}

/-- A block, by its page and the place where it starts there. -/
structure Block where
  page : ℕ
  start : ℕ
  size : ℕ
  deriving DecidableEq, Repr

structure Arena (β : Type*) where
  pages : List (List β)
  /-- The page that blocks are cut from. -/
  current : ℕ
  /-- The cells of it that are given away. -/
  used : ℕ
  deriving DecidableEq, Repr

/-- An allocation of `n` cells. -/
inductive Arena.Grants (a : Arena β) (n : ℕ) : Block → Arena β → Prop
  /-- from the page at hand -/
  | cut (cells : List β) (hcells : a.pages[a.current]? = some cells)
      (hroom : a.used + n ≤ cells.length) :
    Grants a n ⟨a.current, a.used, n⟩ { a with used := a.used + n }
  /-- from a new page, which the next blocks are cut from too -/
  | page (cells : List β) (hroom : n ≤ cells.length) :
    Grants a n ⟨a.pages.length, 0, n⟩ ⟨a.pages ++ [cells], a.pages.length, n⟩
  /-- from a page of its own -/
  | apart (cells : List β) (hroom : n ≤ cells.length) :
    Grants a n ⟨a.pages.length, 0, n⟩ { a with pages := a.pages ++ [cells] }

/-- Cells are written to a page, `none` where it ends before. -/
def Arena.write (a : Arena β) (page i : ℕ) (data : List β) : Option (Arena β) :=
  a.pages[page]?.bind fun cells =>
    if i + data.length ≤ cells.length
      then some { a with pages := a.pages.set page (store cells i data) } else none

def Arena.cell (a : Arena β) (page i : ℕ) : Option β := a.pages[page]?.bind (·[i]?)

variable {a a' : Arena β}

theorem Arena.write_eq_some_iff {page i : ℕ} {data : List β} :
    a.write page i data = some a' ↔ ∃ cells, a.pages[page]? = some cells ∧
      i + data.length ≤ cells.length ∧
      { a with pages := a.pages.set page (store cells i data) } = a' := by
  rw [write, Option.bind_eq_some_iff]
  simp only [Option.ite_none_right_eq_some, Option.some.injEq]

/-- Only the cells that are written change. -/
theorem Arena.cell_write {page i : ℕ} {data : List β} (hw : a.write page i data = some a')
    (page' j : ℕ) :
    a'.cell page' j = if page' = page ∧ i ≤ j ∧
      j < i + data.length then data[j - i]? else a.cell page' j := by
  obtain ⟨cells, hcells, hfit, rfl⟩ := write_eq_some_iff.1 hw
  unfold cell
  by_cases hpage : page = page'
  · subst hpage
    rw [List.getElem?_set_self (List.getElem?_eq_some_iff.1 hcells).1, hcells, Option.bind_some,
      Option.bind_some, getElem?_store (by omega)]
    split_ifs with h₁ h₂ h₃ h₄
    · omega
    · rfl
    · rfl
    · omega
    · omega
    · rfl
  · rw [List.getElem?_set_ne hpage, if_neg fun h => hpage h.1.symm]

/-! ## Blocks -/

/-- The cells `[i, i + n)` of a page and a block have none in common. -/
def Block.Misses (b : Block) (page i n : ℕ) : Prop :=
  b.page = page → b.start + b.size ≤ i ∨ i + n ≤ b.start

/-- All blocks are in pages, behind each other. -/
structure Arena.Gave (a : Arena β) (blocks : List Block) : Prop where
  current : a.current < a.pages.length
  inside : ∀ b ∈ blocks, ∃ cells, a.pages[b.page]? = some cells ∧ b.start + b.size ≤ cells.length
  behind : ∀ b ∈ blocks, b.page = a.current → b.start + b.size ≤ a.used
  apart : blocks.Pairwise fun b c => b.Misses c.page c.start c.size

variable {blocks : List Block} {b c : Block} {n : ℕ}

theorem Block.Misses.symm (h : b.Misses c.page c.start c.size) : c.Misses b.page b.start b.size :=
  fun hpage => (h hpage.symm).symm

theorem Arena.Gave.page_lt (h : a.Gave blocks) (hb : b ∈ blocks) : b.page < a.pages.length := by
  obtain ⟨cells, hcells, -⟩ := h.inside b hb
  exact (List.getElem?_eq_some_iff.1 hcells).1

theorem getElem?_append_page {pages : List (List β)} {cells new : List β} {i : ℕ}
    (h : pages[i]? = some cells) :
    (pages ++ [new])[i]? = some cells := by
  rw [List.getElem?_append_left (List.getElem?_eq_some_iff.1 h).1, h]

/-- A new block is behind the others. -/
theorem Arena.Gave.grant (h : a.Gave blocks) (hg : a.Grants n b a') : a'.Gave (blocks ++ [b]) := by
  have hapart (hmiss : ∀ c ∈ blocks, c.Misses b.page b.start b.size) :
      (blocks ++ [b]).Pairwise fun b c => b.Misses c.page c.start c.size :=
    List.pairwise_append.2 ⟨h.apart, List.pairwise_singleton _ _, by simpa using hmiss⟩
  have hnew (cells : List β) (hroom : n ≤ cells.length) : ∀ c ∈ blocks ++ [⟨a.pages.length, 0, n⟩],
      ∃ cells', (a.pages ++ [cells])[c.page]? = some cells' ∧ c.start + c.size ≤ cells'.length := by
    intro c hc
    obtain hc | hc := List.mem_append.1 hc
    · obtain ⟨cells', hcells', hle⟩ := h.inside c hc
      exact ⟨cells', getElem?_append_page hcells', hle⟩
    · obtain rfl := List.mem_singleton.1 hc
      exact ⟨cells, by simp, by simpa using hroom⟩
  have hmiss : ∀ c ∈ blocks, c.Misses a.pages.length 0 n :=
    fun c hc hpage => absurd (h.page_lt hc) (by omega)
  cases hg with
  | cut cells hcells hroom =>
    refine ⟨h.current, fun c hc => ?_, fun c hc hpage => ?_,
      hapart fun c hc hpage => .inl (h.behind c hc hpage)⟩
    · obtain hc | hc := List.mem_append.1 hc
      · exact h.inside c hc
      · obtain rfl := List.mem_singleton.1 hc
        exact ⟨cells, hcells, hroom⟩
    · obtain hc | hc := List.mem_append.1 hc
      · exact (h.behind c hc hpage).trans (Nat.le_add_right _ _)
      · obtain rfl := List.mem_singleton.1 hc
        exact le_rfl
  | page cells hroom =>
    refine ⟨by simp, hnew cells hroom, fun c hc hpage => ?_, hapart hmiss⟩
    obtain hc | hc := List.mem_append.1 hc
    · exact absurd (hpage : c.page = a.pages.length) (h.page_lt hc).ne
    · obtain rfl := List.mem_singleton.1 hc
      exact (Nat.zero_add n).le
  | apart cells hroom =>
    have hcurrent := h.current
    have hlt : a.current < (a.pages ++ [cells]).length := by
      rw [List.length_append]
      omega
    refine ⟨hlt, hnew cells hroom, fun c hc hpage => ?_, hapart hmiss⟩
    obtain hc | hc := List.mem_append.1 hc
    · exact h.behind c hc hpage
    · obtain rfl := List.mem_singleton.1 hc
      exact absurd (hpage : a.pages.length = a.current) hcurrent.ne'

/-- Writing moves no block. -/
theorem Arena.Gave.write (h : a.Gave blocks) {page i : ℕ} {data : List β}
    (hw : a.write page i data = some a') :
    a'.Gave blocks := by
  obtain ⟨cells, hcells, hfit, rfl⟩ := Arena.write_eq_some_iff.1 hw
  refine ⟨by simpa using h.current, fun b hb => ?_, h.behind, h.apart⟩
  obtain ⟨cells', hcells', hle⟩ := h.inside b hb
  by_cases hpage : page = b.page
  · subst hpage
    obtain rfl := Option.some.inj (hcells.symm.trans hcells')
    exact ⟨_, List.getElem?_set_self (List.getElem?_eq_some_iff.1 hcells).1,
      by rwa [length_store hfit]⟩
  · exact ⟨cells', by rw [List.getElem?_set_ne hpage, hcells'], hle⟩

/-! ## Objects -/

/-- What is known of the blocks, each for itself: the cells that were written. -/
abbrev Objects (β : Type*) : Type _ := List (List (Option β))

/-- What the client of an allocator does. -/
inductive Call (β : Type*)
  | alloc (n : ℕ)
  /-- to the block that was allocated as the `k`th, from a place on -/
  | write (k i : ℕ) (data : List β)
  deriving DecidableEq, Repr

/-- A new object holds nothing yet.  There is no result where cells outside an object are
written. -/
def Objects.step (objs : Objects β) : Call β → Option (Objects β)
  | .alloc n => some (objs ++ [List.replicate n none])
  | .write k i data =>
    objs[k]?.bind fun obj =>
      if i + data.length ≤ obj.length then some (objs.set k (store obj i (data.map some))) else none

/-- The block holds what is known of the object. -/
def Arena.Holds (a : Arena β) (b : Block) (obj : List (Option β)) : Prop :=
  obj.length ≤ b.size ∧ ∀ i v, obj[i]? = some (some v) → a.cell b.page (b.start + i) = some v

/-- The blocks hold what is known of the objects. -/
structure Shows (a : Arena β) (blocks : List Block) (objs : Objects β) : Prop where
  gave : a.Gave blocks
  length : blocks.length = objs.length
  holds : ∀ (k : ℕ) (b : Block) (obj : List (Option β)), blocks[k]? = some b → objs[k]? = some obj →
    a.Holds b obj

variable {objs objs' : Objects β}

theorem Arena.Gave.misses (h : a.Gave blocks) {j k : ℕ} (hb : blocks[j]? = some b)
    (hc : blocks[k]? = some c) (hne : j ≠ k) : b.Misses c.page c.start c.size := by
  obtain ⟨hj, rfl⟩ := List.getElem?_eq_some_iff.1 hb
  obtain ⟨hk, rfl⟩ := List.getElem?_eq_some_iff.1 hc
  obtain hlt | hlt := Nat.lt_or_gt_of_ne hne
  · exact List.pairwise_iff_getElem.1 h.apart j k hj hk hlt
  · exact (List.pairwise_iff_getElem.1 h.apart k j hk hj hlt).symm

/-- An allocation leaves the cells of all pages as they are. -/
theorem Arena.Grants.keeps (hg : a.Grants n b a') {page : ℕ} {cells : List β}
    (h : a.pages[page]? = some cells) :
    a'.pages[page]? = some cells := by
  cases hg with
  | cut => exact h
  | page => exact getElem?_append_page h
  | apart => exact getElem?_append_page h

theorem Arena.Grants.size_eq (hg : a.Grants n b a') : b.size = n := by
  cases hg <;> rfl

theorem Arena.Holds.of_keeps {obj : List (Option β)} (h : a.Holds b obj)
    (hkeeps : ∀ cells, a.pages[b.page]? = some cells → a'.pages[b.page]? = some cells) :
    a'.Holds b obj := by
  refine ⟨h.1, fun i v hv => ?_⟩
  obtain ⟨cells, hcells, hcell⟩ := Option.bind_eq_some_iff.1 (h.2 i v hv)
  rw [Arena.cell, hkeeps cells hcells]
  exact hcell

theorem shows_nil {cells : List β} (i : ℕ) : Shows ⟨[cells], 0, i⟩ [] [] :=
  ⟨⟨Nat.one_pos, by simp, by simp, .nil⟩, rfl, by simp⟩

/-- **Allocation.**  A block of the arena, which may be larger, is a new object. -/
theorem Shows.grant (h : Shows a blocks objs) {m : ℕ} (hg : a.Grants m b a') (hle : n ≤ m) :
    Shows a' (blocks ++ [b]) (objs ++ [List.replicate n none]) := by
  refine ⟨h.gave.grant hg, by simp [h.length], fun k c obj hc hobj => ?_⟩
  by_cases hk : k < blocks.length
  · rw [List.getElem?_append_left hk] at hc
    rw [List.getElem?_append_left (h.length ▸ hk)] at hobj
    exact (h.holds k c obj hc hobj).of_keeps fun _ => hg.keeps
  · have hk := Nat.le_of_not_lt hk
    rw [List.getElem?_append_right hk] at hc
    rw [List.getElem?_append_right (h.length ▸ hk), ← h.length] at hobj
    obtain ⟨-, rfl⟩ := List.getElem?_eq_some_iff.1 hc
    obtain ⟨-, rfl⟩ := List.getElem?_eq_some_iff.1 hobj
    simp only [List.getElem_singleton]
    refine ⟨by rw [List.length_replicate, hg.size_eq]; exact hle, fun i v hv => ?_⟩
    rw [List.getElem?_replicate] at hv
    split_ifs at hv
    cases Option.some.inj hv

/-- **Writing.**  What is written inside an object is written to its block, and nothing else
changes. -/
theorem Shows.write (h : Shows a blocks objs) {k i : ℕ} {data : List β}
    (hs : objs.step (.write k i data) = some objs') :
    ∃ b a', blocks[k]? = some b ∧ a.write b.page (b.start + i) data = some a' ∧
      Shows a' blocks objs' := by
  obtain ⟨obj, hobj, hs⟩ := Option.bind_eq_some_iff.1 hs
  rw [Option.ite_none_right_eq_some] at hs
  obtain ⟨hfit, hs⟩ := hs
  obtain rfl := Option.some.inj hs
  obtain ⟨hk, -⟩ := List.getElem?_eq_some_iff.1 hobj
  obtain ⟨b, hb⟩ : ∃ b, blocks[k]? = some b := ⟨_, List.getElem?_eq_getElem (h.length ▸ hk)⟩
  obtain ⟨hsize, hcells⟩ := h.holds k b obj hb hobj
  obtain ⟨cells, hpage, hinside⟩ := h.gave.inside b (List.mem_of_getElem? hb)
  have hw := Arena.write_eq_some_iff.2 ⟨cells, hpage,
    show b.start + i + data.length ≤ cells.length by omega, rfl⟩
  refine ⟨b, _, hb, hw, h.gave.write hw, by rw [List.length_set, h.length],
    fun j c obj' hc hobj' => ?_⟩
  by_cases hjk : k = j
  · -- the cells of the object itself
    subst hjk
    obtain rfl := Option.some.inj (hb.symm.trans hc)
    rw [List.getElem?_set_self hk] at hobj'
    obtain rfl := Option.some.inj hobj'
    have hfit' : i + (data.map some).length ≤ obj.length := by rwa [List.length_map]
    refine ⟨by rwa [length_store hfit'], fun m v hv => ?_⟩
    rw [getElem?_store (by omega), List.length_map, List.getElem?_map] at hv
    rw [Arena.cell_write hw]
    split_ifs at hv with h₁ h₂
    · rw [if_neg (by omega)]
      exact hcells m v hv
    · rw [if_pos (by omega), Nat.add_sub_add_left]
      exact Option.map_injective (Option.some_injective _) hv
    · rw [if_neg (by omega)]
      exact hcells m v hv
  · -- another object, whose block has none of the cells
    rw [List.getElem?_set_ne hjk] at hobj'
    obtain ⟨hsize', hcells'⟩ := h.holds j c obj' hc hobj'
    have hmiss := h.gave.misses hb hc hjk
    refine ⟨hsize', fun m v hv => ?_⟩
    have hm := (List.getElem?_eq_some_iff.1 hv).1
    rw [Arena.cell_write hw, if_neg]
    · exact hcells' m v hv
    · rintro ⟨hpage', hge, hlt⟩
      have := hmiss hpage'.symm
      omega

/-! ## Allocators -/

/-- An allocator with an arena, and the blocks that its client got. -/
structure Allocator (σ β : Type*) where
  arena : σ → Arena β
  setArena : σ → Arena β → σ
  alloc : σ → ℕ → Option (Block × σ)

namespace Allocator

variable {σ : Type*} (A : Allocator σ β)

/-- A call of the client, which writes through the pointers that it got. -/
def step (s : σ × List Block) : Call β → Option (σ × List Block)
  | .alloc n => (A.alloc s.1 n).map fun r => (r.2, s.2 ++ [r.1])
  | .write k i data =>
    s.2[k]?.bind fun b => ((A.arena s.1).write b.page (b.start + i) data).map fun a =>
      (A.setArena s.1 a, s.2)

/-- Allocations of some sizes go well under an invariant. -/
structure Sound (I : σ → Prop) (P : ℕ → Prop) : Prop where
  arena_setArena : ∀ s a, A.arena (A.setArena s a) = a
  write : ∀ s a' page i data, I s → (A.arena s).write page i data = some a' → I (A.setArena s a')
  alloc : ∀ s n, I s → P n → ∃ b s' m, A.alloc s n = some (b, s') ∧ n ≤ m ∧
    (A.arena s).Grants m b (A.arena s') ∧ I s'

variable {A} {I : σ → Prop} {P : ℕ → Prop} {s : σ}

theorem Sound.step (hA : A.Sound I P) (hI : I s) (h : Shows (A.arena s) blocks objs) {c : Call β}
    (hc : ∀ n, c = .alloc n → P n) (hs : objs.step c = some objs') :
    ∃ s' blocks', A.step (s, blocks) c = some (s', blocks') ∧ I s' ∧
      Shows (A.arena s') blocks' objs' := by
  cases c with
  | alloc n =>
    obtain rfl := Option.some.inj hs
    obtain ⟨b, s', m, halloc, hle, hg, hI'⟩ := hA.alloc s n hI (hc n rfl)
    exact ⟨s', blocks ++ [b], by simp only [Allocator.step, halloc, Option.map_some], hI',
      h.grant hg hle⟩
  | write k i data =>
    obtain ⟨b, a', hb, hw, hshows⟩ := h.write hs
    refine ⟨A.setArena s a', blocks, ?_, hA.write s a' _ _ _ hI hw, ?_⟩
    · simp only [Allocator.step, hb, Option.bind_some, hw, Option.map_some]
    · rwa [hA.arena_setArena]

/-- **Every block is an object of its own**, in every run of allocations and of writes inside the
blocks. -/
theorem Sound.shows_of_run (hA : A.Sound I P) (hI : I s) (h : Shows (A.arena s) blocks objs)
    {calls : List (Call β)} (hcalls : ∀ n, .alloc n ∈ calls → P n)
    (hrun : run Objects.step objs calls = some objs') :
    ∃ s' blocks', run A.step (s, blocks) calls = some (s', blocks') ∧ I s' ∧
      Shows (A.arena s') blocks' objs' := by
  induction calls generalizing s blocks objs with
  | nil =>
    obtain rfl := Option.some.inj hrun
    exact ⟨s, blocks, rfl, hI, h⟩
  | cons c calls ih =>
    obtain ⟨objs₁, hstep, hrest⟩ := run_cons_eq_some_iff.1 hrun
    obtain ⟨s₁, blocks₁, hs₁, hI₁, h₁⟩ :=
      hA.step hI h (fun n hn => hcalls n (by simp [hn])) hstep
    obtain ⟨s', blocks', hs', hI', h'⟩ := ih hI₁ h₁ (fun n hn => hcalls n (by simp [hn])) hrest
    exact ⟨s', blocks', run_cons_eq_some_iff.2 ⟨_, hs₁, hs'⟩, hI', h'⟩

end Allocator

end Pages
