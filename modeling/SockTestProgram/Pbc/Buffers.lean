import SockTestProgram.Lib.Blocks
import SockTestProgram.Pbc.Alloc
import SockTestProgram.Pbc.WMessage

/-!
# The buffers of messages in memory

The messages of a writer have their buffers on one heap of `alloc.c`, together with their arrays and
maps.  In every run of calls that write, the buffers are blocks of this heap that `_expand_message`
allocates and copies, and hold what was written, whatever else is allocated in between
(`Writers.blocks_of_run`).
-/

open Growing Lts Memory

namespace SockTestProgram

/-! ## What is done to a buffer -/

/-- Room is made and bytes are written at the end, in some order. -/
def Wrote (H : Heap UInt8) (b b' : Buffer UInt8) : Prop :=
  ∃ ops, run (Buffer.step H intLimit) b ops = some b'

namespace Wrote

variable {H : Heap UInt8} {b b' b'' : Buffer UInt8}

theorem refl (H : Heap UInt8) (b : Buffer UInt8) : Wrote H b b := ⟨[], rfl⟩

theorem trans (h : Wrote H b b') (h' : Wrote H b' b'') : Wrote H b b'' := by
  obtain ⟨ops, hops⟩ := h
  obtain ⟨ops', hops'⟩ := h'
  exact ⟨ops ++ ops', run_append_eq_some_iff.2 ⟨b', hops, hops'⟩⟩

theorem reserve {n : ℕ} (h : b.reserve H intLimit n = some b') : Wrote H b b' :=
  ⟨[.reserve n], run_cons_eq_some_iff.2 ⟨b', h, rfl⟩⟩

theorem put {data : Bytes} (h : b.put data = some b') : Wrote H b b' :=
  ⟨[.put data], run_cons_eq_some_iff.2 ⟨b', h, rfl⟩⟩

end Wrote

namespace WMessage

variable {H : Heap UInt8} {R : Reals} {types : PbcTypes} {m m' : WMessage} {error : Option String}

theorem wrote_putField {f : Field} {room : ℕ} {value : Option (BitVec 32 × Bytes)}
    {b b' : Buffer UInt8} (h : putField H f room value b = some b') : Wrote H b b' := by
  obtain ⟨b₁, hreserve, h⟩ := Option.bind_eq_some_iff.1 h
  have hroom : Wrote H b b₁ := .reserve hreserve
  cases value with
  | none => exact Option.some.inj h ▸ hroom
  | some value =>
    obtain ⟨b₂, hput, h⟩ := Option.bind_eq_some_iff.1 h
    exact (hroom.trans (.put hput)).trans (.put h)

/-- The array of a packed field is not in the buffer. -/
theorem out_pushPacked {f : Field} {key : String} {var : LongLong}
    (h : m.pushPacked f key var = some (m', error)) : m'.out = m.out := by
  obtain ⟨packed, -, h⟩ := Option.map_eq_some_iff.1 h
  rw [← (Prod.mk.inj h).1]

/-- A number goes to an array, is left out or goes to the buffer. -/
theorem wrote_number {f : Field} {key : String} {v : LongLong} {isDefault : Prop}
    [Decidable isDefault] {room : ℕ} {value : Option (BitVec 32 × Bytes)}
    (h : (if f.label = .packed then m.pushPacked f key v
      else if isDefault then some (m, none)
      else (putField H f room value m.out).map fun out => ({ m with out }, none)) =
        some (m', error)) : Wrote H m.out m'.out := by
  split_ifs at h
  · rw [out_pushPacked h]
    exact .refl H _
  · cases h
    exact .refl H _
  · obtain ⟨out, hout, h⟩ := Option.map_eq_some_iff.1 h
    cases h
    exact wrote_putField hout

theorem wrote_integer {key : String} {v : LongLong}
    (h : m.integer H R types key v = some (m', error)) : Wrote H m.out m'.out := by
  obtain ⟨_ | f, -, h⟩ := Option.bind_eq_some_iff.1 h
  · cases h
    exact .refl H _
  · exact wrote_number h

theorem wrote_real {key : String} {v : LongLong}
    (h : m.real H R types key v = some (m', error)) : Wrote H m.out m'.out := by
  obtain ⟨_ | f, -, h⟩ := Option.bind_eq_some_iff.1 h
  · cases h
    exact .refl H _
  · exact wrote_number h

theorem wrote_putString {f : Field} {v : Bytes} (h : m.putString H types f v = some (m', error)) :
    Wrote H m.out m'.out := by
  obtain ⟨b₁, hreserve, h⟩ := Option.bind_eq_some_iff.1 h
  have hroom : Wrote H m.out b₁ := .reserve hreserve
  split at h
  case h_1 =>
    split at h
    · cases h
      exact hroom
    · obtain ⟨b₂, htag, h⟩ := Option.bind_eq_some_iff.1 h
      obtain ⟨b₃, hid, h⟩ := Option.bind_eq_some_iff.1 h
      cases h
      exact (hroom.trans (.put htag)).trans (.put hid)
  -- a string and bytes are written alike
  case h_2 | h_3 =>
    obtain ⟨b₂, htag, h⟩ := Option.bind_eq_some_iff.1 h
    obtain ⟨b₃, hlength, h⟩ := Option.bind_eq_some_iff.1 h
    obtain ⟨b₄, hreserve', h⟩ := Option.bind_eq_some_iff.1 h
    obtain ⟨b₅, hv, h⟩ := Option.bind_eq_some_iff.1 h
    cases h
    exact (((hroom.trans (.put htag)).trans (.put hlength)).trans (.reserve hreserve')).trans
      (.put hv)
  case h_4 =>
    cases h
    exact hroom

theorem wrote_string {key : String} {v : Bytes} (h : m.string H R types key v = some (m', error)) :
    Wrote H m.out m'.out := by
  obtain ⟨_ | f, -, h⟩ := Option.bind_eq_some_iff.1 h
  · cases h
    exact .refl H _
  · simp only at h
    split_ifs at h
    · split at h
      · cases h
        exact .refl H _
      · rw [out_pushPacked h]
        exact .refl H _
    · cases h
      exact .refl H _
    all_goals
      obtain ⟨isDefault, -, h⟩ := Option.bind_eq_some_iff.1 h
      split_ifs at h
      · cases h
        exact .refl H _
      · exact wrote_putString h

end WMessage

/-! ## All messages -/

namespace Writers

variable {H : Heap UInt8} {R : Reals} {types : PbcTypes} {ws ws' : Writers}

/-- The buffers of the messages. -/
def outs (ws : Writers) : List (Buffer UInt8) := ws.msgs.map WMessage.out

/-- Buffers are made as `_wmessage_new` makes them, and written. -/
def WroteAll (H : Heap UInt8) (bs bs' : List (Buffer UInt8)) : Prop :=
  ∃ calls, run (stepAll H intLimit) bs calls = some bs' ∧ (∀ n, .new n ∈ calls → n = 64) ∧
    ∀ c ∈ calls, c.isAlloc = false

theorem wroteAll_update {i : ℕ} {f : WMessage → Written}
    (hf : ∀ m m' error, f m = some (m', error) → Wrote H m.out m'.out)
    (h : ws.update i f = some ws') : WroteAll H ws.outs ws'.outs := by
  obtain ⟨m, hm, h⟩ := Option.bind_eq_some_iff.1 h
  obtain ⟨⟨m', error⟩, hm', h⟩ := Option.bind_eq_some_iff.1 h
  cases h
  obtain ⟨ops, hops⟩ := hf m m' error hm'
  have hout : ws.outs[i]? = some m.out := by rw [outs, List.getElem?_map, hm, Option.map_some]
  refine ⟨ops.map (.on i), ?_, by simp, by simp [BufferCall.isAlloc]⟩
  rw [run_on hout hops, outs, outs, List.map_set]

theorem wroteAll_message {i : ℕ} {key : String} (h : ws.message H types i key = some ws') :
    WroteAll H ws.outs ws'.outs := by
  obtain ⟨m, hm, h⟩ := Option.bind_eq_some_iff.1 h
  obtain ⟨_ | f, -, h⟩ := Option.bind_eq_some_iff.1 h
  · cases h
    exact ⟨[], rfl, by simp, by simp⟩
  · simp only at h
    split_ifs at h
    obtain ⟨msg, -, h⟩ := Option.bind_eq_some_iff.1 h
    cases h
    refine ⟨[.new 64], ?_, by simp, by simp [BufferCall.isAlloc]⟩
    obtain ⟨hi, rfl⟩ := List.getElem?_eq_some_iff.1 hm
    have hsame : (ws.msgs.set i { ws.msgs[i] with
        sub := ws.msgs[i].sub ++ [(ws.msgs.length, f)] }).map WMessage.out = ws.outs := by
      refine List.ext_getElem (by simp [outs]) fun j hj _ => ?_
      rw [List.getElem_map, List.getElem_set]
      split_ifs with hij
      · subst hij
        simp [outs]
      · simp [outs]
    simp only [outs, List.map_append, List.map_cons, List.map_nil] at hsame ⊢
    rw [hsame]
    rfl

theorem wroteAll_step {c : WriteCall} (h : ws.step H R types c = some ws') :
    WroteAll H ws.outs ws'.outs := by
  cases c with
  | integer i key v => exact wroteAll_update (fun _ _ _ => WMessage.wrote_integer) h
  | real i key v => exact wroteAll_update (fun _ _ _ => WMessage.wrote_real) h
  | string i key v => exact wroteAll_update (fun _ _ _ => WMessage.wrote_string) h
  | message i key => exact wroteAll_message h

theorem wroteAll_of_run {typeName : String} {calls : List WriteCall}
    (hnew : Writers.new H types typeName = some ws)
    (hrun : run (step H R types) ws calls = some ws') : WroteAll H [] ws'.outs := by
  have hstart : WroteAll H [] ws.outs := by
    obtain ⟨msg, -, rfl⟩ := Option.map_eq_some_iff.1 hnew
    exact ⟨[.new 64], rfl, by simp, by simp [BufferCall.isAlloc]⟩
  refine run_invariant (I := fun ws => WroteAll H [] ws.outs) (fun ws c ws' h hstep => ?_)
    hrun hstart
  obtain ⟨calls, hcalls, hsizes, halloc⟩ := h
  obtain ⟨calls', hcalls', hsizes', halloc'⟩ := wroteAll_step hstep
  refine ⟨calls ++ calls', run_append_eq_some_iff.2 ⟨_, hcalls, hcalls'⟩, fun n hn => ?_,
    fun c hc => ?_⟩
  · exact (List.mem_append.1 hn).elim (hsizes n) (hsizes' n)
  · exact (List.mem_append.1 hc).elim (halloc c) (halloc' c)

/-- **The buffers in memory.**  The calls of a run make and write the buffers of the messages by
some calls of their own.  On a heap of pbc, with any other allocations between them, these calls
are possible, and each buffer is a block that holds what was written. -/
theorem blocks_of_run {typeName : String} {calls : List WriteCall}
    (hnew : Writers.new H types typeName = some ws)
    (hrun : run (step H R types) ws calls = some ws') :
    ∃ bufferCalls, run (stepAll H intLimit) [] bufferCalls = some ws'.outs ∧
      ∀ all, all.filter (fun c => !c.isAlloc) = bufferCalls →
        (∀ n, .alloc n ∈ all → n + 3 < 2 ^ 31) →
        ∃ h s, PbcHeap.new H 0 = some h ∧
          run (Owner.step (PbcHeap.allocator H) intLimit) ⟨h, [], []⟩ all = some s ∧
          ∀ (i : ℕ) (m : WMessage), ws'.msgs[i]? = some m →
            ∃ c, s.cursors[i]? = some c ∧ s.load (PbcHeap.allocator H) c = some m.out.written := by
  obtain ⟨bufferCalls, hcalls, hsizes, -⟩ := wroteAll_of_run hnew hrun
  refine ⟨bufferCalls, hcalls, fun all hall halloc => ?_⟩
  rw [← hall, run_filter_alloc] at hcalls
  obtain ⟨cap, hheap⟩ := PbcHeap.exists_new H (show 0 ≤ 2 ^ 30 by omega)
  have hvalid : PbcHeap.Valid ⟨⟨[H.fresh cap], 0, 0⟩, cap⟩ := ⟨_, rfl, (H.length_fresh cap).ge⟩
  have hstart : Backed (PbcHeap.allocator H) PbcHeap.Valid (fun n => 4 ∣ n ∧ n < 2 ^ 31)
      ⟨⟨⟨[H.fresh cap], 0, 0⟩, cap⟩, [], []⟩ [] [] := .nil hvalid (Pages.shows_nil 0) rfl
  have hnewSizes : ∀ n, .new n ∈ all → 0 < n ∧ 4 ∣ n ∧ n < 2 ^ 31 := by
    intro n hn
    have hmem : BufferCall.new n ∈ bufferCalls := by
      rw [← hall]
      exact List.mem_filter.2 ⟨hn, rfl⟩
    obtain rfl := hsizes n hmem
    decide
  obtain ⟨s, objs, hs, hbacked⟩ := hstart.of_run (PbcHeap.sound_allocator H)
    (fun n hn hlt => ⟨by omega, hlt⟩) (fun n hn => by omega) hnewSizes halloc hcalls
  refine ⟨_, s, hheap, hs, fun i m hm => hbacked.load ?_⟩
  rw [outs, List.getElem?_map, hm, Option.map_some]

end Writers

end SockTestProgram
