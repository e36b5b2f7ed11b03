import SockTestProgram.Socket.Flags
import SockTestProgram.Socket.SockSessionManager

/-!
# The read chain of a session in a run of the program

At most one `async_read` of a session is outstanding.  As long as one of the body is, the session
leaves `buffer_` alone, and once `socket_failed_` is set the session is dead: it reads no more and
calls no callback (`read_chain`).
-/

open Memory Lts

namespace SockTestProgram

variable {P : Platform}

/-- An `async_read`, not an `async_connect`. -/
def ReadOp.isRead : ReadOp → Bool
  | .connect => false
  | .read _ _ _ => true

/-- The number of bytes that an `async_read` into `buffer_` asks for. -/
def ReadOp.bodySize : ReadOp → Option ℕ
  | .read .body size _ => some size
  | _ => none

namespace Connection

variable {c c' : Connection}

/-- The `async_read`s that are outstanding. -/
def asyncReads (c : Connection) : List (Outstanding ReadOp) := c.reads.filter fun p => p.op.isRead

/-- An `async_read` of `size` bytes into `buffer_` is outstanding. -/
def ReadsBody (c : Connection) (size : ℕ) : Prop := ∃ p ∈ c.reads, p.op.bodySize = some size

instance (c : Connection) (size : ℕ) : Decidable (c.ReadsBody size) :=
  inferInstanceAs (Decidable (∃ p ∈ c.reads, _))

theorem Chain.length_asyncReads_le (h : c.Chain) : c.asyncReads.length ≤ 1 := by
  apply (List.length_filter_le _ _).trans
  obtain h | ⟨p, h, -⟩ := h
  · simp [h]
  · simp [h]

/-- A read of the body asks for the size of `buffer_`. -/
theorem Chain.size_eq (h : c.Chain) {size : ℕ} (hb : c.ReadsBody size) :
    c.session.buffer.length = size := by
  obtain ⟨⟨op, finished⟩, hp, hsize⟩ := hb
  obtain ⟨i, hi⟩ := List.mem_iff_getElem?.1 hp
  obtain ⟨-, -, hok⟩ := h.eq_singleton hi
  obtain _ | ⟨_ | _, size', got⟩ := op
  · cases hsize
  · cases hsize
  · exact hok.1.symm.trans (Option.some.inj hsize)

/-! ## After a failure -/

/-- A session that reads nothing any more: no event changes it or makes it call Lua. -/
theorem failed_step {e : Event} (h : c.Live) (hf : c.session.socketFailed = true)
    (hs : c.step P e = some c') :
    c'.session.socketFailed = true ∧ c'.upcalls = c.upcalls := by
  have hnone {i : ℕ} {p : Outstanding ReadOp} : c.reads[i]? ≠ some p := by
    rw [h.failed hf]
    simp
  cases readSide_of_step hs with
  | connectDone hi => exact absurd hi hnone
  | readSome hi => exact absurd hi hnone
  | readFail hi => exact absurd hi hnone
  | runRead hi => exact absurd hi hnone
  | runClosed => exact ⟨hf, rfl⟩
  | other _ hsame => exact ⟨hsame.session ▸ hf, hsame.upcalls⟩

/-! ## While a body is read -/

/-- Only the handler of the read touches `buffer_` while the read is outstanding. -/
theorem readsBody_step {e : Event} {size : ℕ} (h : c.Chain) (hb : c.ReadsBody size)
    (hs : c.step P e = some c') (he : ∀ i, e ≠ .runRead i) :
    c'.ReadsBody size ∧ c'.session.buffer = c.session.buffer := by
  obtain ⟨p, hp, hsize⟩ := hb
  have hset {i : ℕ} {q : Outstanding ReadOp} (finished : Option Bool) {op : ReadOp}
      (hi : c.reads[i]? = some q) (hop : q.op.bodySize = op.bodySize) :
      ∃ p ∈ c.reads.set i ⟨op, finished⟩, p.op.bodySize = some size := by
    obtain ⟨rfl, hr, -⟩ := h.eq_singleton hi
    obtain rfl : p = q := by simpa [hr] using hp
    exact ⟨⟨op, finished⟩, by simp [hr], hop ▸ hsize⟩
  cases readSide_of_step hs with
  | connectDone hi => exact ⟨hset _ hi rfl, rfl⟩
  | @readSome i k target _ _ hi =>
    refine ⟨hset _ hi ?_, rfl⟩
    cases target <;> rfl
  | readFail hi => exact ⟨hset _ hi rfl, rfl⟩
  | @runRead i => exact absurd rfl (he i)
  | runClosed => exact ⟨⟨p.abort, List.mem_map_of_mem hp, hsize⟩, rfl⟩
  | other _ hsame =>
    refine ⟨⟨p, ?_, hsize⟩, by rw [hsame.session]⟩
    rw [hsame.reads]
    exact hp

end Connection

namespace SockSessionManager

variable {m m' : SockSessionManager}

/-- What the events of a run that are of kind `A` for a session keep of the session. -/
theorem session_keeps {I : Connection → Prop} {A : Event → Prop}
    (hstep : ∀ c e c', I c → A e → c.step P e = some c' → I c') {es : List ManagerEvent} {j : ℕ}
    {c : Connection} (hs : run (step P) m es = some m')
    (hA : ∀ e ∈ es, ∀ m, ∀ f ∈ eventAt m j e, A f) (hc : m.sessions[j]? = some c) (hI : I c) :
    ∃ c', m'.sessions[j]? = some c' ∧ I c' := by
  induction es generalizing m c with
  | nil =>
    obtain rfl := Option.some.inj hs
    exact ⟨c, hc, hI⟩
  | cons e es ih =>
    obtain ⟨m₁, hm₁, hrest⟩ := run_cons_eq_some_iff.1 hs
    obtain ⟨c₁, hc₁, hrun₁⟩ := step_session hm₁ hc
    apply ih hrest (fun f hf => hA f (List.mem_cons_of_mem _ hf)) hc₁
    refine run_invariant_of hstep hrun₁ hI (allSteps_of_forall (fun f hf _ => ?_) c)
    exact hA e (by simp) m f (by simpa using hf)

/-- **The read chain.**  At any time in a run a session has at most one `async_read` outstanding.
One of the body asks for exactly the size of `buffer_`, and `buffer_` stays as it is until its
handler runs.  Once `socket_failed_` is set it stays set, no read is outstanding, and neither
callback is called. -/
theorem read_chain {es : List ManagerEvent} (hrun : run (step P) start es = some m) {j : ℕ}
    {c : Connection} (hc : m.sessions[j]? = some c) :
    c.asyncReads.length ≤ 1 ∧
      (∀ size, c.ReadsBody size → c.session.buffer.length = size ∧
        ∀ fs m', run (step P) m fs = some m' → (∀ i, .asio j (.runRead i) ∉ fs) →
          ∃ c', m'.sessions[j]? = some c' ∧ c'.ReadsBody size ∧
            c'.session.buffer = c.session.buffer) ∧
      (c.session.socketFailed = true → ∀ fs m', run (step P) m fs = some m' →
        ∃ c', m'.sessions[j]? = some c' ∧ c'.session.socketFailed = true ∧ c'.asyncReads = [] ∧
          c'.upcalls = c.upcalls) := by
  obtain ⟨host, port, serverID, description, fs₀, hrun₀⟩ := session_of_run hrun hc
  have hlive : c.Live := run_invariant (fun _ _ _ => Connection.live_step) hrun₀
    (Connection.live_connecting host port serverID description)
  refine ⟨hlive.chain.length_asyncReads_le, fun size hb => ⟨hlive.chain.size_eq hb, ?_⟩, ?_⟩
  · intro fs m' hfs hno
    have hcalls : ∀ e ∈ fs, ∀ n, ∀ f ∈ eventAt n j e, ∀ i, f ≠ .runRead i := by
      rintro e he n _ hf i rfl
      -- a call from outside is not a handler
      cases e with
      | asio k e =>
        simp only [eventAt, Option.mem_def, Option.ite_none_right_eq_some, Option.some.injEq] at hf
        obtain ⟨rfl, rfl⟩ := hf
        exact hno i he
      | _ => simp [eventAt] at hf
    obtain ⟨c', hc', -, hbody⟩ := session_keeps (P := P)
      (I := fun d => d.Chain ∧ d.ReadsBody size ∧ d.session.buffer = c.session.buffer)
      (fun d e d' hd he hs => by
        obtain ⟨hb', hbuf'⟩ := Connection.readsBody_step hd.1 hd.2.1 hs he
        exact ⟨Connection.chain_step hd.1 hs, hb', hbuf'.trans hd.2.2⟩)
      hfs hcalls hc ⟨hlive.chain, hb, rfl⟩
    exact ⟨c', hc', hbody⟩
  · intro hf fs m' hfs
    obtain ⟨c', hc', hlive', hf', hu⟩ := session_keeps (P := P) (A := fun _ => True)
      (I := fun d => d.Live ∧ d.session.socketFailed = true ∧ d.upcalls = c.upcalls)
      (fun d e d' hd _ hs => by
        obtain ⟨hf', hu'⟩ := Connection.failed_step hd.1 hd.2.1 hs
        exact ⟨Connection.live_step hd.1 hs, hf', hu'.trans hd.2.2⟩)
      hfs (fun _ _ _ _ _ => trivial) hc ⟨hlive, hf, rfl⟩
    exact ⟨c', hc', hf', by simp [Connection.asyncReads, hlive'.failed hf'], hu⟩

/-- A session that has got a header and waits for the five bytes of a body. -/
theorem read_chain_of_header :
    let P : Platform := ⟨Heap.const 0, .little, headerLengthFix⟩
    let es := [ManagerEvent.connectTo "a" "1" "A" "", .asio 0 (.connectDone 0),
      .asio 0 (.runRead 0), .asio 0 (.arrive [0, 0, 0, 5]), .asio 0 (.readSome 0 4),
        .asio 0 (.runRead 0)]
    ∃ m c, run (step P) start es = some m ∧ m.sessions[0]? = some c ∧ c.asyncReads.length = 1 ∧
      c.ReadsBody 5 ∧ c.session.buffer.length = 5 ∧ c.asyncReads.length ≤ 1 := by
  intro P es
  have h : ∃ m, run (step P) start es = some m ∧ ∃ c, m.sessions[0]? = some c ∧
      c.asyncReads.length = 1 ∧ c.ReadsBody 5 :=
    exists_run_of_any (by decide +kernel)
  obtain ⟨m, hrun, c, hc, hone, hb⟩ := h
  obtain ⟨hle, hbody, -⟩ := read_chain hrun hc
  exact ⟨m, c, hrun, hc, hone, hb, (hbody 5 hb).1, hle⟩

end SockSessionManager

end SockTestProgram
