import SockTestProgram.Socket.SockSessionManager

/-!
# Replaced sessions

`connectTo` posts `handle_closed` for the session that it replaces, and the handlers of that session
never ask whether it was replaced.  So the session goes on until `handle_closed` has run, and a
completion that is waiting then with success still has its effect: at most one more call into Lua
(`replaced_goes_silent`).
-/

open Memory Lts

namespace SockTestProgram

variable {P : Platform}

namespace Connection

variable {c c' : Connection}

/-! ## Closed sockets -/

/-- The socket is closed, and the operation outstanding, if there is one, is finished. -/
def Closed (c : Connection) : Prop :=
  c.isOpen = false ∧ (c.reads = [] ∨ ∃ op error, c.reads = [⟨op, some error⟩])

/-- How many operations finished with success and wait for their handlers. -/
def ready (c : Connection) : ℕ := c.reads.countP fun p => p.finished = some false

/-- Nothing is in progress on a closed socket. -/
structure Settled (c : Connection) : Prop where
  chain : c.Chain
  closed : c.isOpen = false → c.Closed

theorem Closed.eraseIdx (h : c.Closed) {i : ℕ} {op : ReadOp} {error : Bool}
    (hi : c.reads[i]? = some ⟨op, some error⟩) :
    c.reads.eraseIdx i = [] ∧ c.ready = if error then 0 else 1 := by
  obtain ⟨-, hnil | ⟨op', error', hr⟩⟩ := h
  · simp [hnil] at hi
  · rw [hr, List.getElem?_singleton] at hi
    split_ifs at hi with h0
    obtain ⟨rfl, rfl⟩ : op' = op ∧ error' = error := by simpa using hi
    refine ⟨by simp [hr, h0], ?_⟩
    cases error' <;> simp [ready, hr]

theorem Closed.not_inProgress (h : c.Closed) {i : ℕ} {op : ReadOp} :
    c.reads[i]? ≠ some ⟨op, none⟩ := by
  intro hi
  obtain ⟨-, hnil | ⟨op', error', hr⟩⟩ := h
  · simp [hnil] at hi
  · have := List.mem_of_getElem? hi
    simp [hr] at this

theorem Closed.of_eq (h : c.Closed) (ho : c'.isOpen = c.isOpen) (hr : c'.reads = c.reads) :
    c'.Closed ∧ c'.ready = c.ready := by
  rw [Closed, ready, ready, ho, hr]
  exact ⟨h, rfl⟩

/-- A read started on a closed socket finishes at once, with success only if it is empty. -/
theorem closed_startRead (ho : c.isOpen = false) (hr : c.reads = []) (target : Target) (size : ℕ) :
    (c.startRead target size).Closed ∧
      (c.startRead target size).ready = if size = 0 then 1 else 0 := by
  have hbegun : c.begun size = some (decide (size ≠ 0)) := by
    unfold begun
    split_ifs <;> simp_all
  refine ⟨⟨ho, .inr ⟨_, _, by rw [startRead, hr, hbegun]; rfl⟩⟩, ?_⟩
  simp only [ready, startRead, hr, hbegun]
  split_ifs <;> simp_all

/-- On a closed socket only the handler of a successful operation calls into Lua or starts a read
that is successful, and it does one of the two at most. -/
theorem Handled.closed {s : SockSession} {op : ReadOp} {error : Bool}
    (h : Handled P c s op error c') (ho : c.isOpen = false) (hr : c.reads = []) :
    c'.Closed ∧ ∃ more, c'.upcalls = c.upcalls ++ more ∧
      more.length + c'.ready ≤ if error then 0 else 1 := by
  cases h with
  | connected | body =>
    obtain ⟨hc, hn⟩ := closed_startRead (c := { c with session := s, upcalls := _ }) ho hr .head 4
    exact ⟨hc, [_], rfl, le_of_eq (congrArg (1 + ·) hn)⟩
  | timeout =>
    obtain ⟨hc, hn⟩ := closed_startRead
      (c := { c with session := { s with connectingTimeout := true } }) ho hr .head 4
    exact ⟨hc, [], (List.append_nil _).symm, le_of_eq (congrArg (0 + ·) hn)⟩
  | header =>
    set size := sizeT (s.bodySize P).toInt
    obtain ⟨hc, hn⟩ := closed_startRead (c := { c with
      session := { s with buffer := resizeString s.buffer size } }) ho hr .body size
    refine ⟨hc, [], (List.append_nil _).symm, (congrArg (0 + ·) hn).trans_le ?_⟩
    by_cases h0 : size = 0 <;> simp [h0]
  | thrown | failed =>
    exact ⟨⟨ho, .inl hr⟩, [], (List.append_nil _).symm, by simp [ready, hr]⟩

/-- On a closed socket every event uses up as many successful operations as it calls into Lua. -/
theorem closed_step {e : Event} (h : c.Closed) (hs : c.step P e = some c') :
    c'.Closed ∧ ∃ more, c'.upcalls = c.upcalls ++ more ∧ more.length + c'.ready ≤ c.ready := by
  have hsame (ho : c'.isOpen = c.isOpen) (hr : c'.reads = c.reads) (hu : c'.upcalls = c.upcalls) :
      c'.Closed ∧ ∃ more, c'.upcalls = c.upcalls ++ more ∧ more.length + c'.ready ≤ c.ready := by
    obtain ⟨hc, hn⟩ := h.of_eq ho hr
    exact ⟨hc, [], by rw [hu, List.append_nil], by simp [hn]⟩
  cases readSide_of_step hs with
  | connectDone hi | readSome hi _ | readFail hi => exact absurd hi h.not_inProgress
  | runRead hi hhandled =>
    obtain ⟨hnil, hready⟩ := h.eraseIdx hi
    rw [hready]
    exact hhandled.closed h.1 hnil
  | runClosed =>
    have hreads : c.reads.map Outstanding.abort = c.reads := by
      obtain ⟨-, hnil | ⟨op, error, hr⟩⟩ := h
      · rw [hnil, List.map_nil]
      · rw [hr]
        rfl
    exact hsame h.1.symm hreads rfl
  | other _ hside => exact hsame hside.isOpen hside.reads hside.upcalls

theorem closed_run {es : List Event} (h : c.Closed) (hs : run (step P) c es = some c') :
    ∃ more, c'.upcalls = c.upcalls ++ more ∧ more.length + c'.ready ≤ c.ready := by
  induction es generalizing c with
  | nil =>
    obtain rfl := Option.some.inj hs
    exact ⟨[], (List.append_nil _).symm, by simp⟩
  | cons e es ih =>
    obtain ⟨m, hm, hrest⟩ := run_cons_eq_some_iff.1 hs
    obtain ⟨hclosed, more, hmore, hle⟩ := closed_step h hm
    obtain ⟨more', hmore', hle'⟩ := ih hclosed hrest
    refine ⟨more ++ more', by rw [hmore', hmore, List.append_assoc], ?_⟩
    rw [List.length_append]
    omega

/-! ## Requests to close -/

/-- Only `handle_closed` closes the socket, and only it takes a request to close back. -/
theorem isOpen_step {e : Event} (hs : c.step P e = some c') :
    (c'.isOpen = c.isOpen ∧ c.posted ≤ c'.posted) ∨
      e = .runClosed ∧ c'.isOpen = false ∧ c'.reads = c.reads.map .abort := by
  cases readSide_of_step hs with
  | connectDone | readSome | readFail => exact .inl ⟨rfl, le_rfl⟩
  | runRead hi hhandled =>
    obtain ⟨⟨hopen, -, hposted⟩, -⟩ := hhandled.frame
    exact .inl ⟨hopen, hposted.ge⟩
  | runClosed => exact .inr ⟨rfl, rfl, rfl⟩
  | other _ hsame => exact .inl ⟨hsame.isOpen, hsame.posted⟩

theorem settled_step {e : Event} (h : c.Settled) (hs : c.step P e = some c') : c'.Settled := by
  refine ⟨chain_step h.chain hs, fun ho' => ?_⟩
  rcases isOpen_step hs with ⟨ho, -⟩ | ⟨-, -, hr⟩
  · exact (closed_step (h.closed (ho ▸ ho')) hs).1
  · -- closing the socket finishes the operation outstanding
    refine ⟨ho', ?_⟩
    obtain hnil | ⟨⟨op, finished⟩, hp, -⟩ := h.chain
    · exact .inl (by rw [hr, hnil, List.map_nil])
    · exact .inr ⟨op, finished.getD true, by rw [hr, hp]; rfl⟩

theorem settled_connecting (host port serverID description : String) :
    (connecting P host port serverID description).Settled :=
  ⟨chain_connecting _ _ _ _, fun h => absurd h (by simp [connecting, after, SockSession.connect,
    idle, perform])⟩

/-- The session is closed, or `handle_closed` is posted. -/
def CloseRequested (c : Connection) : Prop := c.isOpen = false ∨ 0 < c.posted

theorem closeRequested_step {e : Event} (h : c.CloseRequested) (hs : c.step P e = some c') :
    c'.CloseRequested := by
  rcases isOpen_step hs with ⟨ho, hp⟩ | ⟨-, ho, -⟩
  · exact h.imp (ho.trans ·) (lt_of_lt_of_le · hp)
  · exact .inl ho

end Connection

namespace SockSessionManager

variable {m m' : SockSessionManager}

/-! ## Replaced sessions -/

/-- Every session but the current one is closed or has `handle_closed` posted. -/
def ReplacedClosing (m : SockSessionManager) : Prop :=
  ∀ j c, m.sessions[j]? = some c → m.ptr ≠ some j → c.CloseRequested

theorem replacedClosing_step {e : ManagerEvent} (h : m.ReplacedClosing)
    (hs : m.step P e = some m') : m'.ReplacedClosing := by
  intro j c' hc' hptr'
  rcases session_of_step hs hc' with ⟨c, hc⟩ | ⟨host, port, serverID, description, rfl, rfl, rfl⟩
  · obtain ⟨c'', hc'', hrun⟩ := step_session hs hc
    obtain rfl := Option.some.inj (hc''.symm.trans hc')
    by_cases hptr : m.ptr = some j
    · -- only `connectTo` replaces the current session
      obtain ⟨host, port, serverID, description, rfl⟩ :
          ∃ host port serverID description, e = .connectTo host port serverID description := by
        cases stepped_of_step hs with
        | connectTo => exact ⟨_, _, _, _, rfl⟩
        | write | asio => exact absurd hptr hptr'
      simp only [eventAt, hptr, if_true, Option.toList_some] at hrun
      obtain ⟨d, hstep, hrest⟩ := run_cons_eq_some_iff.1 hrun
      obtain rfl := Option.some.inj hrest
      obtain rfl := (Connection.step_eq_some_iff.1 hstep).2
      exact .inr (Nat.succ_pos _)
    · exact run_invariant (fun _ _ _ => Connection.closeRequested_step) hrun (h j c hc hptr)
  · cases stepped_of_step hs
    exact absurd rfl hptr'

/-- **A replaced session goes silent.**  In every run a session that is not the current one is
closed or has `handle_closed` posted.  Once it is closed, it calls into Lua only if an operation
of it had finished with success when it was closed and was still waiting for its handler, and
then once at most. -/
theorem replaced_goes_silent {es : List ManagerEvent} (hrun : run (step P) start es = some m)
    {j : ℕ} {c : Connection} (hc : m.sessions[j]? = some c) (hptr : m.ptr ≠ some j) :
    (c.isOpen = true → 0 < c.posted) ∧
      (c.isOpen = false → ∀ fs m', run (step P) m fs = some m' →
        ∃ c' more, m'.sessions[j]? = some c' ∧ c'.upcalls = c.upcalls ++ more ∧
          more.length ≤ if ∃ p ∈ c.reads, p.finished = some false then 1 else 0) := by
  obtain ⟨host, port, serverID, description, fs₀, hrun₀⟩ := session_of_run hrun hc
  have hsettled : c.Settled := run_invariant (fun _ _ _ => Connection.settled_step) hrun₀
    (Connection.settled_connecting host port serverID description)
  have hclosing : m.ReplacedClosing := run_invariant (fun _ _ _ => replacedClosing_step) hrun
    (by simp [ReplacedClosing, start])
  refine ⟨fun ho => (hclosing j c hc hptr).resolve_left (by simp [ho]), fun ho fs m' hfs => ?_⟩
  obtain ⟨fs', c', hc', hrun'⟩ := run_session hfs hc
  have hclosed := hsettled.closed ho
  obtain ⟨more, hmore, hle⟩ := Connection.closed_run hclosed hrun'
  refine ⟨c', more, hc', hmore, (Nat.le_add_right _ _).trans (hle.trans ?_)⟩
  obtain ⟨-, hnil | ⟨op, error, hr⟩⟩ := hclosed
  · simp [Connection.ready, hnil]
  · cases error <;> simp [Connection.ready, hr]

/-- A session that connected is replaced before its handler runs, and is closed. -/
theorem replaced_goes_silent_after_connect :
    let P : Platform := ⟨Heap.const 0, .little, headerLengthFix⟩
    let es := [ManagerEvent.connectTo "a" "1" "A" "", .asio 0 (.connectDone 0),
      .connectTo "b" "2" "B" "", .asio 0 .runClosed]
    ∃ m c, run (step P) start es = some m ∧ m.sessions[0]? = some c ∧
      ∀ fs m', run (step P) m fs = some m' →
        ∃ c' more, m'.sessions[0]? = some c' ∧ c'.upcalls = c.upcalls ++ more ∧
          more.length ≤ if ∃ p ∈ c.reads, p.finished = some false then 1 else 0 := by
  intro P es
  have h : ∃ m, run (step P) start es = some m ∧ m.ptr ≠ some 0 ∧
      ∃ c, m.sessions[0]? = some c ∧ c.isOpen = false :=
    exists_run_of_any (by decide +kernel)
  obtain ⟨m, hrun, hptr, c, hc, ho⟩ := h
  exact ⟨m, c, hrun, hc, (replaced_goes_silent hrun hc hptr).2 ho⟩

/-- The session "A" connects, is replaced by "B", and then tells Lua that it is connected: before
`handle_closed` has run and also after it. -/
theorem replaced_session_speaks :
    let P : Platform := ⟨Heap.const 0, .little, headerLengthFix⟩
    let es (last : List ManagerEvent) := [ManagerEvent.connectTo "a" "1" "A" "",
      .asio 0 (.connectDone 0), .connectTo "b" "2" "B" ""] ++ last
    (∃ m, run (step P) start (es []) = some m ∧ m.ptr = some 1 ∧
      m.sessions[0]?.map (·.upcalls) = some []) ∧
    (∃ m, run (step P) start (es [.asio 0 (.runRead 0)]) = some m ∧ m.ptr = some 1 ∧
      m.sessions[0]?.map (·.upcalls) = some [.onConnected "A"]) ∧
    ∃ m, run (step P) start (es [.asio 0 .runClosed, .asio 0 (.runRead 0)]) = some m ∧
      m.ptr = some 1 ∧ m.sessions[0]?.map (·.upcalls) = some [.onConnected "A"] := by
  intro P es
  exact ⟨exists_run_of_any (by decide +kernel), exists_run_of_any (by decide +kernel),
    exists_run_of_any (by decide +kernel)⟩

end SockSessionManager

end SockTestProgram
