import SockTestProgram.Socket.ReadChain

/-!
# The flags of a session

`socket_failed_` and `connecting_timeout_`, the connection of the socket and the outstanding
operation of the read chain fit together on every run (`Live`): nothing succeeds after a failure,
and nothing before the connection is there.
-/

open Memory Lts

namespace SockTestProgram

variable {P : Platform}

namespace Connection

variable {c c' : Connection}

/-- A session whose reads failed has none outstanding, and a session that failed to connect never
gets a byte. -/
structure Live (c : Connection) : Prop where
  chain : c.Chain
  failed : c.session.socketFailed = true → c.reads = []
  timeout : c.session.connectingTimeout = true →
    c.connected = false ∧ ∀ p ∈ c.reads, p.op ≠ .connect
  pending : ∀ p ∈ c.reads, p.op = .connect → p.finished ≠ some false → c.connected = false
  success : ∀ p ∈ c.reads, p.finished = some false → c.connected = true

theorem Live.of_eq (h : c.Live) (hr : c'.reads = c.reads) (hs : c'.session = c.session)
    (hc : c'.connected = c.connected) : c'.Live :=
  ⟨h.chain.of_eq hr (hs ▸ rfl), by rw [hs, hr]; exact h.failed, by rw [hs, hr, hc]; exact h.timeout,
    by rw [hr, hc]; exact h.pending, by rw [hr, hc]; exact h.success⟩

/-- An operation is finished with success only on a connected socket. -/
theorem Live.connected (h : c.Live) {i : ℕ} {op : ReadOp}
    (hi : c.reads[i]? = some ⟨op, some false⟩) : c.connected = true :=
  h.success _ (List.mem_of_getElem? hi) rfl

theorem Live.socketFailed (h : c.Live) {i : ℕ} {p : Outstanding ReadOp}
    (hi : c.reads[i]? = some p) : c.session.socketFailed = false := by
  by_contra hf
  have hnil := h.failed (by simpa using hf)
  simp [hnil] at hi

/-- A session with an operation outstanding that finished with success has not failed. -/
theorem Live.isSocketFailed (h : c.Live) {i : ℕ} {op : ReadOp}
    (hi : c.reads[i]? = some ⟨op, some false⟩) : c.session.isSocketFailed = false := by
  have htimeout : c.session.connectingTimeout = false := by
    by_contra hf
    exact absurd (h.connected hi) (by simp [(h.timeout (by simpa using hf)).1])
  rw [SockSession.isSocketFailed, h.socketFailed hi, htimeout, Bool.or_self]

/-- A session without failure that starts a read. -/
theorem live_startRead (h : c.reads = []) (hfail : c.session.socketFailed = false)
    (htimeout : c.session.connectingTimeout = true → c.connected = false)
    {target : Target} {size : ℕ} (hsize : size = c.session.targetSize target)
    (hc : size = 0 → c.connected = true) : (c.startRead target size).Live where
  chain := chain_startRead h hsize
  failed hf := absurd hf (by simp [startRead, hfail])
  timeout ht := ⟨htimeout ht, by simp [startRead, h]⟩
  pending := by simp [startRead, h]
  success p hp hf := by
    obtain rfl : p = ⟨.read target size [], c.begun size⟩ := by simpa [startRead, h] using hp
    refine hc ?_
    by_contra h0
    cases ho : c.isOpen <;> simp [begun, h0, ho] at hf

theorem Handled.live {s : SockSession} {op : ReadOp} {error : Bool}
    (h : Handled P c s op error c') (hr : c.reads = []) (hfail : s.socketFailed = false)
    (htimeout : s.connectingTimeout = true → c.connected = false)
    (hpending : op = .connect → error = true → c.connected = false)
    (hsuccess : error = false → c.connected = true) : c'.Live := by
  have hnil {d : Connection} (hd : d.reads = [])
      (ht : d.session.connectingTimeout = true → d.connected = false) : d.Live :=
    ⟨.inl hd, fun _ => hd, fun h' => ⟨ht h', by simp [hd]⟩, by simp [hd], by simp [hd]⟩
  cases h with
  | connected | body =>
    apply live_startRead
    · exact hr
    · exact hfail
    · exact htimeout
    · rfl
    · simp
  | timeout =>
    apply live_startRead
    · exact hr
    · exact hfail
    · exact fun _ => hpending rfl rfl
    · rfl
    · simp
  | header =>
    apply live_startRead
    · exact hr
    · exact hfail
    · exact htimeout
    · exact (length_resizeString _ _).symm
    · exact fun _ => hsuccess rfl
  | thrown | failed => exact hnil hr htimeout

theorem fill_flags (s : SockSession) (op : ReadOp) :
    (s.fill op).socketFailed = s.socketFailed ∧
      (s.fill op).connectingTimeout = s.connectingTimeout := by
  obtain _ | ⟨_ | _, size, got⟩ := op <;> exact ⟨rfl, rfl⟩

/-- Replacing the only outstanding operation by a later state of it. -/
theorem Live.set (h : c.Live) {p q : Outstanding ReadOp} (hr : c.reads = [p])
    (hq : ReadOk c.session q) (hop : q.op = .connect → p.op = .connect)
    (hpending : q.op = .connect → q.finished ≠ some false → p.finished ≠ some false)
    (hsuccess : q.finished = some false → c.connected = true)
    (hr' : c'.reads = [q]) (hs : c'.session = c.session) (hc : c'.connected = c.connected) :
    c'.Live where
  chain := .inr ⟨q, hr', hs ▸ hq⟩
  failed hf := absurd (h.failed (hs ▸ hf)) (by simp [hr])
  timeout ht := by
    obtain ⟨hconn, hno⟩ := h.timeout (hs ▸ ht)
    rw [hr', hc]
    exact ⟨hconn, by simpa using fun hq' => hno p (by simp [hr]) (hop hq')⟩
  pending := by
    rw [hr', hc]
    simpa using fun hq' hf => h.pending p (by simp [hr]) (hop hq') (hpending hq' hf)
  success := by
    rw [hr', hc]
    simpa using hsuccess

theorem live_step {e : Event} (h : c.Live) (hs : c.step P e = some c') : c'.Live := by
  have hchain := chain_step h.chain hs
  cases readSide_of_step hs with
  | connectDone hi =>
    obtain ⟨rfl, hr, -⟩ := h.chain.eq_singleton hi
    refine ⟨hchain, fun hf => absurd (h.failed hf) (by simp [hr]), fun ht => ?_, ?_, by simp⟩
    · exact absurd rfl ((h.timeout ht).2 ⟨.connect, none⟩ (by simp [hr]))
    · simp [hr]
  | readSome hi hguard =>
    obtain ⟨rfl, hr, -⟩ := h.chain.eq_singleton hi
    obtain hnil | ⟨q, hq, hok⟩ := hchain
    · simp [hr] at hnil
    · obtain rfl : q = _ := by simpa [hr] using hq.symm
      exact h.set hr hok (by simp) (by simp) (fun _ => hguard.1) hq rfl rfl
  | readFail hi =>
    obtain ⟨rfl, hr, -⟩ := h.chain.eq_singleton hi
    obtain hnil | ⟨q, hq, hok⟩ := hchain
    · simp [hr] at hnil
    · obtain rfl : q = _ := by simpa [hr] using hq.symm
      exact h.set hr hok id (by simp) (by simp) hq rfl rfl
  | @runRead i op error _ hi hhandled =>
    obtain ⟨rfl, hr, -⟩ := h.chain.eq_singleton hi
    obtain ⟨hfail, htimeout⟩ := fill_flags c.session op
    refine hhandled.live (by simp [hr]) (hfail.trans (h.socketFailed hi))
      (fun ht => (h.timeout (htimeout.symm.trans ht)).1) ?_ ?_
    · rintro rfl rfl
      exact h.pending ⟨.connect, some true⟩ (by simp [hr]) rfl (by simp)
    · rintro rfl
      exact h.connected hi
  | runClosed =>
    obtain hnil | ⟨p, hr, hp⟩ := h.chain
    · exact h.of_eq (by simp [perform, hnil]) rfl rfl
    · have hr' : (perform { c with posted := c.posted - 1 } .socketClose).reads = [p.abort] := by
        simp [perform, hr]
      obtain hnil | ⟨q, hq, hok⟩ := hchain
      · simp [hr'] at hnil
      · obtain rfl : q = p.abort := by simpa using hq.symm.trans hr'
        have habort : p.abort.finished = some false ↔ p.finished = some false := by
          obtain ⟨op, _ | error⟩ := p <;> simp [Outstanding.abort]
        refine h.set hr hok id (fun _ hf => mt habort.2 hf) (fun hf => ?_) hr' rfl rfl
        exact h.success p (by simp [hr]) (habort.1 hf)
  | other _ hsame => exact h.of_eq hsame.reads hsame.session hsame.connected

theorem live_connecting (host port serverID description : String) :
    (connecting P host port serverID description).Live where
  chain := chain_connecting _ _ _ _
  failed := fun h => absurd h Bool.false_ne_true
  timeout := fun h => absurd h Bool.false_ne_true
  pending := fun _ _ _ _ => rfl
  success := by simp [connecting, after, SockSession.connect, idle, perform]

end Connection

end SockTestProgram
