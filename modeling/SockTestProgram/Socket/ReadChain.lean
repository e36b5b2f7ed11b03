import SockTestProgram.Socket.Framing
import SockTestProgram.Socket.Sides

/-!
# The read chain of a session

A session has at most one `async_connect` or `async_read` outstanding: each of the handlers
`handle_connected`, `handle_headerRead` and `handle_bodyRead` runs when the only one is finished and
starts at most one more.  `Chain` is the invariant (`chain_step`); it also says that a read of the
body asks for exactly the size of `buffer_`, and has all its bytes when it finishes with success.
-/

open Memory Word Lts

namespace SockTestProgram

variable {P : Platform}

/-- How many bytes a target holds. -/
def SockSession.targetSize (s : SockSession) : Target → ℕ
  | .head => 4
  | .body => s.buffer.length

/-- The read asks for as many bytes as its target holds, lacks some while it is in progress and has
them all when it has finished with success. -/
def ReadOk (s : SockSession) (p : Outstanding ReadOp) : Prop :=
  match p.op with
  | .connect => True
  | .read target size got => size = s.targetSize target ∧ got.length ≤ size ∧
      (p.finished = none → got.length < size) ∧ (p.finished = some false → got.length = size)

namespace Connection

/-- At most one operation of the chain is outstanding. -/
def Chain (c : Connection) : Prop := c.reads = [] ∨ ∃ p, c.reads = [p] ∧ ReadOk c.session p

variable {c c' : Connection}

theorem Chain.of_eq (h : c.Chain) (hr : c'.reads = c.reads)
    (hb : c'.session.buffer = c.session.buffer) : c'.Chain := by
  obtain h | ⟨p, h, hp⟩ := h
  · exact Or.inl (hr.trans h)
  · refine Or.inr ⟨p, hr.trans h, ?_⟩
    obtain ⟨_ | ⟨_ | _, size, got⟩, finished⟩ := p
    · trivial
    · exact hp
    · simpa only [ReadOk, SockSession.targetSize, hb] using hp

/-- The only outstanding operation of the chain, given one at some place. -/
theorem Chain.eq_singleton (h : c.Chain) {i : ℕ} {p : Outstanding ReadOp}
    (hi : c.reads[i]? = some p) : i = 0 ∧ c.reads = [p] ∧ ReadOk c.session p := by
  obtain h | ⟨q, h, hq⟩ := h
  · simp [h] at hi
  · rw [h, List.getElem?_singleton] at hi
    split_ifs at hi with h0
    obtain rfl := Option.some.inj hi
    exact ⟨h0, h, hq⟩

theorem chain_of_reads_eq_nil (h : c.reads = []) : c.Chain := Or.inl h

/-- Starting a read of a whole target when no other is outstanding. -/
theorem chain_startRead (h : c.reads = []) {target : Target} {size : ℕ}
    (hs : size = c.session.targetSize target) : (c.startRead target size).Chain := by
  refine Or.inr ⟨⟨.read target size [], c.begun size⟩, by simp [startRead, h], hs, ?_, ?_, ?_⟩
  · exact Nat.zero_le _
  · unfold begun
    split_ifs with h0 <;> intro hf
    · cases hf
    · exact Nat.pos_of_ne_zero h0
    · cases hf
  · unfold begun
    split_ifs with h0 <;> intro hf
    · exact h0.symm
    · cases hf
    · cases hf

theorem Chain.abort (h : c.Chain) : (c.perform .socketClose).Chain := by
  obtain h | ⟨p, h, hp⟩ := h
  · exact Or.inl (by simp [perform, h])
  · refine Or.inr ⟨p.abort, by simp [perform, h], ?_⟩
    obtain ⟨_ | ⟨target, size, got⟩, _ | error⟩ := p
    · trivial
    · trivial
    · obtain ⟨h₁, h₂, -, -⟩ := hp
      exact ⟨h₁, h₂, by simp [Outstanding.abort], by simp [Outstanding.abort]⟩
    · exact hp

/-- Each handler of the chain starts at most one operation, of the size of its target. -/
theorem Handled.chain {s : SockSession} {op : ReadOp} {error : Bool}
    (h : Handled P c s op error c') (hr : c.reads = []) : c'.Chain := by
  cases h with
  | connected | timeout | body =>
    apply chain_startRead
    · exact hr
    · rfl
  | header =>
    apply chain_startRead
    · exact hr
    · exact (length_resizeString _ _).symm
  | thrown | failed => exact chain_of_reads_eq_nil hr

theorem chain_step {e : Event} (h : c.Chain) (hs : c.step P e = some c') : c'.Chain := by
  cases readSide_of_step hs with
  | connectDone hi =>
    obtain ⟨rfl, hr, -⟩ := h.eq_singleton hi
    exact Or.inr ⟨⟨.connect, some false⟩, by simp [hr], trivial⟩
  | @readSome i k target size got hi hguard =>
    obtain ⟨-, hk, hin, hle⟩ := hguard
    obtain ⟨rfl, hr, hsize, -, -, -⟩ := h.eq_singleton hi
    have hlen : (got ++ c.inbox.take k).length = got.length + k := by
      simp only [List.length_append, List.length_take]
      omega
    refine Or.inr ⟨⟨.read target size (got ++ c.inbox.take k),
      if got.length + k = size then some false else none⟩, by simp [hr], hsize, by omega, ?_, ?_⟩
    · split_ifs with hfull <;> intro hf
      · cases hf
      · omega
    · split_ifs with hfull <;> intro hf
      · omega
      · cases hf
  | @readFail i op hi =>
    obtain ⟨rfl, hr, hp⟩ := h.eq_singleton hi
    refine Or.inr ⟨⟨op, some true⟩, by simp [hr], ?_⟩
    obtain _ | ⟨target, size, got⟩ := op
    · trivial
    · exact ⟨hp.1, hp.2.1, by simp, by simp⟩
  | runRead hi hhandled =>
    obtain ⟨rfl, hr, -⟩ := h.eq_singleton hi
    exact hhandled.chain (by simp [hr])
  | runClosed => exact Chain.abort (c := { c with posted := c.posted - 1 }) (h.of_eq rfl rfl)
  | other _ hsame => exact h.of_eq hsame.reads (congrArg SockSession.buffer hsame.session)

theorem chain_connecting (host port serverID description : String) :
    (connecting P host port serverID description).Chain :=
  Or.inr ⟨⟨.connect, none⟩, rfl, trivial⟩

theorem chain_reading (s : SockSession) : (reading s).Chain :=
  chain_startRead (c := idle s true) rfl rfl

end Connection

end SockTestProgram
