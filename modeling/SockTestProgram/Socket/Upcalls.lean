import SockTestProgram.Socket.Flags

/-!
# Calls of a session into Lua

The calls of the two callbacks of a session are only added to (`upcalls_step`), and the payloads
that they hand over are no larger than an `int` (`Sized`).
-/

open Memory Lts

namespace SockTestProgram

variable {P : Platform}

/-- The size of the payload fits an `int`. -/
def Upcall.Fits : Upcall → Prop
  | .onConnected _ => True
  | .callback _ payload => payload.length < 2 ^ 31

/-! ## The calls into Lua -/

/-- The call into Lua that the handler of an operation makes. -/
def SockSession.call (P : Platform) (s : SockSession) : ReadOp → Bool → Option Upcall
  | .connect, false => some (.onConnected s.connectingServerStr)
  | .read .body _ _, false => some (.callback (s.bodyTypecode P) (s.bodyPayload P))
  | _, _ => none

namespace Connection

variable {c c' : Connection}

/-- The call into Lua that an event makes. -/
def call (P : Platform) (c : Connection) : Event → Option Upcall
  | .runRead i => c.reads[i]?.bind fun p => p.finished.bind fun error =>
    (c.session.fill p.op).call P p.op error
  | _ => none

theorem Handled.upcalls {s : SockSession} {op : ReadOp} {error : Bool}
    (h : Handled P c s op error c') : c'.upcalls = c.upcalls ++ (s.call P op error).toList := by
  cases h with
  | connected | body => rfl
  | timeout | header | thrown => exact (List.append_nil _).symm
  | @failed target => cases target <;> exact (List.append_nil _).symm

theorem fill_connectingServerStr (s : SockSession) (op : ReadOp) :
    (s.fill op).connectingServerStr = s.connectingServerStr := by
  obtain _ | ⟨_ | _, size, got⟩ := op <;> rfl

/-- What Lua sees of a session: the calls it gets, and which server it is to be told about. -/
theorem upcalls_step {e : Event} (hs : c.step P e = some c') :
    c'.upcalls = c.upcalls ++ (c.call P e).toList ∧
      c'.session.connectingServerStr = c.session.connectingServerStr ∧
      (c'.connected = c.connected ∨ ∃ i, e = .connectDone i ∧ c'.connected = true) := by
  have hnone : c.upcalls = c.upcalls ++ (none : Option Upcall).toList := (List.append_nil _).symm
  cases readSide_of_step hs with
  | connectDone => exact ⟨hnone, rfl, .inr ⟨_, rfl, rfl⟩⟩
  | readSome | readFail | runClosed => exact ⟨hnone, rfl, .inl rfl⟩
  | @runRead i op error _ hi hhandled =>
    obtain ⟨⟨-, hconn, -⟩, -, hstr⟩ := hhandled.frame
    have hcall : c.call P (.runRead i) = (c.session.fill op).call P op error := by
      simp [call, hi]
    exact ⟨hcall ▸ hhandled.upcalls, hstr.trans (fill_connectingServerStr _ _), .inl hconn⟩
  | other he hsame =>
    have hcall : c.call P e = none := by
      cases e with
      | runRead i => exact absurd rfl (he i)
      | _ => rfl
    rw [hcall, hsame.session]
    exact ⟨hsame.upcalls.trans hnone, rfl, .inl hsame.connected⟩

/-! ## Their order -/

/-- A session tells Lua that it is connected before it delivers any frame, and once. -/
structure Polite (c : Connection) : Prop where
  live : c.Live
  fresh : ∀ p ∈ c.reads, p.op = .connect → c.upcalls = []
  told : c.connected = true → (∃ p ∈ c.reads, p.op = .connect) ∨ c.upcalls ≠ []
  connected : c.upcalls ≠ [] → c.connected = true

theorem Polite.of_eq (h : c.Polite) (hl : c'.Live)
    (hr : (∃ p ∈ c'.reads, p.op = .connect) ↔ ∃ p ∈ c.reads, p.op = .connect)
    (hu : c'.upcalls = c.upcalls) (hc : c'.connected = c.connected) : c'.Polite := by
  refine ⟨hl, fun p hp hop => ?_, ?_, ?_⟩
  · obtain ⟨q, hq, hop'⟩ := hr.1 ⟨p, hp, hop⟩
    rw [hu]
    exact h.fresh q hq hop'
  · rw [hc, hu, hr]
    exact h.told
  · rw [hc, hu]
    exact h.connected

/-- The handlers of the read chain do not connect again. -/
theorem Handled.no_connect {s : SockSession} {op : ReadOp} {error : Bool}
    (h : Handled P c s op error c') (hr : c.reads = []) : ∀ p ∈ c'.reads, p.op ≠ .connect := by
  cases h with
  | connected | timeout | header | body => simp [startRead, hr]
  | thrown | failed => simp [hr]

theorem polite_step {e : Event} (h : c.Polite) (hs : c.step P e = some c') : c'.Polite := by
  have hlive := live_step h.live hs
  cases readSide_of_step hs with
  | connectDone hi =>
    obtain ⟨rfl, hr, -⟩ := h.live.chain.eq_singleton hi
    have hnil := h.fresh _ (List.mem_of_getElem? hi) rfl
    exact ⟨hlive, fun _ _ _ => hnil, fun _ => .inl ⟨⟨.connect, some false⟩, by simp [hr], rfl⟩,
      fun _ => rfl⟩
  | readSome hi _ | readFail hi =>
    obtain ⟨rfl, hr, -⟩ := h.live.chain.eq_singleton hi
    exact h.of_eq hlive (by simp [hr]) rfl rfl
  | @runRead i op error _ hi hhandled =>
    obtain ⟨rfl, hr, -⟩ := h.live.chain.eq_singleton hi
    obtain ⟨⟨-, hconn, -⟩, -⟩ := hhandled.frame
    have hno := hhandled.no_connect (by simp [hr])
    have hu : c'.upcalls = c.upcalls ++ ((c.session.fill op).call P op error).toList :=
      hhandled.upcalls
    refine ⟨hlive, fun p hp hop => absurd hop (hno p hp), fun hc' => .inr ?_, fun hne => ?_⟩
    · rw [hconn] at hc'
      rw [hu]
      obtain _ | ⟨target, size, got⟩ := op
      · cases error with
        | false => simp [SockSession.call]
        | true => exact absurd hc' (by simp [h.live.pending _ (List.mem_of_getElem? hi) rfl])
      · -- the connection was there before, so Lua was told
        have := (h.told hc').resolve_left (by simp [hr])
        simp [this]
    · rw [hconn]
      cases error with
      | false => exact h.live.connected hi
      | true =>
        rw [hu] at hne
        refine h.connected fun hnil => hne ?_
        obtain _ | ⟨_ | _, size, got⟩ := op <;> simp [SockSession.call, hnil]
  | runClosed => exact h.of_eq hlive (by simp [perform, Outstanding.abort]) rfl rfl
  | other _ hsame => exact h.of_eq hlive (by rw [hsame.reads]) hsame.upcalls hsame.connected

theorem polite_connecting (host port serverID description : String) :
    (connecting P host port serverID description).Polite where
  live := live_connecting _ _ _ _
  fresh _ _ _ := rfl
  told h := absurd h Bool.false_ne_true
  connected h := absurd rfl h

/-- A call into Lua comes from a connected session; the first one says that it is connected, and no
other does. -/
theorem Polite.call (h : c.Polite) {e : Event} {u : Upcall} (hu : c.call P e = some u) :
    c.connected = true ∧ match u with
      | .onConnected serverID => serverID = c.session.connectingServerStr ∧ c.upcalls = []
      | .callback _ _ => c.upcalls ≠ [] := by
  cases e with
  | runRead i =>
    simp only [Connection.call, Option.bind_eq_some_iff] at hu
    obtain ⟨⟨op, finished⟩, hi, error, rfl, hu⟩ := hu
    obtain ⟨rfl, hr, -⟩ := h.live.chain.eq_singleton hi
    obtain _ | ⟨_ | _, size, got⟩ := op
    · cases error with
      | false =>
        obtain rfl := Option.some.inj hu
        exact ⟨h.live.connected hi, rfl, h.fresh _ (List.mem_of_getElem? hi) rfl⟩
      | true => cases hu
    · cases hu
    · cases error with
      | false =>
        obtain rfl := Option.some.inj hu
        have hconn := h.live.connected hi
        exact ⟨hconn, (h.told hconn).resolve_left (by simp [hr])⟩
      | true => cases hu
  | _ => cases hu

/-! ## Sizes -/

/-- The size of `buffer_`, and with it that of every payload, fits an `int`. -/
structure Sized (c : Connection) : Prop where
  chain : c.Chain
  buffer : c.session.buffer.length < 2 ^ 31
  payload : ∀ u ∈ c.upcalls, u.Fits

theorem Sized.of_eq (h : c.Sized) (hc : c'.Chain)
    (hb : c'.session.buffer.length = c.session.buffer.length) (hu : c'.upcalls = c.upcalls) :
    c'.Sized := by
  refine ⟨hc, hb ▸ h.buffer, ?_⟩
  rw [hu]
  exact h.payload

theorem length_fill {s : SockSession} {op : ReadOp} {error : Option Bool}
    (h : ReadOk s ⟨op, error⟩) : (s.fill op).buffer.length = s.buffer.length := by
  obtain _ | ⟨_ | _, size, got⟩ := op
  · rfl
  · rfl
  · obtain ⟨rfl, hle, -⟩ := h
    simp only [SockSession.targetSize] at hle
    simp only [SockSession.fill, store_zero, List.length_append, List.length_drop]
    omega

theorem length_bodyPayload_le (P : Platform) (s : SockSession) :
    (s.bodyPayload P).length ≤ s.buffer.length := by
  unfold SockSession.bodyPayload
  split_ifs
  · rw [Heap.length_load]
    omega
  · exact Nat.zero_le _

/-- The size that a header asks for, unless it is refused, fits an `int`. -/
theorem sizeT_bodySize_lt (P : Platform) (s : SockSession)
    (h : sizeT (s.bodySize P).toInt ≤ maxSize) : sizeT (s.bodySize P).toInt < 2 ^ 31 := by
  have hlt := BitVec.toInt_lt (x := s.bodySize P)
  have hle := BitVec.le_toInt (x := s.bodySize P)
  simp only [maxSize, sizeT] at h ⊢
  omega

/-- Every call into Lua of a handler, and `buffer_` after it, are no larger than `buffer_` before
it or than an `int`. -/
theorem Handled.sized {s : SockSession} {op : ReadOp} {error : Bool}
    (h : Handled P c s op error c') (hb : s.buffer.length < 2 ^ 31) (hp : ∀ u ∈ c.upcalls, u.Fits)
    (hc : c'.Chain) : c'.Sized := by
  have hcalled {u : Upcall} (hu : u.Fits) : ∀ v ∈ c.upcalls ++ [u], v.Fits := by
    intro v hv
    rcases List.mem_append.1 hv with hv | hv
    · exact hp v hv
    · exact List.mem_singleton.1 hv ▸ hu
  cases h with
  | connected => exact ⟨hc, hb, hcalled trivial⟩
  | body => exact ⟨hc, hb, hcalled ((length_bodyPayload_le P s).trans_lt hb)⟩
  | header hsize =>
    exact ⟨hc, (length_resizeString _ _).trans_lt (sizeT_bodySize_lt P s hsize), hp⟩
  | timeout | thrown | failed => exact ⟨hc, hb, hp⟩

theorem sized_step {e : Event} (h : c.Sized) (hs : c.step P e = some c') : c'.Sized := by
  have hchain := chain_step h.chain hs
  cases readSide_of_step hs with
  | connectDone | readSome | readFail | runClosed => exact h.of_eq hchain rfl rfl
  | runRead hi hhandled =>
    obtain ⟨-, -, hok⟩ := h.chain.eq_singleton hi
    exact hhandled.sized (length_fill hok ▸ h.buffer) h.payload hchain
  | other _ hsame => exact h.of_eq hchain (by rw [hsame.session]) hsame.upcalls

theorem sized_connecting (host port serverID description : String) :
    (connecting P host port serverID description).Sized where
  chain := chain_connecting _ _ _ _
  buffer := Nat.two_pow_pos 31
  payload _ h := by cases h

end Connection

end SockTestProgram
