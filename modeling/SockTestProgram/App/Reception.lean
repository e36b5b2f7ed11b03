import SockTestProgram.Interop.Notification
import SockTestProgram.Socket.RoundTrip
import SockTestProgram.Socket.Upcalls

/-!
# From frames to events

A session together with the dispatcher that its two callbacks lead to (`Reception.step`).  Each
frame that `handle_bodyRead` delivers appends its event to the queue, or nothing if no rule has its
type code or its payload does not decode; either way the session reads on (`events_of_frames`).
-/

open Memory Lts

namespace SockTestProgram

variable {η μ : Type}

/-- A session, the dispatcher, and what the frames of the session appended to the queue so far. -/
structure Reception (η μ : Type) where
  connection : Connection
  dispatcher : EventDispatcher String η μ
  appended : List (String × List μ)

inductive ReceptionEvent (η μ : Type)
  | io (e : Event)
  /-- the rest of the Lua program goes on, and leaves the dispatcher in this state -/
  | lua (dispatcher : EventDispatcher String η μ)

/-- The event that a call into Lua appends, if it delivers a frame. -/
def Upcall.event (toID : String → ℤ) (decode : String → Bytes → Decoded μ) :
    Upcall → Option (String × List μ)
  | .onConnected _ => none
  | .callback typecode payload => eventOf toID decode typecode.toInt payload

/-- The events of an undisturbed reader. -/
def ReceptionEvent.io? : ReceptionEvent η μ → Option Event
  | .io e => some e
  | .lua _ => none

namespace Reception

variable (P : Platform) (conf : LuaConf) (toID : String → ℤ) (decode : String → Bytes → Decoded μ)

/-- A call of one of the two callbacks, and what it appends if it delivers a frame. -/
def deliver (r : Reception η μ) (u : Upcall) : Reception η μ :=
  let d := u.deliver P.heap conf toID decode r.dispatcher
  match u with
  | .onConnected _ => { r with dispatcher := d }
  | .callback _ _ =>
    { r with
      dispatcher := d
      appended := r.appended ++
        (d.eventCache.drop r.dispatcher.eventCache.length).map Ev.dispatched }

/-- One event of the session, with the calls into Lua that it makes; or anything else in Lua, which
leaves a handler registered for the event of each rule. -/
def step (r : Reception η μ) : ReceptionEvent η μ → Option (Reception η μ)
  | .io e =>
    (r.connection.step P e).map fun c =>
      (c.upcalls.drop r.connection.upcalls.length).foldl (deliver P conf toID decode)
        { r with connection := c }
  | .lua dispatcher =>
    if Registered toID dispatcher then some { r with dispatcher := dispatcher } else none

/-- A session that is just created and connecting. -/
def start (host port serverID description : String) (d : EventDispatcher String η μ) :
    Reception η μ :=
  ⟨.connecting P host port serverID description, d, []⟩

variable {toID} in
/-- What calls into Lua do to the dispatcher. -/
theorem foldl_deliver (hdistinct : DistinctTypeCodes toID) (us : List Upcall)
    (hfits : ∀ u ∈ us, u.Fits) (r : Reception η μ) (hreg : Registered toID r.dispatcher) :
    let r' := us.foldl (deliver P conf toID decode) r
    r'.connection = r.connection ∧ Registered toID r'.dispatcher ∧
      r'.appended = r.appended ++ us.filterMap (Upcall.event toID decode) := by
  induction us generalizing r with
  | nil => exact ⟨rfl, hreg, (List.append_nil _).symm⟩
  | cons u us ih =>
    have hd := u.appends_deliver P.heap conf hdistinct decode hreg (hfits u (by simp))
    have hreg' : Registered toID (r.deliver P conf toID decode u).dispatcher := by
      cases u <;> exact hd.registered hreg
    obtain ⟨hc, hr, ha⟩ := ih (fun v hv => hfits v (by simp [hv])) _ hreg'
    cases u with
    | onConnected serverID => exact ⟨hc, hr, ha⟩
    | callback typecode payload =>
      obtain ⟨new, hcache, hnew, -⟩ := hd.queue
      refine ⟨hc, hr, ha.trans ?_⟩
      simp only [deliver, hcache, List.drop_left, hnew, Upcall.queued]
      cases hevent : eventOf toID decode typecode.toInt payload <;> simp [Upcall.event, hevent]

variable {P conf toID decode} {r r' : Reception η μ}

/-- The frames of the session appended exactly their events. -/
structure Appended (toID : String → ℤ) (decode : String → Bytes → Decoded μ)
    (r : Reception η μ) : Prop where
  registered : Registered toID r.dispatcher
  sized : r.connection.Sized
  appended : r.appended = r.connection.upcalls.filterMap (Upcall.event toID decode)

/-- An event of the reception is one of the session, or none. -/
theorem step_connection (hdistinct : DistinctTypeCodes toID) {e : ReceptionEvent η μ}
    (h : r.Appended toID decode) (hs : r.step P conf toID decode e = some r') :
    r'.Appended toID decode ∧
      run (Connection.step P) r.connection e.io?.toList = some r'.connection := by
  cases e with
  | io e =>
    obtain ⟨c, hc, rfl⟩ := Option.map_eq_some_iff.1 hs
    obtain ⟨hmore, -⟩ := Connection.upcalls_step hc
    set more := (r.connection.call P e).toList
    have hsized := Connection.sized_step h.sized hc
    rw [hmore, List.drop_left]
    obtain ⟨hconn, hreg, happ⟩ := foldl_deliver P conf decode hdistinct more
      (fun u hu => hsized.payload u (by simp [hmore, hu]))
      { r with connection := c } h.registered
    refine ⟨⟨hreg, hconn ▸ hsized, ?_⟩, ?_⟩
    · rw [happ, hconn, hmore, List.filterMap_append, ← h.appended]
    · rw [hconn]
      simp [ReceptionEvent.io?, run_cons, hc]
  | lua dispatcher =>
    simp only [step, Option.ite_none_right_eq_some, Option.some.injEq] at hs
    obtain ⟨hreg, rfl⟩ := hs
    exact ⟨⟨hreg, h.sized, h.appended⟩, rfl⟩

/-- A run of the reception is a run of the session. -/
theorem run_connection (hdistinct : DistinctTypeCodes toID) {es : List (ReceptionEvent η μ)}
    (h : r.Appended toID decode) (hs : run (step P conf toID decode) r es = some r') :
    r'.Appended toID decode ∧
      run (Connection.step P) r.connection (es.filterMap ReceptionEvent.io?) =
        some r'.connection := by
  induction es generalizing r with
  | nil =>
    obtain rfl := Option.some.inj hs
    exact ⟨h, rfl⟩
  | cons e es ih =>
    obtain ⟨m, hm, hrest⟩ := run_cons_eq_some_iff.1 hs
    obtain ⟨hm', hrun⟩ := step_connection hdistinct h hm
    obtain ⟨hr', hrun'⟩ := ih hm' hrest
    refine ⟨hr', ?_⟩
    have hsplit : (e :: es).filterMap ReceptionEvent.io? =
        e.io?.toList ++ es.filterMap ReceptionEvent.io? := by
      cases he : e.io? <;> simp [he]
    rw [hsplit]
    exact run_append_eq_some_iff.2 ⟨_, hrun, hrun'⟩

theorem appended_start (host port serverID description : String)
    {d : EventDispatcher String η μ} (hreg : Registered toID d) :
    (start P host port serverID description d).Appended toID decode :=
  ⟨hreg, Connection.sized_connecting _ _ _ _, rfl⟩

/-- **From frames to events.**  In every run the frames of the session have appended to the queue,
in order, the event of each frame that has one, and nothing else.  And whenever the session waits
for a header on an open socket, whatever frames it got before, it goes on to deliver and queue every
further frame. -/
theorem events_of_frames (hdistinct : DistinctTypeCodes toID)
    (host port serverID description : String) {d : EventDispatcher String η μ}
    (hreg : Registered toID d) {es : List (ReceptionEvent η μ)}
    (hrun : run (step P conf toID decode) (start P host port serverID description d) es = some r) :
    r.appended = r.connection.upcalls.filterMap (Upcall.event toID decode) ∧
      (P.order = .little → r.connection.isOpen = true → r.connection.connected = true →
        r.connection.escaped = false → r.connection.reads = [⟨.read .head 4 [], none⟩] →
        r.connection.inbox = [] →
        ∀ (msgs : List (Message P)) (fs : List (ReceptionEvent η μ)) (r' : Reception η μ),
          (∀ e ∈ fs.filterMap ReceptionEvent.io?, e.IsRead) →
          arrived (fs.filterMap ReceptionEvent.io?) = msgs.flatMap Message.frame →
          run (step P conf toID decode) r fs = some r' → r'.connection.Quiet P →
          r'.appended =
            r.appended ++ msgs.filterMap fun m => m.upcall.event toID decode) := by
  obtain ⟨h, -⟩ := run_connection hdistinct
    (appended_start host port serverID description hreg) hrun
  refine ⟨h.appended, fun hP ho hc hesc hr hin msgs fs r' hfs harr hrun' hquiet => ?_⟩
  obtain ⟨h', hrun''⟩ := run_connection hdistinct h hrun'
  have hexpects : r.connection.Expects
      (arrived (fs.filterMap ReceptionEvent.io?) ++ []) msgs :=
    .head [] none hr (by simp) (by simp [hin, harr])
  obtain ⟨hhealthy, done, todo, rfl, hup, hrest⟩ :=
    hexpects.run hP ⟨h.sized.chain, ho, hc, hesc⟩ hfs hrun''
  obtain ⟨rfl, -, -⟩ := hrest.delivered_of_quiet hhealthy hquiet
  rw [h'.appended, hup, List.filterMap_append, ← h.appended, List.filterMap_map, List.append_nil]
  rfl

/-- A frame with an unknown type code, one that does not decode, one that makes `decode` raise,
and a good one, with 3 bytes to a block. -/
theorem events_of_frames_mixed :
    let P : Platform := ⟨Heap.const 0, .little, headerLengthFix⟩
    let conf : LuaConf := ⟨3, 20, by decide⟩
    let toID (name : String) : ℤ :=
      if name = "ResponseWorldList" then 101001
      else if name = "ResponseUserRegister" then 101002
      else if name = "ResponseLogin" then 102001
      else 102002
    let decode (_ : String) (buffer : Bytes) : Decoded Bytes :=
      match buffer with
      | [] => .false
      | 0 :: _ => .error
      | _ => .message buffer
    let d : EventDispatcher String ℕ Bytes :=
      (distributeRules toID).foldl (fun d v => d.addHandler v.event 0) .start
    let es : List (ReceptionEvent ℕ Bytes) := [.io (.connectDone 0), .io (.runRead 0)] ++
      ([[0, 0, 0, 4, 0, 0, 0, 9], [0, 0, 0, 4, 0, 1, 138, 137], [0, 0, 0, 5, 0, 1, 138, 137, 0],
        [0, 0, 0, 8, 0, 1, 138, 137, 5, 6, 7, 8]] : List Bytes).flatMap fun frame =>
          [.io (.arrive frame), .io (.readSome 0 4), .io (.runRead 0),
            .io (.readSome 0 (frame.length - 4)), .io (.runRead 0)]
    ∃ r, run (Reception.step P conf toID decode) (Reception.start P "" "" "" "" d) es = some r ∧
      r.appended = r.connection.upcalls.filterMap (Upcall.event toID decode) ∧
      r.appended = [(ModelEvent.worldListNotify, [[5, 6, 7, 8]])] := by
  intro P conf toID decode d es
  have h : ∃ r, run (Reception.step P conf toID decode) (Reception.start P "" "" "" "" d) es =
      some r ∧ r.appended = [(ModelEvent.worldListNotify, [[5, 6, 7, 8]])] :=
    exists_run_of_any (by decide +kernel)
  obtain ⟨r, hrun, happ⟩ := h
  exact ⟨r, hrun, (events_of_frames (by decide +kernel) "" "" "" ""
    (by decide +kernel) hrun).1, happ⟩

end Reception

end SockTestProgram
