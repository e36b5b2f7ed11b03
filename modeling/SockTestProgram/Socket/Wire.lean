import SockTestProgram.Lib.Interleave
import SockTestProgram.Socket.Sides

/-!
# The bytes on the socket

`write` starts a composed `async_write` at once, whether or not an earlier one still has bytes to
send.  On every run the bytes on the socket are an interleaving of beginnings of the frames; they
are a beginning of the concatenation of the frames if each `async_write` advances only when the
earlier ones have sent everything, in particular if `write` is called only then (`wire_spec`).
-/

open Memory Lts Interleave

namespace SockTestProgram

namespace Connection

variable {P : Platform} {c c' : Connection}

/-- The frame of a call of `write`, counted from 0. -/
def frameOf (c : Connection) (n : ℕ) : Bytes := c.frames.getD n []

theorem flatMap_frameOf (c : Connection) :
    (List.range c.frames.length).flatMap c.frameOf = c.frames.flatten := by
  have hmap : (List.range c.frames.length).map c.frameOf = c.frames := by
    refine List.ext_getElem (by simp) fun n h₁ h₂ => ?_
    simp [frameOf, h₂]
  rw [List.flatMap_def, hmap]

/-! ## Interleaving -/

/-- What an outstanding `async_write` sent is the part of its frame that is on the socket. -/
def WriteOk (c : Connection) (parts : ℕ → Bytes) (p : Outstanding WriteOp) : Prop :=
  c.frames[p.op.call]? = some p.op.buffer ∧ parts p.op.call = p.op.buffer.take p.op.sent ∧
    (p.finished = none → p.op.sent < p.op.buffer.length)

/-- The bytes on the socket are the bytes `parts n` of the frames `n`, put together in some
order. -/
structure Wired (c : Connection) (parts : ℕ → Bytes) : Prop where
  interleaving : Interleaving c.wire parts
  beginning : ∀ n, parts n <+: c.frameOf n
  writes : ∀ p ∈ c.writes, WriteOk c parts p
  /-- the outstanding `async_write`s are in the order of the calls -/
  order : c.writes.Pairwise fun p q => p.op.call < q.op.call

theorem Wired.of_sameWrites {parts : ℕ → Bytes} (h : c.Wired parts) (hs : SameWrites c c') :
    c'.Wired parts := by
  refine ⟨hs.wire ▸ h.interleaving, ?_, ?_, hs.writes ▸ h.order⟩
  · simpa only [frameOf, hs.frames] using h.beginning
  · simpa only [WriteOk, hs.frames, hs.writes] using h.writes

/-- An `async_write` of a frame is started. -/
theorem Wired.asyncWrite {parts : ℕ → Bytes} (h : c.Wired parts) (buffer : Bytes) :
    (c.perform (.asyncWrite buffer)).Wired parts := by
  have hframe {n : ℕ} {b : Bytes} (hn : c.frames[n]? = some b) :
      (c.frames ++ [buffer])[n]? = some b := by
    have hlt := (List.getElem?_eq_some_iff.1 hn).1
    rw [List.getElem?_append_left hlt, hn]
  have hnew : parts c.frames.length = [] := by
    simpa [frameOf] using h.beginning c.frames.length
  refine ⟨h.interleaving, fun n => ?_, ?_, ?_⟩
  · cases hn : c.frames[n]? with
    | some b => simpa [perform, frameOf, hframe hn, hn] using h.beginning n
    | none =>
      have hnil : parts n = [] := by simpa [frameOf, hn] using h.beginning n
      rw [hnil]
      exact List.nil_prefix
  · intro p hp
    rcases List.mem_append.1 hp with hp | hp
    · obtain ⟨h₁, h₂⟩ := h.writes p hp
      exact ⟨hframe h₁, h₂⟩
    · obtain rfl := List.mem_singleton.1 hp
      refine ⟨by simp [perform], by simp [hnew], fun hf => Nat.pos_of_ne_zero fun h0 => ?_⟩
      simp [begun, h0] at hf
  · refine List.pairwise_append.2 ⟨h.order, by simp, fun p hp q hq => ?_⟩
    obtain rfl := List.mem_singleton.1 hq
    exact (List.getElem?_eq_some_iff.1 (h.writes p hp).1).1

/-- Outstanding `async_write`s are given up or finish with an error. -/
theorem Wired.of_subset {parts : ℕ → Bytes} (h : c.Wired parts) (hw : c'.wire = c.wire)
    (hf : c'.frames = c.frames)
    (hs : ∀ p ∈ c'.writes, ∃ q ∈ c.writes, q.op = p.op ∧ (p.finished = none → q.finished = none))
    (ho : c'.writes.Pairwise fun p q => p.op.call < q.op.call) : c'.Wired parts := by
  refine ⟨hw ▸ h.interleaving, ?_, fun p hp => ?_, ho⟩
  · simpa only [frameOf, hf] using h.beginning
  · obtain ⟨q, hq, hop, hfin⟩ := hs p hp
    obtain ⟨h₁, h₂, h₃⟩ := h.writes q hq
    rw [hop] at h₁ h₂ h₃
    exact ⟨hf ▸ h₁, h₂, fun hp' => h₃ (hfin hp')⟩

/-- A relation between the elements of a list is kept when one of them is replaced by one that is
related to at least as much. -/
theorem pairwise_set {α : Type*} {R : α → α → Prop} {l : List α} {i : ℕ} {p q : α}
    (h : l.Pairwise R) (hi : l[i]? = some p) (hl : ∀ a, R a p → R a q) (hr : ∀ a, R p a → R q a) :
    (l.set i q).Pairwise R := by
  induction l generalizing i with
  | nil => simp at hi
  | cons a l ih =>
    obtain ⟨ha, h⟩ := List.pairwise_cons.1 h
    cases i with
    | zero =>
      obtain rfl : a = p := by simpa using hi
      exact List.pairwise_cons.2 ⟨fun b hb => hr b (ha b hb), h⟩
    | succ i =>
      refine List.pairwise_cons.2 ⟨fun b hb => ?_, ih h (by simpa using hi)⟩
      rcases List.mem_or_eq_of_mem_set hb with hb | rfl
      · exact ha b hb
      · exact hl a (ha p (List.mem_of_getElem? (by simpa using hi)))

/-- Different outstanding `async_write`s come from different calls. -/
theorem Wired.call_ne {parts : ℕ → Bytes} (h : c.Wired parts) {i j : ℕ}
    {p q : Outstanding WriteOp} (hi : c.writes[i]? = some p) (hj : c.writes[j]? = some q)
    (hij : i ≠ j) : p.op.call ≠ q.op.call := by
  obtain ⟨hil, rfl⟩ := List.getElem?_eq_some_iff.1 hi
  obtain ⟨hjl, rfl⟩ := List.getElem?_eq_some_iff.1 hj
  rcases Nat.lt_or_gt_of_ne hij with hlt | hlt
  · exact (List.pairwise_iff_getElem.1 h.order i j hil hjl hlt).ne
  · exact (List.pairwise_iff_getElem.1 h.order j i hjl hil hlt).ne'

/-- Bytes of an `async_write` are put on the socket. -/
theorem Wired.writeSome {parts : ℕ → Bytes} (h : c.Wired parts) {i k : ℕ} {w : WriteOp}
    (hi : c.writes[i]? = some ⟨w, none⟩) (hk : w.sent + k ≤ w.buffer.length) {f : Option Bool}
    (hf : f = none → w.sent + k ≠ w.buffer.length) :
    Wired { c with
      wire := c.wire ++ slice w.buffer w.sent k
      writes := c.writes.set i ⟨{ w with sent := w.sent + k }, f⟩ }
      (Function.update parts w.call (parts w.call ++ slice w.buffer w.sent k)) := by
  obtain ⟨hframe, hpart, -⟩ := h.writes _ (List.mem_of_getElem? hi)
  have hpart' : parts w.call ++ slice w.buffer w.sent k = w.buffer.take (w.sent + k) := by
    rw [hpart, slice, List.take_add]
  rw [hpart']
  refine ⟨?_, fun n => ?_, fun p hp => ?_, pairwise_set h.order hi (fun _ => id) fun _ => id⟩
  · rw [← hpart']
    exact h.interleaving.append w.call _
  · by_cases hn : n = w.call
    · subst hn
      simp only [Function.update_self, frameOf, List.getD_eq_getElem?_getD, hframe]
      exact List.take_prefix _ _
    · rw [Function.update_of_ne hn]
      exact h.beginning n
  · obtain ⟨j, hj⟩ := List.mem_iff_getElem?.1 hp
    by_cases hij : i = j
    · subst hij
      rw [List.getElem?_set_self (List.getElem?_eq_some_iff.1 hi).1] at hj
      obtain rfl := Option.some.inj hj
      exact ⟨hframe, Function.update_self .., fun hf' => lt_of_le_of_ne hk (hf hf')⟩
    · -- another operation, of another call
      rw [List.getElem?_set_ne hij] at hj
      obtain ⟨h₁, h₂, h₃⟩ := h.writes p (List.mem_of_getElem? hj)
      exact ⟨h₁, (Function.update_of_ne (h.call_ne hi hj hij).symm _ _).trans h₂, h₃⟩

/-- What an event puts on the socket: the number of the frame, and bytes of it. -/
def putOn (c : Connection) : Event → Option (ℕ × Bytes)
  | .writeSome i k => c.writes[i]?.map fun p => (p.op.call, slice p.op.buffer p.op.sent k)
  | _ => none

/-- The parts of the frames on the socket after an event. -/
def partsAfter (c : Connection) (parts : ℕ → Bytes) (e : Event) : ℕ → Bytes :=
  match c.putOn e with
  | some (n, xs) => Function.update parts n (parts n ++ xs)
  | none => parts

/-- Only an `async_write` that advances puts anything on the socket. -/
theorem partsAfter_eq (c : Connection) (parts : ℕ → Bytes) {e : Event}
    (he : ∀ i k, e ≠ .writeSome i k) : c.partsAfter parts e = parts := by
  cases e with
  | writeSome i k => exact absurd rfl (he i k)
  | _ => rfl

theorem wired_step {parts : ℕ → Bytes} {e : Event} (h : c.Wired parts)
    (hs : c.step P e = some c') : c'.Wired (c.partsAfter parts e) := by
  cases writeSide_of_step hs with
  | writeSome hi hle =>
    simp only [partsAfter, putOn, hi, Option.map_some]
    exact h.writeSome hi hle (by simp)
  | writeFail hi =>
    refine h.of_subset rfl rfl (fun p hp => ?_) (pairwise_set h.order hi (fun _ => id) fun _ => id)
    rcases List.mem_or_eq_of_mem_set hp with hp | rfl
    · exact ⟨p, hp, rfl, id⟩
    · exact ⟨_, List.mem_of_getElem? hi, rfl, by simp⟩
  | runWrite hi hsame =>
    refine h.of_subset hsame.wire hsame.frames (fun p hp => ?_) ?_
    · rw [hsame.writes] at hp
      exact ⟨p, List.mem_of_mem_eraseIdx hp, rfl, id⟩
    · rw [hsame.writes]
      exact h.order.sublist (List.eraseIdx_sublist ..)
  | runClosed =>
    refine h.of_subset rfl rfl (fun p hp => ?_) (List.pairwise_map.2 h.order)
    obtain ⟨q, hq, rfl⟩ := List.mem_map.1 hp
    exact ⟨q, hq, rfl, by simp [Outstanding.abort]⟩
  | callWrite => exact h.asyncWrite _
  | other he hsame =>
    rw [c.partsAfter_eq parts he]
    exact h.of_sameWrites hsame

theorem wired_connecting (host port serverID description : String) :
    (connecting P host port serverID description).Wired fun _ => [] :=
  ⟨interleaving_nil, fun _ => List.nil_prefix, by simp [connecting, after, SockSession.connect,
    idle, perform], List.Pairwise.nil⟩

/-! ## Order -/

/-- No outstanding `async_write` failed. -/
def NoWriteError (c : Connection) : Prop := ∀ p ∈ c.writes, p.finished ≠ some true

/-- An `async_write` advances only when those before it have nothing left to send. -/
def InTurn (c : Connection) : Event → Prop
  | .writeSome i _ => ∀ p ∈ c.writes.take i, p.finished ≠ none
  | _ => True

/-- `write` is called only when no `async_write` has anything left to send. -/
def NoOverlap (c : Connection) : Event → Prop
  | .callWrite _ _ => ∀ p ∈ c.writes, p.finished ≠ none
  | _ => True

instance : DecidablePred NoWriteError :=
  fun c => inferInstanceAs (Decidable (∀ p ∈ c.writes, p.finished ≠ some true))

instance (c : Connection) : DecidablePred c.InTurn
  | .writeSome i _ => inferInstanceAs (Decidable (∀ p ∈ c.writes.take i, p.finished ≠ none))
  | .arrive _ | .connectDone _ | .readSome _ _ | .readFail _ | .runRead _ | .writeFail _
  | .runWrite _ | .runClosed | .callWrite _ _ | .callClose => isTrue trivial

/-- The frames are on the socket one after another. -/
structure Ordered (c : Connection) (parts : ℕ → Bytes) : Prop where
  wired : c.Wired parts
  wire : c.wire = (List.range c.frames.length).flatMap parts
  inOrder : InOrder parts c.frameOf
  /-- a frame is complete if its `async_write` has nothing left to send -/
  complete : c.NoWriteError → ∀ n < c.frames.length,
    (∀ p ∈ c.writes, p.op.call = n → p.finished ≠ none) → parts n = c.frameOf n

theorem Ordered.of_eq {parts : ℕ → Bytes} (h : c.Ordered parts) (hw : c'.Wired parts)
    (hwire : c'.wire = c.wire) (hf : c'.frames = c.frames)
    (hs : c'.NoWriteError → c.NoWriteError ∧ ∀ n,
      (∀ p ∈ c'.writes, p.op.call = n → p.finished ≠ none) →
        ∀ p ∈ c.writes, p.op.call = n → p.finished ≠ none) : c'.Ordered parts := by
  have hframe : c'.frameOf = c.frameOf := by
    funext n
    rw [frameOf, frameOf, hf]
  refine ⟨hw, by rw [hwire, hf, h.wire], hframe ▸ h.inOrder, fun he n hn hdone => ?_⟩
  obtain ⟨he', hdone'⟩ := hs he
  rw [hframe]
  exact h.complete he' n (hf ▸ hn) (hdone' n hdone)

theorem Ordered.asyncWrite {parts : ℕ → Bytes} (h : c.Ordered parts) (buffer : Bytes) :
    (c.perform (.asyncWrite buffer)).Ordered parts := by
  have hnil {n : ℕ} (hn : c.frames.length ≤ n) : parts n = [] := by
    simpa [frameOf, hn] using h.wired.beginning n
  have hframe {n : ℕ} (hn : n < c.frames.length) :
      (c.perform (.asyncWrite buffer)).frameOf n = c.frameOf n := by
    simp [frameOf, perform, List.getElem?_append_left hn]
  refine ⟨h.wired.asyncWrite buffer, ?_, fun a b hab hb => ?_, fun he n hn hdone => ?_⟩
  · simp only [perform, List.length_append, List.length_singleton, List.range_succ,
      List.flatMap_append, List.flatMap_singleton, hnil le_rfl, List.append_nil, h.wire]
  · have hlt : b < c.frames.length := by
      by_contra hge
      exact hb (hnil (Nat.le_of_not_lt hge))
    rw [hframe (hab.trans hlt)]
    exact h.inOrder a b hab hb
  · simp only [NoWriteError, perform, List.mem_append, List.mem_singleton] at he hdone
    rcases Nat.lt_succ_iff_lt_or_eq.1 (by simpa [perform] using hn) with hlt | rfl
    · rw [hframe hlt]
      exact h.complete (fun p hp => he p (.inl hp)) n hlt fun p hp => hdone p (.inl hp)
    · -- the new frame is complete only if it is empty
      have hempty : buffer = [] := by
        by_contra hne
        have hpos : buffer.length ≠ 0 := mt List.length_eq_zero_iff.1 hne
        have h₁ := he _ (.inr rfl)
        have h₂ := hdone _ (.inr rfl) rfl
        cases ho : c.isOpen <;> simp [begun, hpos, ho] at h₁ h₂
      simp [frameOf, perform, hnil le_rfl, hempty]

/-- A write in progress: the frames of the calls before it are complete if it is its turn. -/
theorem Ordered.eq_frameOf_of_lt {parts : ℕ → Bytes} (h : c.Ordered parts) (he : c.NoWriteError)
    {i : ℕ} {w : WriteOp} (hi : c.writes[i]? = some ⟨w, none⟩)
    (hturn : ∀ p ∈ c.writes.take i, p.finished ≠ none) {a : ℕ} (ha : a < w.call) :
    parts a = c.frameOf a := by
  obtain ⟨hframe, -, -⟩ := h.wired.writes _ (List.mem_of_getElem? hi)
  obtain ⟨hn, -⟩ := List.getElem?_eq_some_iff.1 hframe
  refine h.complete he a (ha.trans hn) fun p hp hcall hnone => ?_
  obtain ⟨j, hj⟩ := List.mem_iff_getElem?.1 hp
  obtain ⟨hjl, hjc⟩ := List.getElem?_eq_some_iff.1 hj
  obtain ⟨hil, hic⟩ := List.getElem?_eq_some_iff.1 hi
  rcases Nat.lt_or_ge j i with hji | hij
  · exact hturn p (List.mem_of_getElem? (by rw [List.getElem?_take_of_lt hji, hj])) hnone
  · rcases Nat.eq_or_lt_of_le hij with rfl | hlt'
    · obtain rfl : (⟨w, none⟩ : Outstanding WriteOp) = p := Option.some.inj (hi.symm.trans hj)
      exact ha.ne' hcall
    · have := List.pairwise_iff_getElem.1 h.wired.order i j hil hjl hlt'
      rw [hic, hjc] at this
      exact absurd (hcall ▸ this) (by simpa using ha.le)

/-- A write in progress: the frames of the calls after it are not begun. -/
theorem Ordered.eq_nil_of_lt {parts : ℕ → Bytes} (h : c.Ordered parts) {i : ℕ} {w : WriteOp}
    (hi : c.writes[i]? = some ⟨w, none⟩) {b : ℕ} (hb : w.call < b) : parts b = [] := by
  obtain ⟨hframe, hpart, hlt⟩ := h.wired.writes _ (List.mem_of_getElem? hi)
  have hincomplete : parts w.call ≠ c.frameOf w.call := by
    intro heq
    have hwhole : c.frameOf w.call = w.buffer := by simp [frameOf, hframe]
    have hlen := congrArg List.length (hpart.symm.trans (heq.trans hwhole))
    have hlt' : w.sent < w.buffer.length := hlt rfl
    simp only [List.length_take] at hlen
    omega
  by_contra hne
  exact hincomplete (h.inOrder w.call b hb hne)

theorem Ordered.writeSome {parts : ℕ → Bytes} (h : c.Ordered parts) (he : c.NoWriteError) {i k : ℕ}
    {w : WriteOp} (hi : c.writes[i]? = some ⟨w, none⟩) (hk : w.sent + k ≤ w.buffer.length)
    (hturn : ∀ p ∈ c.writes.take i, p.finished ≠ none) {f : Option Bool}
    (hf : f = none ↔ w.sent + k ≠ w.buffer.length) :
    Ordered { c with
      wire := c.wire ++ slice w.buffer w.sent k
      writes := c.writes.set i ⟨{ w with sent := w.sent + k }, f⟩ }
      (Function.update parts w.call (parts w.call ++ slice w.buffer w.sent k)) := by
  obtain ⟨hframe, hpart, -⟩ := h.wired.writes _ (List.mem_of_getElem? hi)
  obtain ⟨hn, -⟩ := List.getElem?_eq_some_iff.1 hframe
  have hwhole : c.frameOf w.call = w.buffer := by simp [frameOf, hframe]
  refine ⟨h.wired.writeSome hi hk hf.1, ?_, fun a b hab hb => ?_, fun he' n hn' hdone => ?_⟩
  · rw [flatMap_range_update hn fun b hb => h.eq_nil_of_lt hi hb, h.wire]
  · rcases Nat.lt_or_ge w.call b with hlt' | hle
    · exact absurd (by rw [Function.update_of_ne hlt'.ne', h.eq_nil_of_lt hi hlt']) hb
    · rw [Function.update_of_ne (hab.trans_le hle).ne]
      exact h.eq_frameOf_of_lt he hi hturn (hab.trans_le hle)
  · have hset : (⟨{ w with sent := w.sent + k }, f⟩ : Outstanding WriteOp) ∈
        c.writes.set i ⟨{ w with sent := w.sent + k }, f⟩ :=
      List.mem_of_getElem? (List.getElem?_set_self (List.getElem?_eq_some_iff.1 hi).1)
    by_cases hcall : n = w.call
    · subst hcall
      have hfull : w.sent + k = w.buffer.length := by
        by_contra hne
        exact hdone _ hset rfl (hf.2 hne)
      rw [Function.update_self, hpart, slice, ← List.take_add, hfull, List.take_length]
      exact hwhole.symm
    · rw [Function.update_of_ne hcall]
      refine h.complete he n hn' fun p hp hpn => ?_
      obtain ⟨j, hj⟩ := List.mem_iff_getElem?.1 hp
      have hij : i ≠ j := by
        rintro rfl
        obtain rfl := Option.some.inj (hi.symm.trans hj)
        exact hcall hpn.symm
      exact hdone p (List.mem_of_getElem? (by rw [List.getElem?_set_ne hij, hj])) hpn

theorem ordered_step {parts : ℕ → Bytes} {e : Event} (h : c.Ordered parts) (he : c.NoWriteError)
    (hturn : c.InTurn e) (hs : c.step P e = some c') : c'.Ordered (c.partsAfter parts e) := by
  have hwired := wired_step h.wired hs
  cases writeSide_of_step hs with
  | writeSome hi hle =>
    simp only [partsAfter, putOn, hi, Option.map_some]
    exact h.writeSome he hi hle hturn (by simp)
  | @writeFail i w hi =>
    refine h.of_eq hwired rfl rfl fun hno => absurd rfl (hno ⟨w, some true⟩ ?_)
    exact List.mem_of_getElem? (List.getElem?_set_self (List.getElem?_eq_some_iff.1 hi).1)
  | @runWrite i w error _ hi hsame =>
    refine h.of_eq hwired hsame.wire hsame.frames fun _ => ⟨he, ?_⟩
    -- the operation whose handler ran had nothing left to send
    intro n hdone p hp hcall hnone
    obtain ⟨j, hj⟩ := List.mem_iff_getElem?.1 hp
    have hij : j ≠ i := by
      rintro rfl
      obtain rfl := Option.some.inj (hi.symm.trans hj)
      simp at hnone
    refine hdone p ?_ hcall hnone
    rw [hsame.writes]
    exact List.mem_eraseIdx_iff_getElem?.2 ⟨j, hij, hj⟩
  | runClosed =>
    -- without an error nothing was left to send
    refine h.of_eq hwired rfl rfl fun hno => ⟨he, fun n _ p hp _ hnone => ?_⟩
    have := hno p.abort (List.mem_map.2 ⟨p, hp, rfl⟩)
    simp [Outstanding.abort, hnone] at this
  | callWrite => exact h.asyncWrite _
  | other hne hsame =>
    rw [c.partsAfter_eq parts hne] at hwired ⊢
    exact h.of_eq hwired hsame.wire hsame.frames fun _ =>
      ⟨he, fun _ hdone => by rwa [hsame.writes] at hdone⟩

theorem ordered_connecting (host port serverID description : String) :
    (connecting P host port serverID description).Ordered fun _ => [] :=
  ⟨wired_connecting _ _ _ _, by simp [connecting, after, SockSession.connect, idle, perform],
    fun _ _ _ h => absurd rfl h, fun _ n hn => absurd hn (by simp [connecting, after,
      SockSession.connect, idle, perform])⟩

/-! ## Calls that do not overlap -/

/-- At most one `async_write` has anything left to send. -/
def OneInProgress (c : Connection) : Prop :=
  c.writes.Pairwise fun p q => p.finished = none → q.finished ≠ none

theorem OneInProgress.inTurn (h : c.OneInProgress) {e : Event} {c' : Connection}
    (hs : c.step P e = some c') : c.InTurn e := by
  cases e with
  | writeSome i k =>
    obtain ⟨w, hi, -⟩ := (step_eq_some_iff.1 hs).2
    intro p hp hnone
    obtain ⟨j, hj⟩ := List.mem_iff_getElem?.1 hp
    have hlt : j < i := by
      have := (List.getElem?_eq_some_iff.1 hj).1
      simp only [List.length_take] at this
      omega
    rw [List.getElem?_take_of_lt hlt] at hj
    obtain ⟨hil, hic⟩ := List.getElem?_eq_some_iff.1 hi
    obtain ⟨hjl, hjc⟩ := List.getElem?_eq_some_iff.1 hj
    have := List.pairwise_iff_getElem.1 h j i hjl hil hlt
    rw [hic, hjc] at this
    exact this hnone rfl
  | _ => trivial

theorem oneInProgress_step {e : Event} (h : c.OneInProgress) (he : c.NoOverlap e)
    (hs : c.step P e = some c') : c'.OneInProgress := by
  cases writeSide_of_step hs with
  | writeSome hi _ =>
    exact pairwise_set h hi (fun p hp hnone => absurd rfl (hp hnone)) fun q hq _ => hq rfl
  | writeFail hi => exact pairwise_set h hi (fun p _ _ => by simp) fun q _ hnone => by simp at hnone
  | runWrite _ hsame =>
    rw [OneInProgress, hsame.writes]
    exact List.Pairwise.sublist (List.eraseIdx_sublist ..) h
  | runClosed => exact List.pairwise_map.2 (h.imp fun _ _ => by simp [Outstanding.abort])
  | callWrite =>
    refine List.pairwise_append.2 ⟨h, by simp, fun p hp q _ hnone => ?_⟩
    exact absurd hnone (he p hp)
  | other _ hsame =>
    rw [OneInProgress, hsame.writes]
    exact h

/-- If calls of `write` do not overlap, each `async_write` is in turn. -/
theorem inTurn_of_noOverlap {es : List Event} (h : c.OneInProgress)
    (hs : run (step P) c es = some c') (hno : AllSteps (step P) NoOverlap c es) :
    AllSteps (step P) InTurn c es := by
  induction es generalizing c with
  | nil => trivial
  | cons e es ih =>
    obtain ⟨m, hm, hrest⟩ := run_cons_eq_some_iff.1 hs
    refine ⟨h.inTurn hm, fun s' hs' => ?_⟩
    obtain rfl := Option.some.inj (hm.symm.trans hs')
    exact ih (oneInProgress_step h hno.1 hm) hrest (hno.2 m hm)

/-- **The bytes on the socket.**  In every run they are an interleaving of beginnings of the frames.
While no write fails they are a beginning of the concatenation of the frames in call order, provided
that every `async_write` advances only when the earlier ones have nothing left to send; which is so
if `write` is only called then. -/
theorem wire_spec (host port serverID description : String) {es : List Event}
    (hrun : run (step P) (connecting P host port serverID description) es = some c) :
    (∃ parts, Interleaving c.wire parts ∧ ∀ n, parts n <+: c.frameOf n) ∧
      (AllSteps (step P) (fun c _ => c.NoWriteError) (connecting P host port serverID description)
          es →
        AllSteps (step P) InTurn (connecting P host port serverID description) es ∨
          AllSteps (step P) NoOverlap (connecting P host port serverID description) es →
        c.wire <+: c.frames.flatten) := by
  constructor
  · have hstep (c : Connection) (e : Event) (c' : Connection) (h : ∃ parts, c.Wired parts)
        (hs : c.step P e = some c') : ∃ parts, c'.Wired parts := by
      obtain ⟨parts, h⟩ := h
      exact ⟨_, wired_step h hs⟩
    obtain ⟨parts, h⟩ := run_invariant hstep hrun ⟨_, wired_connecting _ _ _ _⟩
    exact ⟨parts, h.interleaving, h.beginning⟩
  · intro hno hor
    have hturn : AllSteps (step P) InTurn (connecting P host port serverID description) es :=
      hor.elim id (inTurn_of_noOverlap (by simp [OneInProgress, connecting, after,
        SockSession.connect, idle, perform]) hrun)
    have hstep (c : Connection) (e : Event) (c' : Connection) (h : ∃ parts, c.Ordered parts)
        (he : c.NoWriteError ∧ c.InTurn e) (hs : c.step P e = some c') :
        ∃ parts, c'.Ordered parts := by
      obtain ⟨parts, h⟩ := h
      exact ⟨_, ordered_step h he.1 he.2 hs⟩
    obtain ⟨parts, h⟩ := run_invariant_of hstep hrun ⟨_, ordered_connecting _ _ _ _⟩
      (allSteps_and.2 ⟨hno, hturn⟩)
    rw [h.wire, ← flatMap_frameOf]
    exact h.inOrder.flatMap_isPrefix h.wired.beginning _

/-- Two calls of `write`, the second when the bytes of the first are on the socket but for one; the
second `async_write` then waits. -/
theorem wire_spec_in_turn :
    let P : Platform := ⟨Heap.const 0, .little, headerLengthFix⟩
    let es := [Event.connectDone 0, .callWrite 1 [5], .writeSome 0 8, .callWrite 2 [],
      .writeSome 0 1, .writeSome 1 3]
    ∃ c, run (step P) (connecting P "" "" "" "") es = some c ∧ c.wire.length = 12 ∧
      c.wire <+: c.frames.flatten := by
  intro P es
  have h : ∃ c, run (step P) (connecting P "" "" "" "") es = some c ∧ c.wire.length = 12 :=
    exists_run_of_any (by decide +kernel)
  obtain ⟨c, hrun, hlen⟩ := h
  exact ⟨c, hrun, hlen, (wire_spec "" "" "" "" hrun).2 (by decide +kernel)
    (.inl (by decide +kernel))⟩

/-- A second call of `write` while the first frame lacks a byte: three bytes of the second frame get
in between. -/
theorem frames_interleave :
    let P : Platform := ⟨Heap.const 0, .little, headerLengthFix⟩
    let es := [Event.connectDone 0, .callWrite 1 [], .callWrite 2 [], .writeSome 0 7,
      .writeSome 1 3, .writeSome 0 1]
    ∃ c, run (step P) (connecting P "" "" "" "") es = some c ∧
      AllSteps (step P) (fun c _ => c.NoWriteError) (connecting P "" "" "" "") es ∧
      c.wire = [0, 0, 0, 4, 0, 0, 0, 0, 0, 0, 1] ∧ ¬ c.wire <+: c.frames.flatten := by
  intro P es
  have h : ∃ c, run (step P) (connecting P "" "" "" "") es = some c ∧
      c.wire = [0, 0, 0, 4, 0, 0, 0, 0, 0, 0, 1] ∧ ¬ c.wire <+: c.frames.flatten :=
    exists_run_of_any (by decide +kernel)
  obtain ⟨c, hrun, hwire, hnot⟩ := h
  exact ⟨c, hrun, by decide +kernel, hwire, hnot⟩

end Connection

end SockTestProgram
