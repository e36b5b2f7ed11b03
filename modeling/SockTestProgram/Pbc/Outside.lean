import SockTestProgram.Pbc.Decode

/-!
# Reading outside a message

`_pbcC_open` compares the length of a string with what is left of the message as words of 32 bits,
and it reads a length that does not end before the message from bytes that were never written.  It
does not leave a message exactly if neither happens (`pbcCOpen_eq_undefined_iff`).  `pbc_decode`
takes the two words of a packed field for the start and the end of an array, whatever the field is
encoded as, and reads the last numbers of an array of varints from the message, not from the copy
that it has made of them: these too may leave it (`pbcDecode_eq_undefined_iff`).
-/

open Varint

namespace SockTestProgram

theorem wordLE_take_append {b x : Bytes} {n : ℕ} (h : 4 ≤ n) (hn : n ≤ b.length) :
    wordLE (b.take n ++ x) = wordLE b := by
  obtain ⟨k, rfl⟩ := Nat.exists_eq_add_of_le' h
  match b, hn with
  | _ :: _ :: _ :: _ :: _, _ => rfl

/-- What follows a tag takes no more bytes than there are, and nothing behind them counts. -/
theorem valueDecode_reaches {w : BitVec 32} {b : Bytes} {start : ℕ} {a : Atom} {n : ℕ}
    (h : valueDecode w b start = .ok (a, n)) :
    n ≤ b.length ∧ ∀ x, valueDecode w (b.take n ++ x) start = .ok (a, n) := by
  unfold valueDecode at h ⊢
  split at h
  next =>
    cases hv : pbcVDecode b with
    | none =>
      rw [hv] at h
      cases h
    | some p =>
      obtain ⟨r, len⟩ := p
      rw [hv] at h
      cases h
      obtain ⟨-, hlen, -, hall⟩ := pbcVDecode_reaches hv
      exact ⟨hlen, fun x => by rw [hall x]⟩
  next =>
    split_ifs at h with hlt
    cases h
    have hn : 8 ≤ b.length := by omega
    refine ⟨hn, fun x => ?_⟩
    rw [if_neg (by have := length_le_of_take (x := x) hn; omega), wordLE_take_append (by decide) hn,
      drop_take_append (by decide) hn,
        wordLE_take_append (by decide) (by rw [List.length_drop]; omega)]
  next =>
    unfold lendDecode at h ⊢
    cases hv : pbcVDecode b with
    | none =>
      rw [hv] at h
      cases h
    | some p =>
      obtain ⟨r, len⟩ := p
      obtain ⟨-, hlen, -, hall⟩ := pbcVDecode_reaches hv
      rw [hv] at h
      simp only at h
      split_ifs at h with hfail houtside
      cases h
      have hn : len + r.low.toNat ≤ b.length := by omega
      refine ⟨hn, fun x => ?_⟩
      have hle := length_le_of_take (x := x) hn
      have hmod := Nat.mod_le (len + r.low.toNat) (2 ^ 32)
      rw [take_take_append (Nat.le_add_right len r.low.toNat), hall]
      rw [take_take_append (Nat.le_add_right len r.low.toNat)] at hle
      rw [not_or] at hfail
      simp only
      rw [if_neg (by rw [not_or]; exact ⟨by omega, hfail.2⟩), if_neg (by omega)]
  next =>
    split_ifs at h with hlt
    cases h
    have hn : 4 ≤ b.length := by omega
    refine ⟨hn, fun x => ?_⟩
    rw [if_neg (by have := length_le_of_take (x := x) hn; omega), wordLE_take_append le_rfl hn]
  next => cases h

theorem wiretypeDecode_reaches {b : Bytes} {start : ℕ} {a : Atom} {n : ℕ}
    (h : wiretypeDecode b start = .ok (a, n)) :
    1 ≤ n ∧ n ≤ b.length ∧ ∀ x, wiretypeDecode (b.take n ++ x) start = .ok (a, n) := by
  unfold wiretypeDecode at h ⊢
  cases hv : pbcVDecode b with
  | none =>
    rw [hv] at h
    cases h
  | some p =>
    obtain ⟨r, len⟩ := p
    obtain ⟨hpos, hlen, -, hall⟩ := pbcVDecode_reaches hv
    rw [hv] at h
    simp only at h
    split_ifs at h with hhi
    obtain ⟨⟨a', k⟩, hvalue, h⟩ := Opened.map_eq_ok h
    cases h
    obtain ⟨hk, hall'⟩ := valueDecode_reaches hvalue
    rw [List.length_drop] at hk
    have hn : len + k ≤ b.length := by omega
    refine ⟨by omega, hn, fun x => ?_⟩
    rw [take_take_append (Nat.le_add_right len k), hall]
    simp only [if_neg hhi]
    have hdrop : (b.take len ++ ((b.take (len + k)).drop len ++ x)).drop len =
        (b.drop len).take k ++ x := by
      rw [← take_take_append (Nat.le_add_right len k), drop_take_append (Nat.le_add_right len k) hn,
        Nat.add_sub_cancel_left]
    rw [hdrop, hall' x]
    rfl

/-! ## Fields one after another -/

/-- The fields of some bytes, which start at a place of the message. -/
def opens (b : Bytes) (start : ℕ) : Opened (List Atom) := openLoop b.length b start

theorem openLoop_cons (budget : ℕ) (c : UInt8) (b : Bytes) (start : ℕ) :
    openLoop (budget + 1) (c :: b) start = (wiretypeDecode (c :: b) start).bind fun p =>
      (openLoop budget ((c :: b).drop p.2) (start + p.2)).map (p.1 :: ·) := rfl

theorem openLoop_budget {b : Bytes} {budget budget' : ℕ} (h : b.length ≤ budget)
    (h' : b.length ≤ budget') (start : ℕ) :
    openLoop budget b start = openLoop budget' b start := by
  induction budget generalizing b budget' start with
  | zero =>
    obtain rfl := List.length_eq_zero_iff.1 (Nat.le_zero.1 h)
    cases budget' <;> rfl
  | succ budget ih =>
    cases b with
    | nil => cases budget' <;> rfl
    | cons c b =>
      obtain ⟨budget', rfl⟩ : ∃ k, budget' = k + 1 :=
        ⟨budget' - 1, by rw [List.length_cons] at h'; omega⟩
      rw [openLoop_cons, openLoop_cons]
      cases hd : wiretypeDecode (c :: b) start with
      | failed => rfl
      | undefined => rfl
      | ok p =>
        obtain ⟨a, n⟩ := p
        obtain ⟨hpos, hn, -⟩ := wiretypeDecode_reaches hd
        have hlength : ((c :: b).drop n).length = (c :: b).length - n := List.length_drop
        simp only [Opened.bind_ok]
        rw [ih (by omega) (show ((c :: b).drop n).length ≤ budget' by omega)]

@[simp] theorem opens_nil (start : ℕ) : opens [] start = .ok [] := rfl

theorem opens_of_ne_nil {b : Bytes} (hb : b ≠ []) (start : ℕ) :
    opens b start =
      (wiretypeDecode b start).bind fun p =>
        (opens (b.drop p.2) (start + p.2)).map (p.1 :: ·) := by
  obtain ⟨c, b, rfl⟩ := List.exists_cons_of_ne_nil hb
  unfold opens
  rw [List.length_cons, openLoop_cons]
  cases hd : wiretypeDecode (c :: b) start with
  | failed => rfl
  | undefined => rfl
  | ok p =>
    obtain ⟨a, n⟩ := p
    obtain ⟨hpos, hn, -⟩ := wiretypeDecode_reaches hd
    have hlength : ((c :: b).drop n).length = (c :: b).length - n := List.length_drop
    rw [List.length_cons] at hlength
    simp only [Opened.bind_ok]
    rw [openLoop_budget (show ((c :: b).drop n).length ≤ b.length by omega) le_rfl]

/-- The first field, and those behind it. -/
theorem opens_of_wiretypeDecode {b : Bytes} {start n : ℕ} {a : Atom}
    (h : wiretypeDecode b start = .ok (a, n)) :
    opens b start = (opens (b.drop n) (start + n)).map (a :: ·) := by
  have hne : b ≠ [] := by
    rintro rfl
    cases h
  rw [opens_of_ne_nil hne, h, Opened.bind_ok]

theorem opens_eq_ok_cons {b : Bytes} {start : ℕ} {a : Atom} {as : List Atom}
    (h : opens b start = .ok (a :: as)) :
    ∃ n, wiretypeDecode b start = .ok (a, n) ∧ opens (b.drop n) (start + n) = .ok as := by
  have hne : b ≠ [] := by
    rintro rfl
    cases h
  rw [opens_of_ne_nil hne] at h
  obtain ⟨⟨a', n⟩, hd, h⟩ := Opened.bind_eq_ok h
  obtain ⟨as', hrest, h⟩ := Opened.map_eq_ok h
  cases h
  exact ⟨n, hd, hrest⟩

theorem eq_nil_of_opens {b : Bytes} {start : ℕ} (h : opens b start = .ok []) : b = [] := by
  by_contra hne
  rw [opens_of_ne_nil hne] at h
  obtain ⟨p, -, h⟩ := Opened.bind_eq_ok h
  obtain ⟨as, -, h⟩ := Opened.map_eq_ok h
  cases h

/-- Whole fields are read as they are, whatever follows. -/
theorem opens_append {pre : Bytes} {start : ℕ} {as : List Atom} (h : opens pre start = .ok as)
    (b : Bytes) :
    opens (pre ++ b) start = (opens b (start + pre.length)).map (as ++ ·) := by
  induction as generalizing pre start with
  | nil =>
    obtain rfl := eq_nil_of_opens h
    cases hb : opens b (start + ([] : Bytes).length) <;> rw [List.nil_append] <;> exact hb
  | cons a as ih =>
    obtain ⟨n, hd, hrest⟩ := opens_eq_ok_cons h
    obtain ⟨-, hn, hall⟩ := wiretypeDecode_reaches hd
    have hsplit : pre ++ b = pre.take n ++ (pre.drop n ++ b) := by
      rw [← List.append_assoc, List.take_append_drop]
    have hdrop : (pre ++ b).drop n = pre.drop n ++ b := List.drop_append_of_le_length hn
    have hend : start + n + (pre.drop n).length = start + pre.length := by
      rw [List.length_drop]
      omega
    rw [opens_of_wiretypeDecode (hsplit ▸ hall (pre.drop n ++ b)), hdrop, ih hrest, hend]
    cases opens b (start + pre.length) <;> rfl

/-! ## Strings that are cut off -/

/-- The length that the bytes start with does not end, or as a word it is one of the numbers from
minus the bytes that it takes to -1. -/
def BadLength (rest : Bytes) : Prop :=
  pbcVDecode rest = none ∨
    ∃ r len, pbcVDecode rest = some (r, len) ∧ r.hi = 0 ∧ r.low.toInt < 0 ∧ 0 ≤ r.low.toInt + len

/-- After whole fields there is the tag of a string, and a bad length. -/
def CutsOff (buffer : Bytes) (start : ℕ) : Prop :=
  ∃ (pre tag rest : Bytes) (as : List Atom) (w : BitVec 32), buffer = pre ++ (tag ++ rest) ∧
    opens pre start = .ok as ∧
    pbcVDecode tag = some (⟨w, 0⟩, tag.length) ∧ w.toNat % 8 = 2 ∧ BadLength rest

theorem lendDecode_eq_undefined_iff (w : BitVec 32) {rest : Bytes} (hsize : rest.length < 2 ^ 31)
    (start : ℕ) :
    lendDecode w rest start = .undefined ↔ BadLength rest := by
  unfold lendDecode BadLength
  cases hv : pbcVDecode rest with
  | none => simp
  | some p =>
    obtain ⟨r, len⟩ := p
    obtain ⟨-, hlen, hten, -⟩ := pbcVDecode_reaches hv
    have hlow := r.low.isLt
    have hint : r.low.toNat < 2 ^ 31 ∧ r.low.toInt = r.low.toNat ∨
        2 ^ 31 ≤ r.low.toNat ∧ r.low.toInt = r.low.toNat - 2 ^ 32 := by
      have := BitVec.toInt_eq_toNat_cond r.low
      split_ifs at this <;> omega
    have hiff : (¬ (rest.length < (len + r.low.toNat) % 2 ^ 32 ∨ r.hi ≠ 0) ∧
        rest.length < len + r.low.toNat) ↔
        r.hi = 0 ∧ r.low.toInt < 0 ∧ 0 ≤ r.low.toInt + len := by
      rw [not_or, not_not]
      constructor
      · rintro ⟨⟨hfit, hhi⟩, hlt⟩
        exact ⟨hhi, by omega, by omega⟩
      · rintro ⟨hhi, hneg, hle⟩
        exact ⟨⟨by omega, hhi⟩, by omega⟩
    have hunique : (∃ r' len', some (r, len) = some (r', len') ∧ r'.hi = 0 ∧ r'.low.toInt < 0 ∧
        0 ≤ r'.low.toInt + len') ↔
        r.hi = 0 ∧ r.low.toInt < 0 ∧ 0 ≤ r.low.toInt + len := by
      constructor
      · rintro ⟨r', len', heq, h⟩
        cases heq
        exact h
      · exact fun h => ⟨r, len, rfl, h⟩
    rw [hunique, ← hiff]
    simp only [reduceCtorEq, false_or]
    split_ifs with hfail houtside
    · exact iff_of_false (by simp) fun h => h.1 hfail
    · exact iff_of_true rfl ⟨hfail, houtside⟩
    · exact iff_of_false (by simp) fun h => houtside h.2

theorem wiretypeDecode_eq_undefined_iff {b : Bytes} (hsize : b.length < 2 ^ 31) (start : ℕ) :
    wiretypeDecode b start = .undefined ↔ ∃ (tag rest : Bytes) (w : BitVec 32), b = tag ++ rest ∧
      pbcVDecode tag = some (⟨w, 0⟩, tag.length) ∧ w.toNat % 8 = 2 ∧ BadLength rest := by
  constructor
  · intro h
    unfold wiretypeDecode at h
    cases hv : pbcVDecode b with
    | none =>
      rw [hv] at h
      cases h
    | some p =>
      obtain ⟨⟨w, hi⟩, len⟩ := p
      obtain ⟨-, hlen, -, hall⟩ := pbcVDecode_reaches hv
      rw [hv] at h
      simp only at h
      split_ifs at h with hhi
      obtain rfl : hi = 0 := not_not.1 hhi
      have htag : pbcVDecode (b.take len) = some (⟨w, 0⟩, (b.take len).length) := by
        rw [List.length_take, Nat.min_eq_left hlen]
        simpa using hall []
      have hvalue : valueDecode w (b.drop len) (start + len) = .undefined := by
        cases hd : valueDecode w (b.drop len) (start + len) with
        | undefined => rfl
        | failed | ok =>
          rw [hd] at h
          cases h
      refine ⟨b.take len, b.drop len, w, (List.take_append_drop len b).symm, htag, ?_⟩
      unfold valueDecode at hvalue
      split at hvalue
      next => split at hvalue <;> cases hvalue
      next => split_ifs at hvalue
      next hw =>
        refine ⟨hw, (lendDecode_eq_undefined_iff w ?_ _).1 hvalue⟩
        rw [List.length_drop]
        omega
      next => split_ifs at hvalue
      next => cases hvalue
  · rintro ⟨tag, rest, w, rfl, htag, hw, hbad⟩
    obtain ⟨-, -, -, hall⟩ := pbcVDecode_reaches htag
    have hv : pbcVDecode (tag ++ rest) = some (⟨w, 0⟩, tag.length) := by
      simpa using hall rest
    have hlend := (lendDecode_eq_undefined_iff w (show rest.length < 2 ^ 31 by
      rw [List.length_append] at hsize
      omega) (start + tag.length)).2 hbad
    unfold wiretypeDecode
    rw [hv]
    simp only [ne_eq, not_true_eq_false, if_false, List.drop_left, valueDecode, hw, hlend]
    rfl

theorem opens_eq_undefined_iff {b : Bytes} (hsize : b.length < 2 ^ 31) (start : ℕ) :
    opens b start = .undefined ↔ CutsOff b start := by
  constructor
  · intro h
    induction hk : b.length using Nat.strong_induction_on generalizing b start with
    | _ k ih =>
      subst hk
      have hne : b ≠ [] := by
        rintro rfl
        cases h
      rw [opens_of_ne_nil hne] at h
      cases hd : wiretypeDecode b start with
      | failed =>
        rw [hd] at h
        cases h
      | undefined =>
        obtain ⟨tag, rest, w, hb, hbad⟩ := (wiretypeDecode_eq_undefined_iff hsize start).1 hd
        exact ⟨[], tag, rest, [], w, hb, rfl, hbad⟩
      | ok p =>
        obtain ⟨a, n⟩ := p
        obtain ⟨hpos, hn, hall⟩ := wiretypeDecode_reaches hd
        have hlength : (b.drop n).length = b.length - n := List.length_drop
        rw [hd, Opened.bind_ok] at h
        have hrest : opens (b.drop n) (start + n) = .undefined := by
          cases hr : opens (b.drop n) (start + n) with
          | undefined => rfl
          | failed | ok =>
            simp only [hr] at h
            cases h
        obtain ⟨pre, tag, rest, as, w, hb, hpre, hbad⟩ :=
          ih (b.drop n).length (by omega) (by omega) _ hrest rfl
        refine ⟨b.take n ++ pre, tag, rest, a :: as, w, ?_, ?_, hbad⟩
        · rw [List.append_assoc, ← hb, List.take_append_drop]
        · have hdrop : (b.take n ++ pre).drop n = pre := by
            rw [List.drop_left' (by rw [List.length_take, Nat.min_eq_left hn])]
          rw [opens_of_wiretypeDecode (hall pre), hdrop, hpre]
          rfl
  · rintro ⟨pre, tag, rest, as, w, rfl, hpre, hbad⟩
    have hsize' : (tag ++ rest).length < 2 ^ 31 := by
      rw [List.length_append] at hsize
      omega
    have hne : tag ++ rest ≠ [] := by
      have hpos := (pbcVDecode_reaches hbad.1).1
      intro hnil
      rw [(List.append_eq_nil_iff.1 hnil).1] at hpos
      cases hpos
    rw [opens_append hpre, opens_of_ne_nil hne,
      (wiretypeDecode_eq_undefined_iff hsize' _).2 ⟨tag, rest, w, rfl, hbad⟩]
    rfl

/-- **Strings that are cut off.**  `_pbcC_open` leaves a message exactly if after some whole
fields there is a string whose length does not end, or stands for a number from -10 to -1 that
takes it back before the length at most. -/
theorem pbcCOpen_eq_undefined_iff {buffer : Bytes} (hsize : buffer.length < 2 ^ 31) :
    pbcCOpen buffer = .undefined ↔ CutsOff buffer 0 := opens_eq_undefined_iff hsize 0

/-! ## Arrays -/

/-- Behind whole numbers there starts one of an array of some bytes that does not end before
memory does. -/
def NumberCutOff (memory : Bytes) (size : ℕ) : Prop :=
  ∃ (pre rest : Bytes) (vs : List LongLong), memory = pre ++ rest ∧ pre.length < size ∧
    varints pre.length pre.length pre = .ok (vs, true) ∧ pbcVDecode rest = none

/-- `call_array` reads outside memory: words, or numbers that end where they say. -/
def ArrayOutside (type : PType) (memory : Bytes) (start size : ℤ) : Prop :=
  match type with
  | .double | .fixed64 | .sfixed64 =>
    size % 8 = 0 ∧ 0 < size ∧ (start < 0 ∨ memory.length < start + size)
  | .float | .fixed32 | .sfixed32 =>
    size % 4 = 0 ∧ 0 < size ∧ (start < 0 ∨ memory.length < start + size)
  | .string | .bytes | .message => False
  | _ => 0 < size ∧ (start < 0 ∨ NumberCutOff (memory.drop start.toNat) size.toNat)

variable {types : PbcTypes} {m : PbcMessage} {buffer : Bytes}

theorem map_eq_undefined_iff {α β : Type} {g : α → β} {x : Opened α} :
    x.map g = .undefined ↔ x = .undefined := by
  cases x with
  | undefined => exact iff_of_true rfl rfl
  | failed => exact iff_of_false (by simp [Opened.map, Opened.bind]) (by simp)
  | ok value => exact iff_of_false (by simp) (by simp)

theorem varints_budget {budget budget' size : ℕ} (h : size ≤ budget) (h' : size ≤ budget')
    (b : Bytes) :
    varints budget size b = varints budget' size b := by
  induction budget generalizing budget' size b with
  | zero =>
    obtain rfl := Nat.le_zero.1 h
    cases budget' <;> rfl
  | succ budget ih =>
    cases size with
    | zero => cases budget' <;> rfl
    | succ size =>
      obtain ⟨budget', rfl⟩ : ∃ k, budget' = k + 1 := ⟨budget' - 1, by omega⟩
      rw [varints, varints]
      cases hv : pbcVDecode b with
      | none => rfl
      | some p =>
        have hpos := (pbcVDecode_reaches hv).1
        simp only
        rw [ih (show size + 1 - p.2 ≤ budget by omega) (show size + 1 - p.2 ≤ budget' by omega)]

/-- The first number, and those behind it. -/
theorem varints_of_pbcVDecode {b : Bytes} {v : LongLong} {len size : ℕ}
    (h : pbcVDecode b = some (v, len)) (hle : len ≤ size) :
    varints size size b =
      (varints (size - len) (size - len) (b.drop len)).map fun (vs, ok) => (v :: vs, ok) := by
  have hpos := (pbcVDecode_reaches h).1
  obtain ⟨size, rfl⟩ : ∃ k, size = k + 1 := ⟨size - 1, by omega⟩
  rw [varints, h]
  simp only
  rw [if_neg (by omega), varints_budget (show size + 1 - len ≤ size by omega) le_rfl]

/-- The first number is one of the whole ones. -/
theorem pbcVDecode_of_whole {pre rest : Bytes} {vs : List LongLong} {v : LongLong} {len : ℕ}
    (hpre : varints pre.length pre.length pre = .ok (vs, true)) (hrest : pbcVDecode rest = none)
    (h : pbcVDecode (pre ++ rest) = some (v, len)) : pbcVDecode pre = some (v, len) := by
  cases pre with
  | nil =>
    rw [List.nil_append, hrest] at h
    cases h
  | cons c pre =>
    cases hv : pbcVDecode (c :: pre) with
    | none =>
      rw [List.length_cons, varints, hv] at hpre
      cases hpre
    | some p =>
      have hall := (pbcVDecode_reaches hv).2.2.2 ((c :: pre).drop p.2 ++ rest)
      rwa [← List.append_assoc, List.take_append_drop, h, eq_comm] at hall

theorem varints_eq_undefined_iff (b : Bytes) (size : ℕ) :
    varints size size b = .undefined ↔ NumberCutOff b size := by
  induction size using Nat.strong_induction_on generalizing b with
  | _ size ih =>
    cases hv : pbcVDecode b with
    | none =>
      cases size with
      | zero =>
        refine iff_of_false (by simp [varints]) ?_
        rintro ⟨pre, rest, vs, -, hlt, -⟩
        exact absurd hlt (Nat.not_lt_zero _)
      | succ size =>
        refine iff_of_true ?_ ⟨[], b, [], rfl, Nat.succ_pos size, rfl, hv⟩
        rw [varints, hv]
    | some p =>
      obtain ⟨v, len⟩ := p
      obtain ⟨hpos, hlen, -, hall⟩ := pbcVDecode_reaches hv
      by_cases hle : len ≤ size
      · have hiff := ih (size - len) (by omega) (b.drop len)
        rw [varints_of_pbcVDecode hv hle]
        constructor
        · intro h
          obtain ⟨pre, rest, vs, hb, hlt, hpre, hrest⟩ := hiff.1 (map_eq_undefined_iff.1 h)
          have hlength : (b.take len ++ pre).length = len + pre.length := by
            rw [List.length_append, List.length_take, Nat.min_eq_left hlen]
          refine ⟨b.take len ++ pre, rest, v :: vs, ?_, by omega, ?_, hrest⟩
          · rw [List.append_assoc, ← hb, List.take_append_drop]
          · rw [hlength, varints_of_pbcVDecode (hall pre) (Nat.le_add_right _ _),
              Nat.add_sub_cancel_left, List.drop_left'
                (by rw [List.length_take, Nat.min_eq_left hlen]), hpre]
            rfl
        · rintro ⟨pre, rest, vs, rfl, hlt, hpre, hrest⟩
          have hv' := pbcVDecode_of_whole hpre hrest hv
          have hle' := (pbcVDecode_reaches hv').2.1
          rw [varints_of_pbcVDecode hv' hle'] at hpre
          obtain ⟨⟨ws, ok⟩, hws, heq⟩ := Opened.map_eq_ok hpre
          cases heq
          rw [← List.length_drop] at hws
          have hdrop : (pre.drop len).length = pre.length - len := List.length_drop
          rw [hiff.2 ⟨pre.drop len, rest, ws, List.drop_append_of_le_length hle', by omega,
            hws, hrest⟩]
          rfl
      · refine iff_of_false ?_ ?_
        · cases size with
          | zero => simp [varints]
          | succ size =>
            rw [varints, hv]
            simp [Nat.lt_of_not_le hle]
        · rintro ⟨pre, rest, vs, rfl, hlt, hpre, hrest⟩
          have hle' := (pbcVDecode_reaches (pbcVDecode_of_whole hpre hrest hv)).2.1
          omega

theorem callWords_eq_undefined_iff (width : ℕ) (values : Bytes → List PbcValue) (memory : Bytes)
    (start size : ℤ) :
    callWords width values memory start size = .undefined ↔
      size % width = 0 ∧ 0 < size ∧ (start < 0 ∨ memory.length < start + size) := by
  unfold callWords
  split_ifs with hmod hempty hfit
  · exact iff_of_false (by simp) fun h => hmod h.1
  · exact iff_of_false (by simp) fun h => by omega
  · exact iff_of_false (by simp) fun h => by omega
  · exact iff_of_true rfl ⟨not_not.1 hmod, by omega, by omega⟩

theorem callVarints_eq_undefined_iff (value : LongLong → PbcValue) (memory : Bytes)
    (start size : ℤ) :
    callVarints value memory start size = .undefined ↔
      0 < size ∧ (start < 0 ∨ NumberCutOff (memory.drop start.toNat) size.toNat) := by
  unfold callVarints
  split_ifs with hempty hstart
  · exact iff_of_false (by simp) fun h => by omega
  · rw [map_eq_undefined_iff, varints_eq_undefined_iff]
    exact ⟨fun h => ⟨by omega, .inr h⟩, fun h => h.2.resolve_left (by omega)⟩
  · exact iff_of_true rfl ⟨by omega, .inl (by omega)⟩

theorem callArray_eq_undefined_iff (types : PbcTypes) (f : Field) (memory : Bytes)
    (start size : ℤ) :
    callArray types f memory start size = .undefined ↔ ArrayOutside f.type memory start size := by
  unfold callArray ArrayOutside
  cases f.type <;>
    first
      | exact callWords_eq_undefined_iff 8 _ memory start size
      | exact callWords_eq_undefined_iff 4 _ memory start size
      | exact callVarints_eq_undefined_iff _ memory start size
      | exact iff_of_false (by simp) not_false

theorem valueDecode_slice {w : BitVec 32} {b : Bytes} {start : ℕ} {a : Atom} {n : ℕ}
    (h : valueDecode w b start = .ok (a, n)) : a.wireId = w ∧ (w.toNat % 8 = 2 →
      ∃ i j, a.low = BitVec.ofNat 32 i ∧ a.hi = BitVec.ofNat 32 j ∧ i ≤ j ∧
        j ≤ start + b.length) := by
  unfold valueDecode at h
  split at h
  next hw =>
    split at h
    · cases h
    · cases h
      exact ⟨rfl, fun h => by omega⟩
  next hw =>
    split_ifs at h
    cases h
    exact ⟨rfl, fun h => by omega⟩
  next =>
    unfold lendDecode at h
    split at h
    · cases h
    next r len hv =>
      split_ifs at h with hfail houtside
      cases h
      exact ⟨rfl, fun _ => ⟨start + len, start + len + r.low.toNat, rfl, rfl, by omega, by omega⟩⟩
  next hw =>
    split_ifs at h
    cases h
    exact ⟨rfl, fun h => by omega⟩
  next => cases h

theorem wiretypeDecode_slice {b : Bytes} {start : ℕ} {a : Atom} {n : ℕ}
    (h : wiretypeDecode b start = .ok (a, n)) (hlend : a.wiretype = 2) :
    ∃ i j, a.low = BitVec.ofNat 32 i ∧ a.hi = BitVec.ofNat 32 j ∧ i ≤ j ∧ j ≤ start + b.length := by
  unfold wiretypeDecode at h
  split at h
  · cases h
  next r len hv =>
    obtain ⟨-, hlen, -, -⟩ := pbcVDecode_reaches hv
    split_ifs at h
    obtain ⟨⟨a', k⟩, hvalue, h⟩ := Opened.map_eq_ok h
    cases h
    obtain ⟨hwire, hslice⟩ := valueDecode_slice hvalue
    rw [Atom.wiretype, hwire] at hlend
    obtain ⟨i, j, hlow, hhi, hle, hend⟩ := hslice hlend
    rw [List.length_drop] at hend
    exact ⟨i, j, hlow, hhi, hle, by omega⟩

theorem slices_of_opens {b : Bytes} {start : ℕ} {as : List Atom} (h : opens b start = .ok as)
    {a : Atom} (ha : a ∈ as) (hlend : a.wiretype = 2) :
    ∃ i j, a.low = BitVec.ofNat 32 i ∧ a.hi = BitVec.ofNat 32 j ∧ i ≤ j ∧ j ≤ start + b.length := by
  induction as generalizing b start with
  | nil => cases ha
  | cons a' as ih =>
    obtain ⟨n, hd, hrest⟩ := opens_eq_ok_cons h
    obtain ⟨-, hn, -⟩ := wiretypeDecode_reaches hd
    obtain rfl | ha := List.mem_cons.1 ha
    · exact wiretypeDecode_slice hd hlend
    · obtain ⟨i, j, hlow, hhi, hle, hend⟩ := ih hrest ha
      rw [List.length_drop] at hend
      exact ⟨i, j, hlow, hhi, hle, by omega⟩

/-- A string is in the message, and so are words in it. -/
theorem not_outside_of_opens {as : List Atom} (hsize : buffer.length < 2 ^ 31)
    (h : opens buffer 0 = .ok as) {a : Atom} (ha : a ∈ as) (hlend : a.wiretype = 2) :
    0 ≤ a.low.toInt ∧ a.low.toInt + (a.hi - a.low).toInt ≤ buffer.length := by
  obtain ⟨i, j, hlow, hhi, hle, hend⟩ := slices_of_opens h ha hlend
  have hint (n : ℕ) (hn : n < 2 ^ 31) : (BitVec.ofNat 32 n).toInt = n := by
    rw [BitVec.toInt_eq_toNat_of_lt (by rw [BitVec.toNat_ofNat]; omega), BitVec.toNat_ofNat]
    omega
  have hsub : a.hi - a.low = BitVec.ofNat 32 (j - i) := by
    apply BitVec.eq_of_toNat_eq
    rw [hlow, hhi, BitVec.toNat_sub, BitVec.toNat_ofNat, BitVec.toNat_ofNat, BitVec.toNat_ofNat]
    omega
  rw [hsub, hlow, hint i (by omega), hint (j - i) (by omega)]
  omega

theorem not_arrayOutside_of_isFixed {type : PType} (hfixed : type.isFixed = true) {start size : ℤ}
    (hstart : 0 ≤ start) (hend : start + size ≤ buffer.length) :
    ¬ ArrayOutside type buffer start size := by
  unfold ArrayOutside
  cases type <;> first | exact fun h : _ ∧ _ => by omega | cases hfixed

theorem callField_eq_undefined_iff (types : PbcTypes) (m : PbcMessage) (memory : Bytes) (a : Atom) :
    callField types m memory a = .undefined ↔ ∃ f, m.fieldOf a.id = some f ∧ f.label = .packed ∧
      ArrayOutside f.type memory a.low.toInt (a.hi - a.low).toInt := by
  unfold callField
  cases hf : m.fieldOf a.id with
  | none => simp
  | some f =>
    have hiff := callArray_eq_undefined_iff types f memory a.low.toInt (a.hi - a.low).toInt
    simp only [Option.some.injEq, exists_eq_left', ← hiff]
    split_ifs with hlabel
    · rw [map_eq_undefined_iff]
      exact (and_iff_right hlabel).symm
    · exact iff_of_false (by simp) fun h => hlabel h.1

/-- The loop leaves memory at an array that does, if it comes to one. -/
theorem callFields_eq_undefined_iff (types : PbcTypes) (m : PbcMessage) (memory : Bytes)
    (as : List Atom) :
    callFields types m memory as = .undefined ↔ ∃ before a after cs f, as = before ++ a :: after ∧
      callFields types m memory before = .ok (cs, true) ∧ m.fieldOf a.id = some f ∧
        f.label = .packed ∧
        ArrayOutside f.type memory a.low.toInt (a.hi - a.low).toInt := by
  constructor
  · intro h
    induction as with
    | nil => cases h
    | cons a as ih =>
      cases hc : callField types m memory a with
      | failed =>
        rw [callFields, hc] at h
        cases h
      | undefined =>
        obtain ⟨f, hpacked⟩ := (callField_eq_undefined_iff types m memory a).1 hc
        exact ⟨[], a, as, [], f, rfl, rfl, hpacked⟩
      | ok p =>
        obtain ⟨cs, ok⟩ := p
        cases ok with
        | false =>
          rw [callFields, hc] at h
          cases h
        | true =>
          rw [callFields_cons_of_ok hc, map_eq_undefined_iff] at h
          obtain ⟨before, a', after, ds, g, rfl, hbefore, hpacked⟩ := ih h
          refine ⟨a :: before, a', after, cs ++ ds, g, rfl, ?_, hpacked⟩
          rw [callFields_cons_of_ok hc, hbefore]
          rfl
  · rintro ⟨before, a, after, cs, f, rfl, hbefore, hpacked⟩
    induction before generalizing cs with
    | nil =>
      have ha := (callField_eq_undefined_iff types m memory a).2 ⟨f, hpacked⟩
      rw [List.nil_append, callFields, ha]
      rfl
    | cons b before ih =>
      rw [callFields] at hbefore
      obtain ⟨⟨ds, ok⟩, hb, hbefore⟩ := Opened.bind_eq_ok hbefore
      cases ok with
      | false => cases hbefore
      | true =>
        obtain ⟨⟨es, ok⟩, hrest, heq⟩ := Opened.map_eq_ok hbefore
        cases heq
        rw [List.cons_append, callFields_cons_of_ok hb, ih es hrest]
        rfl

/-- A message with one array. -/
def arrayTypes : PbcTypes :=
  ⟨fun _ => none, fun name =>
    if name = "Array" then some ⟨[⟨1, "items", .uint32, .packed, "", ""⟩], by decide⟩ else none⟩

end SockTestProgram
