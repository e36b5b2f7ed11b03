import SockTestProgram.Lib.Varint
import SockTestProgram.Lib.Word
import SockTestProgram.Io.StreamBuffer

/-!
# The fields of a message

`_pbcV_decode` of `varint.c` and `_pbcC_open` of `context.c`, which cuts a message into its fields
(`struct atom`), and what the encoding of a list of fields is cut into (`pbcCOpen_encodeFields`).
-/

open Varint Word

namespace SockTestProgram

/-- `struct longlong` -/
structure LongLong where
  low : BitVec 32
  hi : BitVec 32
  deriving DecidableEq, Repr

/-! ## Numbers -/

/-- The second loop of `_pbcV_decode`, from byte 4 on. -/
def decodeHigh (buffer : Bytes) (r : ℕ) : ℕ → ℕ → ℕ → Option (LongLong × ℕ)
  | 0, _, _ => some (⟨0, 0⟩, 10)
  | k + 1, i, lr =>
    match buffer[i]? with
    | none => none
    | some b =>
      let lr := lr ||| group b <<< (7 * (i - 4))
      if more b then decodeHigh buffer r k (i + 1) lr
      else some (⟨BitVec.ofNat 32 (r ||| (lr &&& 0xf) <<< 28), BitVec.ofNat 32 (lr >>> 4)⟩, i + 1)

/-- The first loop of `_pbcV_decode`. -/
def decodeLow (buffer : Bytes) : ℕ → ℕ → ℕ → Option (LongLong × ℕ)
  | 0, i, r => decodeHigh buffer r 6 i 0
  | k + 1, i, r =>
    match buffer[i]? with
    | none => none
    | some b =>
      let r := r ||| group b <<< (7 * i)
      if more b then decodeLow buffer k (i + 1) r else some (⟨BitVec.ofNat 32 r, 0⟩, i + 1)

/-- `_pbcV_decode`: the number and its length; `none` where it would read on past the buffer. -/
def pbcVDecode (buffer : Bytes) : Option (LongLong × ℕ) :=
  match buffer[0]? with
  | none => none
  | some b =>
    if more b then decodeLow buffer 3 1 (group b)
    else some (⟨BitVec.ofNat 32 (group b), 0⟩, 1)

/-- A number in two words. -/
def LongLong.ofNat (n : ℕ) : LongLong := ⟨BitVec.ofNat 32 n, BitVec.ofNat 32 (n / 2 ^ 32)⟩

theorem LongLong.ofNat_of_lt {n : ℕ} (h : n < 2 ^ 32) :
    LongLong.ofNat n = ⟨BitVec.ofNat 32 n, 0⟩ := by
  unfold ofNat
  rw [Nat.div_eq_of_lt h]
  rfl

theorem lowWord_eq (n : ℕ) :
    BitVec.ofNat 32 (n % 128 ^ 4 ||| (n / 128 ^ 4 &&& 0xf) <<< 28) = BitVec.ofNat 32 n := by
  have hlt : n % 128 ^ 4 < 2 ^ 28 := Nat.mod_lt _ (by decide)
  have hand : n / 128 ^ 4 &&& 0xf = n / 128 ^ 4 % 16 := Nat.and_two_pow_sub_one_eq_mod _ 4
  rw [hand, Nat.or_comm, ← Nat.shiftLeft_add_eq_or_of_lt hlt, Nat.shiftLeft_eq]
  apply BitVec.eq_of_toNat_eq
  rw [BitVec.toNat_ofNat, BitVec.toNat_ofNat]
  omega

theorem decodeHigh_encode {n : ℕ} (hn : n < 128 ^ 10) (rest : Bytes) {k i : ℕ} (hki : i + k = 10)
    (hi : 4 ≤ i) (hle : 128 ^ i ≤ n) :
    decodeHigh (encode n ++ rest) (n % 128 ^ 4) k i (n / 128 ^ 4 % 128 ^ (i - 4)) =
      some (.ofNat n, (encode n).length) := by
  induction k generalizing i with
  | zero =>
    obtain rfl : i = 10 := by omega
    omega
  | succ k ih =>
    have hgroup : n / 128 ^ 4 / 128 ^ (i - 4) = n / 128 ^ i := by
      rw [Nat.div_div_eq_div_mul, ← pow_add]
      congr 2
      omega
    have hor : n / 128 ^ 4 % 128 ^ (i - 4) ||| (n / 128 ^ i % 128) <<< (7 * (i - 4)) =
        n / 128 ^ 4 % 128 ^ (i + 1 - 4) := by
      rw [← hgroup, or_shiftLeft_group, Nat.sub_add_comm hi]
    have hmod : n / 128 ^ i % 128 < 128 := Nat.mod_lt _ (by decide)
    by_cases hmore : 128 ^ (i + 1) ≤ n
    · simp only [decodeHigh, getElem?_encode_of_le hmore, group_ofNat_add hmod, more_ofNat_add hmod,
        hor, if_true]
      exact ih (by omega) (by omega) hmore
    · -- the last byte: nothing is left of the number
      have hlast : n / 128 ^ i < 128 := by
        rw [Nat.div_lt_iff_lt_mul (Nat.pow_pos (by decide)), ← pow_succ']
        omega
      have hall : n / 128 ^ 4 % 128 ^ (i + 1 - 4) = n / 128 ^ 4 := by
        apply Nat.mod_eq_of_lt
        rw [Nat.div_lt_iff_lt_mul (by decide), ← pow_add]
        have : i + 1 - 4 + 4 = i + 1 := by omega
        rw [this]
        omega
      obtain ⟨hbyte, hlength⟩ := getElem?_encode_last (Or.inr hle) (Nat.lt_of_not_le hmore) rest
      rw [Nat.mod_eq_of_lt hlast, hall] at hor
      simp only [decodeHigh, hbyte, group_ofNat hlast, more_ofNat hlast, hor, lowWord_eq, hlength,
        Bool.false_eq_true, if_false]
      rw [Nat.shiftRight_eq_div_pow, Nat.div_div_eq_div_mul]
      rfl

theorem decodeLow_encode {n : ℕ} (hn : n < 128 ^ 10) (rest : Bytes) {k i : ℕ} (hki : i + k = 4)
    (hi : 1 ≤ i) (hle : 128 ^ i ≤ n) :
    decodeLow (encode n ++ rest) k i (n % 128 ^ i) = some (.ofNat n, (encode n).length) := by
  induction k generalizing i with
  | zero =>
    obtain rfl : i = 4 := by omega
    have := decodeHigh_encode hn rest (k := 6) (i := 4) rfl le_rfl hle
    rwa [Nat.sub_self, pow_zero, Nat.mod_one] at this
  | succ k ih =>
    have hmod : n / 128 ^ i % 128 < 128 := Nat.mod_lt _ (by decide)
    by_cases hmore : 128 ^ (i + 1) ≤ n
    · simp only [decodeLow, getElem?_encode_of_le hmore, group_ofNat_add hmod, more_ofNat_add hmod,
        or_shiftLeft_group, if_true]
      exact ih (by omega) (by omega) hmore
    · have hlt : n < 128 ^ (i + 1) := Nat.lt_of_not_le hmore
      have hlast : n / 128 ^ i < 128 := by
        rw [Nat.div_lt_iff_lt_mul (Nat.pow_pos (by decide)), ← pow_succ']
        omega
      have hword : n < 2 ^ 32 := by
        have : 128 ^ (i + 1) ≤ 128 ^ 4 := Nat.pow_le_pow_right (by decide) (by omega)
        omega
      have hor := or_shiftLeft_group n i
      rw [Nat.mod_eq_of_lt hlast, Nat.mod_eq_of_lt hlt] at hor
      obtain ⟨hbyte, hlength⟩ := getElem?_encode_last (Or.inr hle) hlt rest
      simp only [decodeLow, hbyte, group_ofNat hlast, more_ofNat hlast, hor, hlength,
        LongLong.ofNat_of_lt hword, Bool.false_eq_true, if_false]

/-- A number of 64 bits is read back. -/
theorem pbcVDecode_encode {n : ℕ} (hn : n < 2 ^ 64) (rest : Bytes) :
    pbcVDecode (encode n ++ rest) = some (.ofNat n, (encode n).length) := by
  have hn' : n < 128 ^ 10 := lt_trans hn (by decide)
  have hmod : n % 128 < 128 := Nat.mod_lt _ (by decide)
  by_cases hmore : 128 ≤ n
  · have hbyte := getElem?_encode_of_le (i := 0) (by simpa using hmore) rest
    rw [pow_zero, Nat.div_one] at hbyte
    simp only [pbcVDecode, hbyte, group_ofNat_add hmod, more_ofNat_add hmod, if_true]
    have := decodeLow_encode hn' rest (k := 3) (i := 1) rfl le_rfl (by simpa using hmore)
    rwa [pow_one] at this
  · have hlt : n < 128 := Nat.lt_of_not_le hmore
    obtain ⟨hbyte, hlength⟩ := getElem?_encode_last (i := 0) (Or.inl rfl) (by simpa using hlt) rest
    rw [pow_zero, Nat.div_one] at hbyte
    simp only [pbcVDecode, hbyte, group_ofNat hlt, more_ofNat hlt, hlength, Bool.false_eq_true,
      if_false, LongLong.ofNat_of_lt (show n < 2 ^ 32 by omega)]

/-! ## What is read ends where it ends -/

theorem getElem?_take_append {b x : Bytes} {i len : ℕ} (hi : i < len) (hlen : len ≤ b.length) :
    (b.take len ++ x)[i]? = b[i]? := by
  rw [List.getElem?_append_left (by rw [List.length_take]; omega), List.getElem?_take_of_lt hi]

theorem decodeHigh_reaches {b : Bytes} {r : ℕ} {k i lr : ℕ} {v : LongLong} {len : ℕ}
    (h : decodeHigh b r k i lr = some (v, len)) (hki : i + k = 10) (hi : i ≤ b.length) :
    i ≤ len ∧ len ≤ b.length ∧ len ≤ 10 ∧
      ∀ x, decodeHigh (b.take len ++ x) r k i lr = some (v, len) := by
  induction k generalizing i lr with
  | zero =>
    obtain ⟨rfl, rfl⟩ := Prod.mk.inj (Option.some.inj h)
    exact ⟨by omega, by omega, le_rfl, fun _ => rfl⟩
  | succ k ih =>
    rw [decodeHigh] at h
    cases hb : b[i]? with
    | none =>
      rw [hb] at h
      cases h
    | some c =>
      obtain ⟨hlt, -⟩ := List.getElem?_eq_some_iff.1 hb
      simp only [hb] at h
      split_ifs at h with hmore
      · obtain ⟨hle, hlen, hten, hall⟩ := ih h (by omega) hlt
        refine ⟨by omega, hlen, hten, fun x => ?_⟩
        rw [decodeHigh, getElem?_take_append (by omega) hlen, hb]
        simp only [if_pos hmore]
        exact hall x
      · obtain ⟨rfl, rfl⟩ := Prod.mk.inj (Option.some.inj h)
        refine ⟨by omega, hlt, by omega, fun x => ?_⟩
        rw [decodeHigh, getElem?_take_append (by omega) hlt, hb]
        simp only [if_neg hmore]

theorem decodeLow_reaches {b : Bytes} {k i r : ℕ} {v : LongLong} {len : ℕ}
    (h : decodeLow b k i r = some (v, len)) (hki : i + k = 4) (hi : i ≤ b.length) :
    i ≤ len ∧ len ≤ b.length ∧ len ≤ 10 ∧
      ∀ x, decodeLow (b.take len ++ x) k i r = some (v, len) := by
  induction k generalizing i r with
  | zero => exact decodeHigh_reaches h (by omega) hi
  | succ k ih =>
    rw [decodeLow] at h
    cases hb : b[i]? with
    | none =>
      rw [hb] at h
      cases h
    | some c =>
      obtain ⟨hlt, -⟩ := List.getElem?_eq_some_iff.1 hb
      simp only [hb] at h
      split_ifs at h with hmore
      · obtain ⟨hle, hlen, hten, hall⟩ := ih h (by omega) hlt
        refine ⟨by omega, hlen, hten, fun x => ?_⟩
        rw [decodeLow, getElem?_take_append (by omega) hlen, hb]
        simp only [if_pos hmore]
        exact hall x
      · obtain ⟨rfl, rfl⟩ := Prod.mk.inj (Option.some.inj h)
        refine ⟨by omega, hlt, by omega, fun x => ?_⟩
        rw [decodeLow, getElem?_take_append (by omega) hlt, hb]
        simp only [if_neg hmore]

/-- A number takes between one and ten bytes, and nothing behind them counts. -/
theorem pbcVDecode_reaches {b : Bytes} {v : LongLong} {len : ℕ} (h : pbcVDecode b = some (v, len)) :
    1 ≤ len ∧ len ≤ b.length ∧ len ≤ 10 ∧ ∀ x, pbcVDecode (b.take len ++ x) = some (v, len) := by
  unfold pbcVDecode at h
  cases hb : b[0]? with
  | none =>
    rw [hb] at h
    cases h
  | some c =>
    obtain ⟨hlt, -⟩ := List.getElem?_eq_some_iff.1 hb
    simp only [hb] at h
    split_ifs at h with hmore
    · obtain ⟨hle, hlen, hten, hall⟩ := decodeLow_reaches h rfl hlt
      refine ⟨hle, hlen, hten, fun x => ?_⟩
      rw [pbcVDecode, getElem?_take_append (by omega) hlen, hb]
      simp only [if_pos hmore]
      exact hall x
    · obtain ⟨rfl, rfl⟩ := Prod.mk.inj (Option.some.inj h)
      refine ⟨le_rfl, hlt, by omega, fun x => ?_⟩
      rw [pbcVDecode, getElem?_take_append (by omega) hlt, hb]
      simp only [if_neg hmore]

theorem length_le_of_take {b x : Bytes} {n : ℕ} (hn : n ≤ b.length) :
    n ≤ (b.take n ++ x).length := by
  rw [List.length_append, List.length_take]
  omega

theorem drop_take_append {b x : Bytes} {k n : ℕ} (hk : k ≤ n) (hn : n ≤ b.length) :
    (b.take n ++ x).drop k = (b.drop k).take (n - k) ++ x := by
  rw [List.drop_append_of_le_length (by rw [List.length_take]; omega), List.drop_take]

theorem take_take_append {b x : Bytes} {k n : ℕ} (hk : k ≤ n) :
    b.take n ++ x = b.take k ++ ((b.take n).drop k ++ x) := by
  rw [← List.append_assoc]
  congr 1
  conv_lhs => rw [← List.take_append_drop k (b.take n), List.take_take, Nat.min_eq_left hk]

/-! ## Fields -/

/-- What reading bytes comes to. -/
inductive Opened (α : Type)
  | ok (value : α)
  /-- an error code -/
  | failed
  /-- bytes from outside the message take part in the result -/
  | undefined
  deriving DecidableEq, Repr

namespace Opened

variable {α β : Type}

def bind : Opened α → (α → Opened β) → Opened β
  | ok value, f => f value
  | failed, _ => failed
  | undefined, _ => undefined

def map (f : α → β) (x : Opened α) : Opened β := x.bind fun value => ok (f value)

@[simp] theorem bind_ok (value : α) (f : α → Opened β) : (ok value).bind f = f value := rfl
@[simp] theorem map_ok (f : α → β) (value : α) : (ok value).map f = ok (f value) := rfl

theorem map_eq_ok {f : α → β} {x : Opened α} {y : β} (h : x.map f = .ok y) :
    ∃ value, x = .ok value ∧ f value = y := by
  cases x with
  | ok value => exact ⟨value, rfl, Opened.ok.inj h⟩
  | failed => cases h
  | undefined => cases h

theorem bind_eq_ok {f : α → Opened β} {x : Opened α} {y : β} (h : x.bind f = .ok y) :
    ∃ value, x = .ok value ∧ f value = .ok y := by
  cases x with
  | ok value => exact ⟨value, rfl, h⟩
  | failed => cases h
  | undefined => cases h

end Opened

/-- A field of a message (`struct atom`).  The two words are the members of a union: a number, or
the start and the end of a string. -/
structure Atom where
  wireId : BitVec 32
  low : BitVec 32
  hi : BitVec 32
  deriving DecidableEq, Repr

/-- `wire_id & 7`: 0 for a number (`WT_VARINT`), 1 for eight bytes (`WT_BIT64`), 2 for a string
(`WT_LEND`), 5 for four bytes (`WT_BIT32`). -/
def Atom.wiretype (a : Atom) : ℕ := a.wireId.toNat % 8

/-- `wire_id >> 3` -/
def Atom.id (a : Atom) : ℤ := (a.wireId.sshiftRight 3).toInt

/-- The word in the first four bytes, the least significant byte first. -/
def wordLE : Bytes → BitVec 32
  | a :: b :: c :: d :: _ => ofBytes d c b a
  | _ => 0

/-- The start and the end of a string, and the number of bytes with the length before it.  The
comparison of the length is one of 32-bit words. -/
def lendDecode (wireId : BitVec 32) (buffer : Bytes) (start : ℕ) : Opened (Atom × ℕ) :=
  match pbcVDecode buffer with
  | none => .undefined
  | some (r, len) =>
    if buffer.length < (len + r.low.toNat) % 2 ^ 32 ∨ r.hi ≠ 0 then .failed
    else if buffer.length < len + r.low.toNat then .undefined
    else .ok (⟨wireId, BitVec.ofNat 32 (start + len),
      BitVec.ofNat 32 (start + len + r.low.toNat)⟩, len + r.low.toNat)

/-- The `switch` of `wiretype_decode`: what follows the tag, and how many bytes it takes. -/
def valueDecode (wireId : BitVec 32) (buffer : Bytes) (start : ℕ) : Opened (Atom × ℕ) :=
  match wireId.toNat % 8 with
  | 0 =>
    match pbcVDecode buffer with
    | none => .failed
    | some (i, len) => .ok (⟨wireId, i.low, i.hi⟩, len)
  | 1 =>
    if buffer.length < 8 then .failed
    else .ok (⟨wireId, wordLE buffer, wordLE (buffer.drop 4)⟩, 8)
  | 2 => lendDecode wireId buffer start
  | 5 => if buffer.length < 4 then .failed else .ok (⟨wireId, wordLE buffer, 0⟩, 4)
  | _ => .failed

/-- `wiretype_decode`: a field and how many bytes it takes. -/
def wiretypeDecode (buffer : Bytes) (start : ℕ) : Opened (Atom × ℕ) :=
  match pbcVDecode buffer with
  | none => .failed
  | some (r, len) =>
    if r.hi ≠ 0 then .failed
    else (valueDecode r.low (buffer.drop len) (start + len)).map fun (a, n) => (a, len + n)

/-- The loop of `_pbcC_open`, which goes on until no byte is left. -/
def openLoop : ℕ → Bytes → ℕ → Opened (List Atom)
  | _, [], _ => .ok []
  | 0, _ :: _, _ => .failed
  | budget + 1, buffer, start =>
    (wiretypeDecode buffer start).bind fun (a, n) =>
      (openLoop budget (buffer.drop n) (start + n)).map (a :: ·)

/-- `_pbcC_open`.  Every field takes a byte at least. -/
def pbcCOpen (buffer : Bytes) : Opened (List Atom) := openLoop buffer.length buffer 0

/-! ## The encoding of fields -/

/-- What a field holds on the wire. -/
inductive WireValue
  | varint (n : BitVec 64)
  | bit64 (low hi : BitVec 32)
  | lend (s : Bytes)
  | bit32 (w : BitVec 32)
  deriving DecidableEq, Repr

namespace WireValue

def wiretype : WireValue → ℕ
  | .varint _ => 0
  | .bit64 _ _ => 1
  | .lend _ => 2
  | .bit32 _ => 5

def encode : WireValue → Bytes
  | .varint n => Varint.encode n.toNat
  | .bit64 low hi => (bytesBE low).reverse ++ (bytesBE hi).reverse
  | .lend s => Varint.encode s.length ++ s
  | .bit32 w => (bytesBE w).reverse

end WireValue

structure WireField where
  id : ℕ
  value : WireValue
  deriving DecidableEq, Repr

namespace WireField

def tag (f : WireField) : ℕ := 8 * f.id + f.value.wiretype

def encode (f : WireField) : Bytes := Varint.encode f.tag ++ f.value.encode

/-- The value, encoded from a place of the message on, as it is cut out of it. -/
def valueAtom (wireId : BitVec 32) (start : ℕ) : WireValue → Atom
  | .varint n => ⟨wireId, BitVec.ofNat 32 n.toNat, BitVec.ofNat 32 (n.toNat / 2 ^ 32)⟩
  | .bit64 low hi => ⟨wireId, low, hi⟩
  | .lend s =>
    let start := start + (Varint.encode s.length).length
    ⟨wireId, BitVec.ofNat 32 start, BitVec.ofNat 32 (start + s.length)⟩
  | .bit32 w => ⟨wireId, w, 0⟩

def atom (start : ℕ) (f : WireField) : Atom :=
  valueAtom (BitVec.ofNat 32 f.tag) (start + (Varint.encode f.tag).length) f.value

end WireField

/-- A message with these fields. -/
def encodeFields (fs : List WireField) : Bytes := fs.flatMap WireField.encode

/-- The fields, encoded one after another from a place of the message on. -/
def atomsFrom : ℕ → List WireField → List Atom
  | _, [] => []
  | start, f :: fs => f.atom start :: atomsFrom (start + f.encode.length) fs

theorem wordLE_reverse (w : BitVec 32) (rest : Bytes) :
    wordLE ((bytesBE w).reverse ++ rest) = w := by
  show ofBytes (byte w 3) (byte w 2) (byte w 1) (byte w 0) = w
  exact ofBytes_byte w

theorem lendDecode_encode {s : Bytes} (hs : (Varint.encode s.length ++ s).length < 2 ^ 31)
    (wireId : BitVec 32) (rest : Bytes) (start : ℕ) :
    lendDecode wireId (Varint.encode s.length ++ s ++ rest) start =
      .ok (WireField.valueAtom wireId start (.lend s), (Varint.encode s.length ++ s).length) := by
  rw [List.length_append] at hs ⊢
  have hword : s.length < 2 ^ 32 := by omega
  have hlow : (BitVec.ofNat 32 s.length).toNat = s.length := by
    rw [BitVec.toNat_ofNat]
    omega
  have hdecode : pbcVDecode (Varint.encode s.length ++ s ++ rest) =
      some (⟨BitVec.ofNat 32 s.length, 0⟩, (Varint.encode s.length).length) := by
    rw [List.append_assoc, pbcVDecode_encode (by omega), LongLong.ofNat_of_lt hword]
  simp only [lendDecode, hdecode, hlow, List.length_append]
  rw [if_neg (by simp only [ne_eq, not_true_eq_false, or_false]; omega), if_neg (by omega)]
  rfl

/-- An encoded value is read as it is. -/
theorem valueDecode_encode {wireId : BitVec 32} {v : WireValue}
    (hwiretype : wireId.toNat % 8 = v.wiretype) (hsize : v.encode.length < 2 ^ 31) (rest : Bytes)
    (start : ℕ) :
    valueDecode wireId (v.encode ++ rest) start =
      .ok (WireField.valueAtom wireId start v, v.encode.length) := by
  unfold valueDecode
  rw [hwiretype]
  cases v with
  | varint n =>
    have hdecode : pbcVDecode (Varint.encode n.toNat ++ rest) =
        some (.ofNat n.toNat, (Varint.encode n.toNat).length) := pbcVDecode_encode n.isLt rest
    simp only [WireValue.wiretype, WireValue.encode, hdecode]
    rfl
  | bit64 low hi =>
    have hlength : ¬ ((WireValue.bit64 low hi).encode ++ rest).length < 8 := by
      simp only [WireValue.encode, List.length_append, List.length_reverse, length_bytesBE]
      omega
    have hlow : wordLE ((WireValue.bit64 low hi).encode ++ rest) = low := by
      rw [WireValue.encode, List.append_assoc, wordLE_reverse]
    have hhi : wordLE (((WireValue.bit64 low hi).encode ++ rest).drop 4) = hi :=
      wordLE_reverse hi rest
    simp only [WireValue.wiretype]
    rw [if_neg hlength, hlow, hhi]
    rfl
  | lend s => exact lendDecode_encode hsize wireId rest start
  | bit32 w =>
    have hlength : ¬ ((WireValue.bit32 w).encode ++ rest).length < 4 := by
      simp [WireValue.encode]
    have hword : wordLE ((WireValue.bit32 w).encode ++ rest) = w := wordLE_reverse w rest
    simp only [WireValue.wiretype]
    rw [if_neg hlength, hword]
    rfl

namespace WireField

theorem length_encode (f : WireField) :
    f.encode.length = (Varint.encode f.tag).length + f.value.encode.length := by
  unfold encode
  rw [List.length_append]

theorem length_encode_pos (f : WireField) : 0 < f.encode.length := by
  have := Varint.length_encode_pos f.tag
  rw [length_encode]
  omega

/-- The field numbers of messages. -/
def Numbered (f : WireField) : Prop := f.id < 2 ^ 29

instance (f : WireField) : Decidable f.Numbered := inferInstanceAs (Decidable (_ < _))

theorem toNat_tag {f : WireField} (hid : f.Numbered) :
    (BitVec.ofNat 32 f.tag).toNat = f.tag ∧ f.tag % 8 = f.value.wiretype := by
  have hwiretype : f.value.wiretype < 8 := by cases f.value <;> simp [WireValue.wiretype]
  unfold Numbered at hid
  rw [BitVec.toNat_ofNat]
  unfold tag
  omega

theorem wireId_atom (start : ℕ) (f : WireField) :
    (f.atom start).wireId = BitVec.ofNat 32 f.tag := by
  unfold atom
  cases f.value <;> rfl

theorem wiretype_atom {f : WireField} (hid : f.Numbered) (start : ℕ) :
    (f.atom start).wiretype = f.value.wiretype := by
  obtain ⟨htag, hwiretype⟩ := toNat_tag hid
  rw [Atom.wiretype, wireId_atom, htag, hwiretype]

/-- The number of a field, as far as it is not taken for a negative one. -/
theorem id_atom_eq_iff {f : WireField} (hid : f.Numbered) (start : ℕ) {k : ℕ} (hk : k < 2 ^ 28) :
    (f.atom start).id = k ↔ f.id = k := by
  obtain ⟨htag, -⟩ := toNat_tag hid
  have hwiretype : f.value.wiretype < 8 := by cases f.value <;> simp [WireValue.wiretype]
  have hlt : f.tag < 2 ^ 32 := htag ▸ BitVec.isLt _
  have hshift (x : ℤ) : x >>> (3 : ℕ) = x / 8 := Int.shiftRight_eq_div_pow x 3
  rw [Atom.id, wireId_atom, BitVec.toInt_sshiftRight, BitVec.toInt_eq_toNat_cond, htag, hshift]
  unfold Numbered at hid
  unfold tag at hlt ⊢
  split_ifs <;> omega

/-- An encoded field is read as it is. -/
theorem wiretypeDecode_encode {f : WireField} (hid : f.Numbered) (hsize : f.encode.length < 2 ^ 31)
    (rest : Bytes) (start : ℕ) :
    wiretypeDecode (f.encode ++ rest) start = .ok (f.atom start, f.encode.length) := by
  obtain ⟨htag, hwiretype⟩ := toNat_tag hid
  have hlt : f.tag < 2 ^ 32 := htag ▸ BitVec.isLt _
  have hdecode : pbcVDecode (f.encode ++ rest) =
      some (⟨BitVec.ofNat 32 f.tag, 0⟩, (Varint.encode f.tag).length) := by
    rw [encode, List.append_assoc, pbcVDecode_encode (by omega), LongLong.ofNat_of_lt hlt]
  have hdrop : (f.encode ++ rest).drop (Varint.encode f.tag).length = f.value.encode ++ rest := by
    rw [encode, List.append_assoc, List.drop_left]
  have hmark : (BitVec.ofNat 32 f.tag).toNat % 8 = f.value.wiretype := by rw [htag, hwiretype]
  have hvalue := valueDecode_encode hmark (by rw [length_encode] at hsize; omega) rest
  simp only [wiretypeDecode, hdecode, hdrop, hvalue, ne_eq, not_true_eq_false, if_false,
    Opened.map_ok, length_encode]
  rfl

end WireField

theorem openLoop_encodeFields {fs : List WireField} (hid : ∀ f ∈ fs, f.Numbered)
    (hsize : (encodeFields fs).length < 2 ^ 31) {budget : ℕ}
    (hbudget : (encodeFields fs).length ≤ budget) (start : ℕ) :
    openLoop budget (encodeFields fs) start = .ok (atomsFrom start fs) := by
  induction fs generalizing budget start with
  | nil => cases budget <;> rfl
  | cons f fs ih =>
    have hcons : encodeFields (f :: fs) = f.encode ++ encodeFields fs := List.flatMap_cons
    have hpos := f.length_encode_pos
    rw [hcons, List.length_append] at hsize hbudget
    obtain ⟨budget, rfl⟩ : ∃ b, budget = b + 1 := ⟨budget - 1, by omega⟩
    have hread : wiretypeDecode (f.encode ++ encodeFields fs) start =
        .ok (f.atom start, f.encode.length) :=
      f.wiretypeDecode_encode (hid f (by simp)) (by omega) _ start
    have hrest : openLoop budget (encodeFields fs) (start + f.encode.length) =
        .ok (atomsFrom (start + f.encode.length) fs) :=
      ih (fun g hg => hid g (by simp [hg])) (by omega) (by omega) _
    rw [hcons]
    cases hbytes : f.encode ++ encodeFields fs with
    | nil =>
      rw [List.append_eq_nil_iff] at hbytes
      simp [hbytes.1] at hpos
    | cons b bytes =>
      rw [openLoop, ← hbytes, hread, Opened.bind_ok]
      · simp only [List.drop_left, hrest, Opened.map_ok]
        rfl
      · simp

theorem encodeFields_eq_nil {fs : List WireField} (h : (encodeFields fs).length = 0) : fs = [] := by
  cases fs with
  | nil => rfl
  | cons f fs =>
    have hpos := f.length_encode_pos
    have hcons : encodeFields (f :: fs) = f.encode ++ encodeFields fs := List.flatMap_cons
    rw [hcons, List.length_append] at h
    omega

/-- A message is cut into its fields. -/
theorem pbcCOpen_encodeFields {fs : List WireField} (hid : ∀ f ∈ fs, f.Numbered)
    (hsize : (encodeFields fs).length < 2 ^ 31) :
    pbcCOpen (encodeFields fs) = .ok (atomsFrom 0 fs) :=
  openLoop_encodeFields hid hsize le_rfl 0

end SockTestProgram
