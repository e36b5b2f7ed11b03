import Mathlib.Data.Nat.Bitwise
import SockTestProgram.Lib.Chained
import SockTestProgram.Lib.Run
import SockTestProgram.Pbc.Decode

/-!
# The maps of pbc

`map.c`: the map of an enumeration from names to numbers (`map_si`), the maps from numbers to names
and to fields (`map_ip`), and the maps from strings that grow (`map_sp`).  All of them are tables
with chains through their own slots, apart from the arrays that `map_ip` uses where the numbers are
small.  They answer as association lists do (`siQuery_eq`, `ipQuery_eq`, `MapSp.query_of_run`),
whatever the hash function is.
-/

open Chained Lts

namespace SockTestProgram

/-! ## Hashes -/

/-- The loop of `calc_hash`.  A `char` is signed. -/
def hashLoop (name : Bytes) (step : ℕ) : ℕ → ℕ → BitVec 64 → BitVec 64
  | 0, _, h => h
  | budget + 1, i, h =>
    if step ≤ i then
      hashLoop name step budget (i - step)
        (h ^^^ ((h <<< 5) + (h >>> 2) + ((name[i - 1]?).getD 0).toBitVec.signExtend 64))
    else h

/-- `calc_hash`, of a name of these bytes. -/
def calcHash (name : Bytes) : BitVec 64 :=
  hashLoop name ((name.length >>> 5) + 1) name.length name.length (BitVec.ofNat 64 name.length)

/-- `calc_hash` of a string. -/
def stringHash (name : String) : BitVec 64 := calcHash name.toUTF8.toList

variable {K α : Type}

/-- A key with its hash, as the slots keep it (`hash`, `key`). -/
abbrev Hashed (K : Type) : Type := BitVec 64 × K

/-! ## From names to numbers -/

/-- `hash_full % size` -/
def siHome (size : ℕ) (key : Hashed K) : ℕ := key.1.toNat % size

theorem siHome_lt {size : ℕ} (h : 0 < size) (key : Hashed K) : siHome size key < size :=
  Nat.mod_lt _ h

/-- `_pbcM_si_new` -/
def siNew (hash : K → BitVec 64) (table : List (K × ℤ)) : Table (Hashed K) ℤ :=
  Table.fill (siHome table.length) (table.map fun e => ((hash e.1, e.1), e.2))

/-- `_pbcM_si_query`; `none` where it returns 1. -/
def siQuery [DecidableEq K] (hash : K → BitVec 64) (map : Table (Hashed K) ℤ) (key : K) :
    Option ℤ :=
  map.find (hash key, key) map.length (siHome map.length (hash key, key))

/-! ## From numbers to names and fields -/

/-- `struct map_ip` -/
inductive MapIp (α : Type)
  | array (a : List (Option α))
  | hash (slot : Table ℤ α)
  deriving Repr

/-- `((unsigned)id) % size` -/
def ipHome (size : ℕ) (id : ℤ) : ℕ := (id % 2 ^ 32).toNat % size

/-- `_pbcM_ip_new_hash` -/
def ipNewHash (table : List (ℤ × α)) : MapIp α := .hash (Table.fill (ipHome table.length) table)

/-- The loop of `_pbcM_ip_new` over the other numbers; `none` where it turns to
`_pbcM_ip_new_hash`. -/
def ipMax (size : ℕ) (max : ℤ) : List ℤ → Option ℤ
  | [] => some max
  | id :: ids =>
    if id < 0 then none
    else if max < id then
      if size * 2 < id then none else ipMax size id ids
    else ipMax size max ids

/-- The array is written entry by entry. -/
def ipArray (max : ℤ) (table : List (ℤ × α)) : List (Option α) :=
  table.foldl (fun a e => a.set e.1.toNat (some e.2)) (List.replicate (max.toNat + 1) none)

/-- `_pbcM_ip_new`, of a table with a first entry. -/
def ipNew (first : ℤ × α) (rest : List (ℤ × α)) : MapIp α :=
  let table := first :: rest
  if table.length * 2 < first.1 ∨ first.1 < 0 then ipNewHash table
  else
    match ipMax table.length first.1 (rest.map Prod.fst) with
    | none => ipNewHash table
    | some max => .array (ipArray max table)

/-- `_pbcM_ip_query` -/
def ipQuery (map : MapIp α) (id : ℤ) : Option α :=
  match map with
  | .array a => if 0 ≤ id ∧ id < a.length then (a[id.toNat]?).join else none
  | .hash slot => slot.find id slot.length (ipHome slot.length id)

/-! ## Maps that grow -/

/-- `struct map_sp` -/
structure MapSp (K α : Type) where
  cap : ℕ
  size : ℕ
  slot : Table (Hashed K) α
  deriving Repr

namespace MapSp

/-- The capacity that `_pbcM_sp_new` comes to. -/
def capFor (max : ℕ) : ℕ → ℕ → ℕ
  | 0, cap => cap
  | budget + 1, cap => if cap < max then capFor max budget (cap * 2) else cap

/-- `_pbcM_sp_new` -/
def new (max : ℕ) : MapSp K α :=
  let cap := capFor max max 1
  ⟨cap, 0, Table.empty cap⟩

/-- `hash & (cap - 1)` -/
def home (cap : ℕ) (key : Hashed K) : ℕ := key.1.toNat &&& (cap - 1)

/-- The next slot in the search for a free one. -/
def walk (cap i : ℕ) : ℕ := (i + 1) &&& (cap - 1)

/-- A key that is not there yet: it goes to its home slot, or to a free slot that is linked in
behind another one. -/
def addBehind (m : MapSp K α) (behind : ℕ) (key : Hashed K) (value : α) : MapSp K α :=
  let hash := home m.cap key
  if m.slot.isFree hash then
    { m with slot := m.slot.place hash (key, value), size := m.size + 1 }
  else
    let empty := m.slot.probe (walk m.cap) m.cap (walk m.cap hash)
    { m with slot := m.slot.link behind empty (key, value), size := m.size + 1 }

/-- `_pbcM_sp_insert_hash` where there is room: the new slot comes behind the home slot. -/
def addSlot (m : MapSp K α) (key : Hashed K) (value : α) : MapSp K α :=
  m.addBehind (home m.cap key) key value

/-- `_pbcM_sp_query_insert_hash` where the key is not found and there is room: the new slot comes
behind the last slot of the chain, where the search ended. -/
def addLast (m : MapSp K α) (key : Hashed K) (value : α) : MapSp K α :=
  m.addBehind (m.slot.last m.cap (home m.cap key)) key value

/-- `_pbcM_sp_rehash`: twice the slots, which the entries of the first `size` slots go to.  A
slot takes 32 bytes, and `_pbcH_alloc` takes their size as an `int`: it does not overflow up to
`2 ^ 25` slots. -/
def rehash (m : MapSp K α) : MapSp K α :=
  (Table.entries (m.slot.take m.size)).foldl (fun m e => m.addSlot e.1 e.2)
    ⟨m.cap * 2, 0, Table.empty (m.cap * 2)⟩

/-- `_pbcM_sp_insert_hash`.  After rehashing there is room. -/
def insertHash (m : MapSp K α) (key : Hashed K) (value : α) : MapSp K α :=
  if m.size < m.cap then m.addSlot key value else m.rehash.addSlot key value

variable (hash : K → BitVec 64)

/-- `_pbcM_sp_insert` -/
def insert (m : MapSp K α) (key : K) (value : α) : MapSp K α :=
  m.insertHash (hash key, key) value

/-- `_pbcM_sp_query`.  A key whose hash is 0 is compared with the key of an empty slot, which is
`NULL` (`undefined`). -/
def query [DecidableEq K] (m : MapSp K α) (key : K) : Opened (Option α) :=
  let h := home m.cap (hash key, key)
  if m.slot.isFree h ∧ hash key = 0 then .undefined
  else .ok (m.slot.find (hash key, key) m.cap h)

/-- `_pbcM_sp_query_insert`, and what the caller does with the pointer it returns, which is
`NULL` at first. -/
def queryInsert [DecidableEq K] (m : MapSp K α) (key : K) (value : Option α → Option α) :
    Option (MapSp K α) :=
  match m.slot.seek (hash key, key) m.cap (home m.cap (hash key, key)) with
  | some i =>
    (value ((m.slot.entryAt i).map Prod.snd)).map fun v =>
      { m with slot := m.slot.place i ((hash key, key), v) }
  | none =>
    (value none).map fun v =>
      if m.size < m.cap then m.addLast (hash key, key) v else m.rehash.addLast (hash key, key) v

/-- `_pbcM_sp_foreach_ud`: the pointers, slot by slot. -/
def foreach (m : MapSp K α) : List α := m.slot.entries.map Prod.snd

end MapSp

/-! ## What the maps answer -/

/-- Keys are looked up with their hashes. -/
theorem values_hashed [DecidableEq K] (hash : K → BitVec 64) (table : List (K × α)) (key : K) :
    Table.values (table.map fun e => ((hash e.1, e.1), e.2)) (hash key, key) =
      Table.values table key := by
  unfold Table.values
  rw [List.find?_map, Option.map_map]
  have hkey (e : K × α) : ((hash e.1, e.1) = (hash key, key)) ↔ e.1 = key := by
    rw [Prod.mk.injEq]
    exact ⟨And.right, fun h => ⟨by rw [h], h⟩⟩
  simp only [Function.comp_def, hkey]

/-- **Names to numbers.**  The map of an enumeration answers for every name, also where hashes
are equal. -/
theorem siQuery_siNew [DecidableEq K] (hash : K → BitVec 64) {table : List (K × ℤ)}
    (hne : table ≠ []) (hnodup : (table.map Prod.fst).Nodup) (key : K) :
    siQuery hash (siNew hash table) key = Table.values table key := by
  have hpos : 0 < table.length := List.length_pos_iff.2 hne
  have hkeys : ((table.map fun e => ((hash e.1, e.1), e.2)).map Prod.fst).Nodup := by
    rw [List.map_map]
    have hpair : Function.Injective fun key : K => (hash key, key) := fun _ _ h => (Prod.mk.inj h).2
    have := hnodup.map hpair
    rwa [List.map_map] at this
  have hhome : ∀ e ∈ table.map fun e => ((hash e.1, e.1), e.2),
      siHome table.length e.1 < (table.map fun e => ((hash e.1, e.1), e.2)).length :=
    fun e _ => lt_of_lt_of_eq (siHome_lt hpos e.1) (List.length_map ..).symm
  obtain ⟨hlength, hr⟩ := Table.represents_fill hhome hkeys
  have hlen : (siNew hash table).length = table.length := hlength.trans (List.length_map ..)
  have hfind := hr.find_eq (k := (hash key, key)) (lt_of_lt_of_eq (siHome_lt hpos _) hlen.symm)
  rw [show List.length (Table.fill _ _) = table.length from hlen, values_hashed] at hfind
  rw [siQuery, hlen, ← hfind]
  rfl

theorem ipHome_lt {size : ℕ} (h : 0 < size) (id : ℤ) : ipHome size id < size := Nat.mod_lt _ h

/-- All numbers are in the range of an array, and so is the greatest. -/
theorem ipMax_spec {size : ℕ} {max m : ℤ} {ids : List ℤ} (h : ipMax size max ids = some m) :
    max ≤ m ∧ ∀ id ∈ ids, 0 ≤ id ∧ id ≤ m := by
  induction ids generalizing max with
  | nil =>
    obtain rfl := Option.some.inj h
    simp
  | cons id ids ih =>
    rw [ipMax] at h
    split_ifs at h with hneg hmax
    · obtain ⟨hle, hall⟩ := ih h
      refine ⟨by omega, ?_⟩
      simpa using ⟨⟨by omega, hle⟩, hall⟩
    · obtain ⟨hle, hall⟩ := ih h
      refine ⟨hle, ?_⟩
      simpa using ⟨⟨by omega, by omega⟩, hall⟩

theorem getElem?_foldl_set {table : List (ℤ × α)} (hnodup : (table.map Prod.fst).Nodup)
    (hneg : ∀ e ∈ table, 0 ≤ e.1) (a : List (Option α)) {id : ℕ} (hid : id < a.length) :
    (table.foldl (fun a e => a.set e.1.toNat (some e.2)) a)[id]? =
      some ((Table.values table (id : ℤ)).or a[id]) := by
  induction table generalizing a with
  | nil => simp [Table.values, hid]
  | cons e table ih =>
    rw [List.map_cons, List.nodup_cons] at hnodup
    have hpos := hneg e (by simp)
    rw [List.foldl_cons, ih hnodup.2 (fun e' he' => hneg e' (by simp [he'])) _ (by simpa using hid)]
    by_cases he : e.1 = id
    · have hnone : Table.values table (id : ℤ) = none := by
        unfold Table.values
        rw [List.find?_eq_none.2, Option.map_none]
        intro e' he'
        have : e'.1 ≠ e.1 := fun heq => hnodup.1 (heq ▸ List.mem_map_of_mem he')
        simpa [← he] using this
      have hnat : e.1.toNat = id := by omega
      rw [hnone]
      simp [Table.values, he]
    · have hnat : e.1.toNat ≠ id := by omega
      simp [Table.values, he, List.getElem_set_ne hnat]

/-- **Numbers to names and fields.**  Whether an array or a table is chosen, the map answers for
every number, a negative one too. -/
theorem ipQuery_ipNew {first : ℤ × α} {rest : List (ℤ × α)}
    (hnodup : ((first :: rest).map Prod.fst).Nodup) (id : ℤ) :
    ipQuery (ipNew first rest) id = Table.values (first :: rest) id := by
  have hhash : ipQuery (ipNewHash (first :: rest)) id = Table.values (first :: rest) id := by
    have hpos : 0 < (first :: rest).length := by simp
    have hhome : ∀ e ∈ first :: rest, ipHome (first :: rest).length e.1 < (first :: rest).length :=
      fun e _ => ipHome_lt hpos e.1
    obtain ⟨hlength, hr⟩ := Table.represents_fill hhome hnodup
    have hfind := hr.find_eq (lt_of_lt_of_eq (ipHome_lt hpos id) hlength.symm)
    rw [← hfind, hlength]
    unfold ipQuery ipNewHash
    simp only [hlength]
  unfold ipNew
  simp only
  split_ifs with hfirst
  · exact hhash
  · cases hmax : ipMax (first :: rest).length first.1 (rest.map Prod.fst) with
    | none => exact hhash
    | some max =>
      obtain ⟨hle, hall⟩ := ipMax_spec hmax
      have hneg : ∀ e ∈ first :: rest, 0 ≤ e.1 ∧ e.1 ≤ max := by
        intro e he
        rcases List.mem_cons.1 he with rfl | he
        · omega
        · exact hall e.1 (List.mem_map_of_mem he)
      have hlen : (ipArray max (first :: rest)).length = max.toNat + 1 := by
        unfold ipArray
        generalize first :: rest = table
        have hfold (a : List (Option α)) :
            (table.foldl (fun a e => a.set e.1.toNat (some e.2)) a).length = a.length := by
          induction table generalizing a with
          | nil => rfl
          | cons e table ih => rw [List.foldl_cons, ih, List.length_set]
        rw [hfold, List.length_replicate]
      unfold ipQuery
      simp only [hlen]
      split_ifs with hid
      · obtain ⟨n, rfl⟩ := Int.eq_ofNat_of_zero_le hid.1
        have hn : n < (List.replicate (max.toNat + 1) (none : Option α)).length := by
          rw [List.length_replicate]
          omega
        rw [Int.toNat_natCast, ipArray,
          getElem?_foldl_set hnodup (fun e he => (hneg e he).1) _ hn]
        simp
      · -- no number is out of the range of the array
        symm
        unfold Table.values
        rw [List.find?_eq_none.2, Option.map_none]
        intro e he
        have := hneg e he
        simp only [decide_eq_true_eq]
        omega

/-- The maps of an enumeration answer as the model of enumerations does, where neither names nor
numbers are used twice. -/
theorem PbcEnum.maps_agree (hash : String → BitVec 64) {first : String × ℤ}
    {rest : List (String × ℤ)} (hnames : ((first :: rest).map Prod.fst).Nodup)
    (hnumbers : ((first :: rest).map Prod.snd).Nodup) (name : String) (id : ℤ) :
    siQuery hash (siNew hash (first :: rest)) name = PbcEnum.number ⟨first :: rest⟩ name ∧
      ipQuery (ipNew first.swap (rest.map Prod.swap)) id = PbcEnum.name ⟨first :: rest⟩ id := by
  constructor
  · exact siQuery_siNew hash (by simp) hnames name
  · have hswap : first.swap :: rest.map Prod.swap = (first :: rest).map Prod.swap := rfl
    rw [ipQuery_ipNew (by rw [hswap, List.map_map]; exact hnumbers), hswap]
    unfold Table.values PbcEnum.name
    rw [List.find?_map, Option.map_map]
    rfl

/-- Three names, two of them of one hash, and a negative number. -/
theorem PbcEnum.maps_agree_collisions :
    siQuery (fun _ => 5) (siNew (fun _ => 5) [("ET_OK", 0), ("ET_FAIL", -1), ("ET_BUSY", 9)])
      "ET_BUSY" =
        some 9 ∧
      ipQuery (ipNew (0, "ET_OK") [(-1, "ET_FAIL"), (9, "ET_BUSY")]) (-1) = some "ET_FAIL" :=
  PbcEnum.maps_agree (fun _ => 5) (by decide) (by decide) "ET_BUSY" (-1)

/-! ## What a map that grows holds -/

namespace MapSp

variable {m : MapSp K α} {hash : K → BitVec 64} {f : K → Option α} {key : K} {value : α}

/-- The values of keys with their hashes. -/
def hashed (hash : K → BitVec 64) (f : K → Option α) (key : Hashed K) : Option α :=
  if key.1 = hash key.2 then f key.2 else none

theorem hashed_self (hash : K → BitVec 64) (f : K → Option α) (key : K) :
    hashed hash f (hash key, key) = f key := if_pos rfl

theorem hashed_update [DecidableEq K] (hash : K → BitVec 64) (f : K → Option α) (key : K)
    (value : Option α) :
    hashed hash (Function.update f key value) =
      Function.update (hashed hash f) (hash key, key) value := by
  funext key'
  by_cases hkey : key' = (hash key, key)
  · subst hkey
    rw [hashed_self, Function.update_self, Function.update_self]
  · rw [Function.update_of_ne hkey]
    unfold hashed
    split_ifs with hh
    · have hne : key'.2 ≠ key := by
        rintro rfl
        exact hkey (Prod.ext hh rfl)
      rw [Function.update_of_ne hne]
    · rfl

/-- The map holds the values of `f`. -/
structure Holds (hash : K → BitVec 64) (m : MapSp K α) (f : K → Option α) : Prop where
  cap : ∃ p, m.cap = 2 ^ p
  length : m.slot.length = m.cap
  size : m.slot.entries.length = m.size
  represents : Table.Represents (home m.cap) m.slot (hashed hash f)

theorem home_eq {p : ℕ} (key : Hashed K) : home (2 ^ p) key = key.1.toNat % 2 ^ p :=
  Nat.and_two_pow_sub_one_eq_mod _ p

theorem walk_eq {p : ℕ} (i : ℕ) : walk (2 ^ p) i = (i + 1) % 2 ^ p :=
  Nat.and_two_pow_sub_one_eq_mod _ p

theorem Holds.home_lt (h : Holds hash m f) (key : Hashed K) : home m.cap key < m.slot.length := by
  obtain ⟨p, hp⟩ := h.cap
  rw [h.length, hp, home_eq]
  exact Nat.mod_lt _ (Nat.two_pow_pos p)

theorem iterate_walk {p : ℕ} (n : ℕ) {i : ℕ} (hi : i < 2 ^ p) :
    (walk (2 ^ p))^[n] i = (i + n) % 2 ^ p := by
  induction n with
  | zero => exact (Nat.mod_eq_of_lt hi).symm
  | succ n ih =>
    rw [Function.iterate_succ_apply', ih, walk_eq, Nat.mod_add_mod]
    rfl

/-- Where there is room, the search goes all the way round and finds it. -/
theorem Holds.isFree_probe (h : Holds hash m f) (hroom : m.size < m.cap) (i : ℕ) :
    m.slot.isFree (m.slot.probe (walk m.cap) m.cap (walk m.cap i)) = true := by
  obtain ⟨j, hj, hnone⟩ := Table.exists_free (t := m.slot) (by rw [h.size, h.length]; exact hroom)
  obtain ⟨p, hp⟩ := h.cap
  have hfree : m.slot.isFree j = true := Table.isFree_iff.2 ⟨hj, hnone⟩
  rw [h.length, hp] at hj
  have hs : walk m.cap i < 2 ^ p := by
    rw [hp, walk_eq]
    exact Nat.mod_lt _ (Nat.two_pow_pos p)
  refine Table.isFree_probe (m := (j + 2 ^ p - walk m.cap i) % 2 ^ p) ?_ ?_
  · rw [hp]
    exact (Nat.mod_lt _ (Nat.two_pow_pos p)).le
  · have hplace : (walk (2 ^ p))^[(j + 2 ^ p - walk m.cap i) % 2 ^ p] (walk m.cap i) = j := by
      rw [iterate_walk _ hs, Nat.add_mod_mod, show walk m.cap i + (j + 2 ^ p - walk m.cap i) =
        j + 2 ^ p by omega, Nat.add_mod_right, Nat.mod_eq_of_lt hj]
    rw [← hp] at hplace ⊢
    rw [hplace]
    exact hfree

theorem holds_empty (hash : K → BitVec 64) (p : ℕ) :
    Holds hash (⟨2 ^ p, 0, Table.empty (2 ^ p)⟩ : MapSp K α) fun _ => none where
  cap := ⟨p, rfl⟩
  length := Table.length_empty _
  size := by simp
  represents := by
    have hnone : hashed hash (fun _ : K => (none : Option α)) = fun _ => none := by
      funext key
      exact ite_self none
    rw [hnone]
    exact Table.represents_empty _ _

theorem capFor_eq (max budget p : ℕ) : ∃ q, capFor max budget (2 ^ p) = 2 ^ q := by
  induction budget generalizing p with
  | zero => exact ⟨p, rfl⟩
  | succ budget ih =>
    rw [capFor, ← pow_succ]
    split_ifs
    · exact ih (p + 1)
    · exact ⟨p, rfl⟩

theorem holds_new (hash : K → BitVec 64) (max : ℕ) :
    Holds hash (new max : MapSp K α) fun _ => none := by
  obtain ⟨p, hp⟩ := capFor_eq max max 0
  have := holds_empty (K := K) (α := α) hash p
  rw [← hp] at this
  exact this

/-- A new key is added where there is room, behind any slot of its chain. -/
theorem Holds.addBehind [DecidableEq K] (h : Holds hash m f) (hroom : m.size < m.cap)
    (hkey : f key = none) {behind : ℕ} {l : List ℕ}
    (hl : Table.Chain m.slot (home m.cap (hash key, key)) l) (hmem : behind ∈ l) :
    Holds hash (m.addBehind behind (hash key, key) value) (Function.update f key (some value)) ∧
      (m.addBehind behind (hash key, key) value).size = m.size + 1 ∧
      (m.addBehind behind (hash key, key) value).cap = m.cap := by
  have hlt := h.home_lt (hash key, key)
  have hnew : hashed hash f (hash key, key) = none := (hashed_self hash f key).trans hkey
  cases hhome : m.slot.isFree (home m.cap (hash key, key)) with
  | true =>
    obtain ⟨-, hnone⟩ := Table.isFree_iff.1 hhome
    have hadd : m.addBehind behind (hash key, key) value = { m with
        slot := m.slot.place (home m.cap (hash key, key)) ((hash key, key), value)
        size := m.size + 1 } := by
      unfold MapSp.addBehind
      rw [if_pos hhome]
    rw [hadd]
    refine ⟨⟨h.cap, ?_, ?_, ?_⟩, rfl, rfl⟩
    · simpa using h.length
    · simpa [h.size] using (Table.perm_entries_place (e := ((hash key, key), value)) hlt
        hnone).length_eq
    · rw [hashed_update]
      exact h.represents.place (e := ((hash key, key), value)) hnew hhome
  | false =>
    have hfree := h.isFree_probe hroom (home m.cap (hash key, key))
    obtain ⟨hi, hnone⟩ := Table.isFree_iff.1 hfree
    have hadd : m.addBehind behind (hash key, key) value = { m with
        slot := m.slot.link behind
          (m.slot.probe (walk m.cap) m.cap (walk m.cap (home m.cap (hash key, key))))
          ((hash key, key), value)
        size := m.size + 1 } := by
      unfold MapSp.addBehind
      simp only [hhome, Bool.false_eq_true, if_false]
    rw [hadd]
    refine ⟨⟨h.cap, ?_, ?_, ?_⟩, rfl, rfl⟩
    · simpa using h.length
    · simpa [h.size] using (Table.perm_entries_link (h := behind)
        (e := ((hash key, key), value)) hi hnone).length_eq
    · rw [hashed_update]
      exact h.represents.link (e := ((hash key, key), value)) hnew hl hmem hhome hfree

theorem Holds.addSlot [DecidableEq K] (h : Holds hash m f) (hroom : m.size < m.cap)
    (hkey : f key = none) :
    Holds hash (m.addSlot (hash key, key) value) (Function.update f key (some value)) ∧
      (m.addSlot (hash key, key) value).size = m.size + 1 ∧
      (m.addSlot (hash key, key) value).cap = m.cap := by
  obtain ⟨l, hl⟩ := h.represents.threaded.chain _ (h.home_lt (hash key, key))
  exact h.addBehind hroom hkey hl hl.head_mem

theorem Holds.addLast [DecidableEq K] (h : Holds hash m f) (hroom : m.size < m.cap)
    (hkey : f key = none) :
    Holds hash (m.addLast (hash key, key) value) (Function.update f key (some value)) ∧
      (m.addLast (hash key, key) value).size = m.size + 1 ∧
      (m.addLast (hash key, key) value).cap = m.cap := by
  obtain ⟨l, hl⟩ := h.represents.threaded.chain _ (h.home_lt (hash key, key))
  exact h.addBehind hroom hkey hl (Table.last_mem_of_chain hl (hl.length_le.trans h.length.le))

/-- With twice the slots the map holds the same, and there is room. -/
theorem Holds.rehash [DecidableEq K] (h : Holds hash m f) (hfull : m.size = m.cap) :
    Holds hash m.rehash f ∧ m.rehash.size = m.size ∧ m.rehash.cap = m.cap * 2 := by
  obtain ⟨p, hp⟩ := h.cap
  have htake : m.slot.take m.size = m.slot := by
    rw [hfull, ← h.length, List.take_length]
  let I (m' : MapSp K α) (g : Hashed K → Option α) (c : ℕ) : Prop :=
    ∃ f', g = hashed hash f' ∧ Holds hash m' f' ∧ m'.size = c ∧ m'.cap = m.cap * 2
  have hadd (m' : MapSp K α) (g : Hashed K → Option α) (c : ℕ) (e : Hashed K × α) (hI : I m' g c)
      (hc : c < m.cap * 2) (he : e.1.1 = hash e.1.2) (hnew : g e.1 = none) :
      I (m'.addSlot e.1 e.2) (Function.update g e.1 (some e.2)) (c + 1) := by
    obtain ⟨⟨hh, key⟩, v⟩ := e
    obtain rfl : hh = hash key := he
    obtain ⟨f', rfl, hm', rfl, hcap⟩ := hI
    obtain ⟨hm'', hsize, hcap'⟩ : Holds hash (m'.addSlot (hash key, key) v)
        (Function.update f' key (some v)) ∧ _ :=
      hm'.addSlot (by rw [hcap]; exact hc) ((hashed_self hash f' key).symm.trans hnew)
    exact ⟨Function.update f' key (some v), (hashed_update ..).symm, hm'', hsize, hcap'.trans hcap⟩
  have hkeys : ∀ e ∈ m.slot.entries, e.1.1 = hash e.1.2 := by
    intro e he
    obtain ⟨i, hi⟩ := Table.mem_entries_iff.1 he
    have hvalue := (h.represents.holds e.1 e.2).1 ⟨i, hi⟩
    by_contra hne
    rw [hashed, if_neg hne] at hvalue
    cases hvalue
  have hpos : 0 < m.cap := hp ▸ Nat.two_pow_pos p
  have hstart : I ⟨m.cap * 2, 0, Table.empty (m.cap * 2)⟩ (fun _ => none) 0 := by
    have hempty := holds_empty (K := K) (α := α) hash (p + 1)
    rw [pow_succ, ← hp] at hempty
    exact ⟨fun _ => none, by funext key; exact (ite_self none).symm, hempty, rfl, rfl⟩
  have hnodup := h.represents.nodup_keys
  obtain ⟨f', hf', hm', hsize, hcap⟩ := Table.foldl_add hadd hkeys hnodup
    (by rw [h.size]; omega) hstart fun _ _ => rfl
  -- the entries are those of the map
  have hsame : f' = f := by
    funext key
    rw [← hashed_self hash f' key, ← hashed_self hash f key, ← hf']
    simp only [Option.or_none]
    ext v
    rw [Table.values_eq_some_iff hnodup, Table.mem_entries_iff,
      h.represents.holds]
  unfold MapSp.rehash
  rw [htake]
  exact ⟨hsame ▸ hm', by rw [hsize, h.size, Nat.zero_add], hcap⟩

/-- The room that one more entry takes: the slots are doubled only when all are taken. -/
def Grows (m m' : MapSp K α) : Prop :=
  m'.size ≤ m.size + 1 ∧ (m'.cap = m.cap ∨ m.size = m.cap ∧ m'.cap = m.cap * 2)

/-- Room is made where there is none, and a key is added. -/
theorem Holds.grow [DecidableEq K] (h : Holds hash m f) {add : MapSp K α → MapSp K α}
    {g : K → Option α} (hadd : ∀ m', Holds hash m' f → m'.size < m'.cap →
      Holds hash (add m') g ∧ (add m').size = m'.size + 1 ∧ (add m').cap = m'.cap) :
    Holds hash (if m.size < m.cap then add m else add m.rehash) g ∧
      m.Grows (if m.size < m.cap then add m else add m.rehash) := by
  split_ifs with hroom
  · obtain ⟨hm, hsize, hcap⟩ := hadd m h hroom
    exact ⟨hm, hsize.le, .inl hcap⟩
  · have hle : m.slot.entries.length ≤ m.slot.length := List.length_filterMap_le ..
    rw [h.size, h.length] at hle
    have hfull : m.size = m.cap := Nat.le_antisymm hle (Nat.le_of_not_lt hroom)
    obtain ⟨hr, hsize, hcap⟩ := h.rehash hfull
    have hpos : 0 < m.cap := by
      obtain ⟨p, hp⟩ := h.cap
      rw [hp]
      exact Nat.two_pow_pos p
    obtain ⟨hm, hsize', hcap'⟩ := hadd m.rehash hr (by omega)
    exact ⟨hm, (hsize'.trans (by rw [hsize])).le, .inr ⟨hfull, hcap'.trans hcap⟩⟩

theorem Holds.insert [DecidableEq K] (h : Holds hash m f) (hkey : f key = none) :
    Holds hash (m.insert hash key value) (Function.update f key (some value)) ∧
      m.Grows (m.insert hash key value) :=
  h.grow fun _ hm hroom => hm.addSlot hroom hkey

theorem Holds.queryInsert [DecidableEq K] (h : Holds hash m f) {get : Option α → Option α}
    (hvalue : get (f key) = some value) :
    ∃ m', m.queryInsert hash key get = some m' ∧
      Holds hash m' (Function.update f key (some value)) ∧ m.Grows m' := by
  have hlt := h.home_lt (hash key, key)
  unfold MapSp.queryInsert
  cases hseek : m.slot.seek (hash key, key) m.cap (home m.cap (hash key, key)) with
  | none =>
    have hnone := (h.represents.seek_eq_none_iff hlt).1 (by rw [h.length, hseek])
    rw [hashed_self] at hnone
    rw [hnone] at hvalue
    simp only [hvalue, Option.map_some]
    exact ⟨_, rfl, h.grow fun _ hm hroom => hm.addLast hroom hnone⟩
  | some i =>
    have hi := (h.represents.seek_eq_some_iff hlt).1 (by rw [h.length, hseek])
    obtain ⟨⟨key', v⟩, he, hkey : key' = (hash key, key)⟩ := Option.map_eq_some_iff.1 hi
    subst hkey
    have hold : f key = some v := by
      rw [← hashed_self hash f key]
      exact (h.represents.holds _ v).1 ⟨i, he⟩
    have hsize := Table.length_entries_overwrite (t := m.slot) (i := i)
      (e := ((hash key, key), value)) (by rw [he]; rfl)
    rw [hold] at hvalue
    simp only [he, Option.map_some, hvalue]
    refine ⟨_, rfl, ⟨h.cap, by simpa using h.length, hsize.trans h.size, ?_⟩,
      Nat.le_succ _, .inl rfl⟩
    rw [hashed_update]
    exact h.represents.overwrite hi

/-- As long as the entries do not come to the limit of the slots, the slots do not exceed it. -/
theorem Holds.cap_le (h : Holds hash m f) {m' : MapSp K α} (hgrows : m.Grows m') {limit : ℕ}
    (hcap : m.cap ≤ 2 ^ limit) (hsize : m.size < 2 ^ limit) : m'.cap ≤ 2 ^ limit := by
  obtain ⟨-, hcap' | ⟨hfull, hcap'⟩⟩ := hgrows
  · exact hcap'.trans_le hcap
  · obtain ⟨p, hp⟩ := h.cap
    rw [hfull, hp] at hsize
    rw [hcap', hp, ← pow_succ]
    exact Nat.pow_le_pow_right (by decide) ((Nat.pow_lt_pow_iff_right (by decide)).1 hsize)

/-- A query finds what the map holds, unless it reads the key of an empty slot. -/
theorem Holds.query [DecidableEq K] (h : Holds hash m f) (key : K) :
    m.query hash key =
      if m.slot.isFree (home m.cap (hash key, key)) = true ∧ hash key = 0 then .undefined
      else .ok (f key) := by
  have hfind := h.represents.find_eq (h.home_lt (hash key, key))
  rw [hashed_self, h.length] at hfind
  simp only [MapSp.query, hfind]

/-- The entries are those of the map. -/
theorem Holds.mem_entries (h : Holds hash m f) {e : Hashed K × α} :
    e ∈ m.slot.entries ↔ e.1.1 = hash e.1.2 ∧ f e.1.2 = some e.2 := by
  rw [Table.mem_entries_iff, h.represents.holds e.1 e.2]
  unfold hashed
  split_ifs with hh
  · simp [hh]
  · simp [hh]

/-- The pointers, each of them once. -/
theorem Holds.foreach_eq (h : Holds hash m f) :
    ∃ keys : List K, keys.Nodup ∧ (∀ key, key ∈ keys ↔ (f key).isSome = true) ∧
      m.foreach = keys.filterMap f := by
  refine ⟨m.slot.entries.map (·.1.2), ?_, fun key => ?_, ?_⟩
  · have hnodup := h.represents.nodup_keys
    refine List.Nodup.of_map (fun key : K => (hash key, key)) ?_
    rw [List.map_map]
    have hkeys : m.slot.entries.map Prod.fst =
        m.slot.entries.map ((fun key : K => (hash key, key)) ∘ fun e => e.1.2) :=
      List.map_congr_left fun e he => Prod.ext (h.mem_entries.1 he).1 rfl
    rwa [← hkeys]
  · rw [List.mem_map, Option.isSome_iff_exists]
    constructor
    · rintro ⟨e, he, rfl⟩
      exact ⟨e.2, (h.mem_entries.1 he).2⟩
    · rintro ⟨v, hv⟩
      exact ⟨((hash key, key), v), h.mem_entries.2 ⟨rfl, hv⟩, rfl⟩
  · unfold foreach
    rw [List.filterMap_map, ← List.filterMap_eq_map]
    exact List.filterMap_congr fun e he => (h.mem_entries.1 he).2.symm

/-- A call that changes a map. -/
inductive Call (K α : Type)
  /-- `_pbcM_sp_insert` -/
  | insert (key : K) (value : α)
  /-- `_pbcM_sp_query_insert`, after which the pointer is set -/
  | queryInsert (key : K) (value : Option α → Option α)

/-- The map after a call. -/
def step [DecidableEq K] (hash : K → BitVec 64) (m : MapSp K α) : Call K α → Option (MapSp K α)
  | .insert key value => some (m.insert hash key value)
  | .queryInsert key value => m.queryInsert hash key value

/-- What a call is to do.  A key may be inserted once. -/
def Call.next [DecidableEq K] (f : K → Option α) : Call K α → Option (K → Option α)
  | .insert key value => if (f key).isNone then some (Function.update f key (some value)) else none
  | .queryInsert key value => (value (f key)).map fun v => Function.update f key (some v)

theorem Holds.step [DecidableEq K] (h : Holds hash m f) {c : Call K α} {f' : K → Option α}
    (hf : c.next f = some f') :
    ∃ m', m.step hash c = some m' ∧ Holds hash m' f' ∧ m.Grows m' := by
  cases c with
  | insert key value =>
    obtain ⟨hkey, hf⟩ := Option.ite_none_right_eq_some.1 hf
    obtain rfl := Option.some.inj hf
    exact ⟨_, rfl, h.insert (Option.isNone_iff_eq_none.1 hkey)⟩
  | queryInsert key value =>
    obtain ⟨v, hv, rfl⟩ := Option.map_eq_some_iff.1 hf
    exact h.queryInsert hv

theorem capFor_le {max budget cap limit : ℕ} (hmax : max ≤ 2 ^ limit) {p : ℕ} (hp : cap = 2 ^ p)
    (hcap : cap ≤ 2 ^ limit) : capFor max budget cap ≤ 2 ^ limit := by
  induction budget generalizing cap p with
  | zero => exact hcap
  | succ budget ih =>
    rw [capFor]
    split_ifs with hlt
    · refine ih (p := p + 1) (by rw [hp, pow_succ]) ?_
      have hlt : 2 ^ p < 2 ^ limit := by omega
      rw [hp, ← pow_succ]
      exact Nat.pow_le_pow_right (by decide) ((Nat.pow_lt_pow_iff_right (by decide)).1 hlt)
    · exact hcap

/-- **Maps from strings.**  In every run of calls on a new map, up to `2 ^ 25` of them and
whatever the hash function is, a query finds the value that its key got last, and each pointer is
visited once.  Only a key whose hash is 0 is not looked up: where its home slot is empty, `NULL`
is compared with it.  There are never more than `2 ^ 25` slots, so that no `int` overflows. -/
theorem query_of_run [DecidableEq K] (hash : K → BitVec 64) {max : ℕ} (hmax : max ≤ 2 ^ 25)
    {calls : List (Call K α)} (hcalls : calls.length ≤ 2 ^ 25) {f : K → Option α}
    (hrun : run Call.next (fun _ => none) calls = some f) :
    ∃ m, run (step hash) (new max) calls = some m ∧ m.cap ≤ 2 ^ 25 ∧
      (∀ key, m.query hash key =
        if m.slot.isFree (home m.cap (hash key, key)) = true ∧ hash key = 0 then .undefined
        else .ok (f key)) ∧
      ∃ keys : List K, keys.Nodup ∧ (∀ key, key ∈ keys ↔ (f key).isSome = true) ∧
        m.foreach = keys.filterMap f := by
  have hrun' : ∀ {calls : List (Call K α)} {m : MapSp K α} {f f' : K → Option α}, Holds hash m f →
      m.cap ≤ 2 ^ 25 →
      m.size + calls.length ≤ 2 ^ 25 → run Call.next f calls = some f' →
      ∃ m', run (step hash) m calls = some m' ∧ m'.cap ≤ 2 ^ 25 ∧ Holds hash m' f' := by
    intro calls
    induction calls with
    | nil =>
      intro m f f' h hcap _ hf
      obtain rfl := Option.some.inj hf
      exact ⟨m, rfl, hcap, h⟩
    | cons c calls ih =>
      intro m f f' h hcap hsize hf
      rw [List.length_cons] at hsize
      obtain ⟨f₁, hf₁, hf⟩ := run_cons_eq_some_iff.1 hf
      obtain ⟨m₁, hm₁, h₁, hgrows⟩ := h.step hf₁
      have hsize₁ := hgrows.1
      obtain ⟨m', hm', hcap', h'⟩ := ih h₁ (h.cap_le hgrows hcap (by omega)) (by omega) hf
      exact ⟨m', run_cons_eq_some_iff.2 ⟨m₁, hm₁, hm'⟩, hcap', h'⟩
  have hcap : (new max : MapSp K α).cap ≤ 2 ^ 25 :=
    capFor_le hmax (pow_zero 2).symm Nat.one_le_two_pow
  obtain ⟨m, hm, hcap, h⟩ := hrun' (holds_new hash max) hcap (by simpa [new] using hcalls) hrun
  exact ⟨m, hm, hcap, h.query, h.foreach_eq⟩

/-- Three keys of one hash, on a map of one slot. -/
theorem query_of_run_collisions :
    ∃ m, run (step fun _ => 7) (new 0 : MapSp String ℕ)
        [.insert "a" 1, .queryInsert "b" fun _ => some 2, .queryInsert "c" fun _ => some 3] =
          some m ∧
      m.query (fun _ => 7) "b" = .ok (some 2) ∧ m.query (fun _ => 7) "d" = .ok none := by
  obtain ⟨f, hf⟩ : ∃ f, run Call.next (fun _ : String => (none : Option ℕ))
      [.insert "a" 1, .queryInsert "b" fun _ => some 2, .queryInsert "c" fun _ => some 3] =
        some f := ⟨_, rfl⟩
  obtain ⟨m, hm, -, hquery, -⟩ :=
    query_of_run (fun _ => 7) (Nat.zero_le _ : 0 ≤ 2 ^ 25) (by decide) hf
  have hb : f "b" = some 2 ∧ f "d" = none := by
    simp only [run, Call.next, Option.isNone_none, if_true, Option.map_some, Option.bind_some,
      Option.some.injEq] at hf
    rw [← hf]
    simp [Function.update]
  have hhash : ¬ (7 : BitVec 64) = 0 := by decide
  refine ⟨m, hm, ?_, ?_⟩
  · rw [hquery, if_neg fun h => hhash h.2, hb.1]
  · rw [hquery, if_neg fun h => hhash h.2, hb.2]

end MapSp

/-! ## The maps of a message -/

/-- `struct _message`: `id` and `name`. -/
structure MessageMaps where
  id : MapIp Field
  name : MapSp String Field

/-- `_pbcP_push_message`, of all fields of a message. -/
def pushMessage (hash : String → BitVec 64) (fields : List Field) : MapSp String Field :=
  fields.foldl (fun name f => name.insert hash f.name f) (MapSp.new 0)

/-- `_pbcP_init_message`: the numbers are entered in the order of the slots. -/
def initMessage (name : MapSp String Field) : Option MessageMaps :=
  match name.foreach.map fun f => (f.id, f) with
  | [] => none
  | first :: rest => some ⟨ipNew first rest, name⟩

theorem values_fields {κ : Type} [DecidableEq κ] (g : Field → κ) (fields : List Field) (k : κ) :
    Table.values (fields.map fun f => (g f, f)) k = fields.find? (g · = k) := by
  unfold Table.values
  rw [List.find?_map, Option.map_map]
  simp only [Function.comp_def, Option.map_id_fun', id_eq]

theorem holds_pushMessage (hash : String → BitVec 64) {fields : List Field}
    (hnames : (fields.map Field.name).Nodup) :
    MapSp.Holds hash (pushMessage hash fields)
      fun key => fields.find? (·.name = key) := by
  let I (m : MapSp String Field) (f : String → Option Field) (_ : ℕ) : Prop := m.Holds hash f
  have hkeys : ((fields.map fun f => (f.name, f)).map Prod.fst).Nodup := by
    rwa [List.map_map]
  have hadd (m : MapSp String Field) (f : String → Option Field) (c : ℕ) (e : String × Field)
      (hI : I m f c)
      (_ : c < (fields.map fun f => (f.name, f)).length) (_ : True) (hnew : f e.1 = none) :
      I (m.insert hash e.1 e.2) (Function.update f e.1 (some e.2)) (c + 1) :=
    (MapSp.Holds.insert hI hnew).1
  have h := Table.foldl_add hadd (fun _ _ => trivial) hkeys (Nat.zero_add _).le
    (MapSp.holds_new hash 0) fun _ _ => rfl
  simp only [Option.or_none, List.foldl_map, values_fields] at h
  exact h

/-- **The fields of a message.**  Once its fields are entered, a message finds each of them by
its number, and by its name if that is looked up at all. -/
theorem initMessage_spec (hash : String → BitVec 64) (m : PbcMessage) (hne : m.fields ≠ [])
    (hids : (m.fields.map Field.id).Nodup) :
    ∃ maps, initMessage (pushMessage hash m.fields) = some maps ∧
      (∀ id, ipQuery maps.id id = m.fieldOf id) ∧
      ∀ key, maps.name.query hash key = .undefined ∨
        maps.name.query hash key = .ok (m.fields.find? (·.name = key)) := by
  have hholds := holds_pushMessage hash m.distinct
  have hfind {κ : Type} [DecidableEq κ] {g : Field → κ} {fields : List Field}
      (hnodup : (fields.map g).Nodup) {k : κ} {f : Field} :
      fields.find? (g · = k) = some f ↔ f ∈ fields ∧ g f = k := by
    rw [← values_fields, Table.values_eq_some_iff (by rwa [List.map_map]), List.mem_map]
    simp only [Prod.mk.injEq]
    exact ⟨fun ⟨f', hf, hk, heq⟩ => heq ▸ ⟨hf, hk⟩, fun ⟨hf, hk⟩ => ⟨f, hf, hk, rfl⟩⟩
  obtain ⟨keys, hkeys, hmem, hforeach⟩ := hholds.foreach_eq
  -- the slots hold the fields, in some order
  have hperm : (pushMessage hash m.fields).foreach.Perm m.fields := by
    rw [hforeach, List.perm_ext_iff_of_nodup]
    · intro f
      rw [List.mem_filterMap]
      constructor
      · rintro ⟨key, -, hf⟩
        exact ((hfind m.distinct).1 hf).1
      · intro hf
        have hfound := (hfind m.distinct).2 ⟨hf, rfl⟩
        exact ⟨f.name, (hmem _).2 (by rw [hfound]; rfl), hfound⟩
    · refine hkeys.filterMap fun key key' f hf hf' => ?_
      rw [← ((hfind m.distinct).1 hf).2, ← ((hfind m.distinct).1 hf').2]
    · exact m.distinct.of_map
  have hids' : ((pushMessage hash m.fields).foreach.map Field.id).Nodup :=
    (hperm.map Field.id).nodup_iff.2 hids
  cases htable : (pushMessage hash m.fields).foreach.map fun f => (f.id, f) with
  | nil =>
    rw [List.map_eq_nil_iff] at htable
    rw [htable] at hperm
    exact absurd hperm.nil_eq.symm hne
  | cons first rest =>
    refine ⟨⟨ipNew first rest, pushMessage hash m.fields⟩, by simp only [initMessage, htable],
      fun id => ?_, fun key => ?_⟩
    · rw [ipQuery_ipNew (by rwa [← htable, List.map_map]), ← htable, values_fields]
      ext f
      rw [hfind hids', PbcMessage.fieldOf, hfind hids, hperm.mem_iff]
    · rw [hholds.query]
      split_ifs
      · exact .inl rfl
      · exact .inr rfl

/-- A message with two fields, whose names have one hash. -/
theorem initMessage_spec_collision :
    ∃ maps, initMessage (pushMessage (fun _ => 7)
        [⟨1, "host", .string, .required, "", ""⟩, ⟨-2, "port", .uint32, .required, "", ""⟩]) =
          some maps ∧
      (ipQuery maps.id (-2)).map Field.name = some "port" ∧ (ipQuery maps.id 3).isNone = true := by
  let m : PbcMessage :=
    ⟨[⟨1, "host", .string, .required, "", ""⟩, ⟨-2, "port", .uint32, .required, "", ""⟩], by decide⟩
  obtain ⟨maps, hmaps, hid, -⟩ :=
    initMessage_spec (fun _ => 7) m (List.cons_ne_nil _ _) (by simp only [m]; decide)
  exact ⟨maps, hmaps, by rw [hid]; rfl, by rw [hid]; rfl⟩

end SockTestProgram
