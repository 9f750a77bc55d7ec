import DeltaBox.Criu.Pagemap
import Mathlib.Tactic.Linarith

/-!
# Which images the reader accepts, and what it counts

The format is written down as a grammar, without a reader: how bytes spell a number, which messages
have which fields, which records follow each other, and which ranges a head may have behind it. The
reader accepts just the images of the grammar, and what it counts are sums over the ranges.

## Main definitions

* `Number`, `Message`, `Records` — the layers of the format
* `Describes` — a row says that there is this range, in either layout
* `Ordered` — the ranges are allowed, and each is behind the one before it
* `Image` — a whole image
* `totals` — what there is to count
* `Layout`, `image` — an image of given ranges, each in a chosen layout

## Main results

* `varint_iff`, `fields_iff`, `nextRecord_iff`, `range_iff` — one layer each
* `read_pagemap_exact` — the reader
-/

namespace DeltaBox

namespace Criu

open Varint

/-! ### The grammar -/

/-- The bytes spell a number of 64 bits, in at most ten bytes. -/
structure Number (bs : List UInt8) (v : ℕ) : Prop where
  spells : Spells bs v
  length : bs.length ≤ 10
  lt : v < 2 ^ 64

/-- A message with these fields, one after the other. All of them are varints, and no field has the
number zero. -/
inductive Message : List UInt8 → List (ℕ × ℕ) → Prop where
  | nil : Message [] []
  | cons {kb vb rest : List UInt8} {number v : ℕ} {fs : List (ℕ × ℕ)} (hkey : Number kb (8 * number))
    (hnumber : 0 < number) (hvalue : Number vb v) (hrest : Message rest fs) :
    Message (kb ++ (vb ++ rest)) ((number, v) :: fs)

/-- Records behind their lengths. No field of a record comes twice. -/
inductive Records : List UInt8 → List (Dict ℕ ℕ) → Prop where
  | nil : Records [] []
  | cons {payload rest : List UInt8} {row : Dict ℕ ℕ} {rows : List (Dict ℕ ℕ)}
    (hpos : 0 < payload.length) (hle : payload.length ≤ 1024) (hrow : Message payload row.entries)
    (hrest : Records rest rows) :
    Records (le32 payload.length ++ (payload ++ rest)) (row :: rows)

/-- A row says that there is this range. -/
structure Describes (row : Dict ℕ ℕ) (r : Range) : Prop where
  allowed : ∀ number ∈ row.keys, number ∈ [1, 2, 3, 4, 5]
  address : row.find? 1 = some r.address
  compat : ∃ c, row.find? 2 = some c ∧ c < 2 ^ 32 ∧ r.count = (row.find? 5).getD c
  inParent : ∃ p, (row.find? 3).getD 0 = p ∧ (p = 0 ∨ p = 1) ∧
    r.flags = (row.find? 4).getD (if p = 1 then peParent else pePresent)

/-- A range that may follow on what ends at `previousEnd`. -/
structure Range.Allowed (pageSize previousEnd : ℕ) (r : Range) : Prop where
  count : 0 < r.count
  aligned : pageSize ∣ r.address
  behind : previousEnd ≤ r.address
  within : r.address + r.count * pageSize ≤ 2 ^ 64 - 1
  /-- `PARENT` or `PRESENT`, and perhaps `LAZY`. -/
  flags : r.flags ∈ [peParent, peParent ||| peLazy, pePresent, pePresent ||| peLazy]

/-- Each range is behind the one before it. -/
def Ordered (pageSize : ℕ) : ℕ → List Range → Prop
  | _, [] => True
  | previousEnd, r :: rs =>
    r.Allowed pageSize previousEnd ∧ Ordered pageSize (r.address + r.count * pageSize) rs

/-- An image with this head and these ranges. -/
def Image (pageSize : ℕ) (bytes : List UInt8) (id : ℕ) (rs : List Range) : Prop :=
  ∃ (data : List UInt8) (head : Dict ℕ ℕ) (rows : List (Dict ℕ ℕ)),
    bytes = pagemapMagic ++ data ∧ Records data (head :: rows) ∧ head.entries = [(1, id)] ∧
      id < 2 ^ 32 ∧ List.Forall₂ Describes rows rs ∧ Ordered pageSize 0 rs

/-- The pages of the ranges that meet a condition. -/
def pages (rs : List Range) (p : Range → Bool) : ℕ := ((rs.filter p).map (·.count)).sum

/-- Does the range carry the flag? -/
def Range.has (flag : ℕ) (r : Range) : Bool := r.flags &&& flag ≠ 0

/-- What there is to count. -/
def totals (id : ℕ) (rs : List Range) : Stats where
  pagesId := id
  totalPages := (rs.map (·.count)).sum
  parentPages := pages rs (·.has peParent)
  presentPages := pages rs (·.has pePresent)
  lazyEligiblePages := pages rs (·.has peLazy)
  parentLazyPages := pages rs fun r => r.has peParent && r.has peLazy
  entries := rs.length

/-- A check that has passed. -/
theorem guard_iff {α : Type*} {c : Prop} [Decidable c] {e : String} {x : Except String α} {a : α} :
    (if c then .error e else x) = .ok a ↔ ¬ c ∧ x = .ok a := by
  split_ifs with h
  · simp [h]
  · simp [h]

/-! ### Numbers -/

theorem and_127 (n : ℕ) : n &&& 127 = n % 128 := Nat.and_two_pow_sub_one_eq_mod n 7

theorem and_128_eq_zero_iff {n : ℕ} (h : n < 256) : n &&& 128 = 0 ↔ n < 128 := by
  have hall : ∀ i : Fin 256, (i.val &&& 128 = 0 ↔ i.val < 128) := by decide +kernel
  exact hall ⟨n, h⟩

/-- The bits of a byte are put on top of what there is. -/
theorem or_shift {result shift b : ℕ} (h : result < 2 ^ shift) :
    result ||| (b &&& 127) <<< shift = result + 2 ^ shift * (b % 128) := by
  rw [and_127, Nat.or_comm, ← Nat.shiftLeft_add_eq_or_of_lt h, Nat.shiftLeft_eq]
  ring

/-- **The loop of a varint.** It has read `k` bytes, and `result` is what they spell. -/
theorem varintLoop_iff {n k result v : ℕ} {data rest : List UInt8} (hk : n + k = 10)
    (hresult : result < 2 ^ (7 * k)) :
    varintLoop n (7 * k) result data = .ok (v, rest) ↔
      ∃ bs w, data = bs ++ rest ∧ Spells bs w ∧ bs.length ≤ n ∧ v = result + 2 ^ (7 * k) * w ∧
        v < 2 ^ 64 := by
  induction n generalizing k result data with
  | zero =>
    rw [varintLoop]
    constructor
    · intro h
      cases h
    · rintro ⟨bs, w, -, hspells, hlen, -, -⟩
      exact absurd (List.length_eq_zero_iff.mp (Nat.le_zero.mp hlen)) hspells.ne_nil
  | succ n ih =>
    cases data with
    | nil =>
      rw [varintLoop]
      constructor
      · intro h
        cases h
      · rintro ⟨bs, w, hdata, hspells, -⟩
        exact absurd (List.append_eq_nil_iff.mp hdata.symm).1 hspells.ne_nil
    | cons b data =>
      have hb : b.toNat < 256 := b.toNat_lt
      have hpow : 2 ^ (7 * (k + 1)) = 2 ^ (7 * k) * 128 := by
        rw [Nat.mul_add, pow_add]
        norm_num
      rw [varintLoop, or_shift hresult]
      dsimp only
      by_cases hlast : b.toNat < 128
      · -- the byte is the last one
        have hzero := (and_128_eq_zero_iff hb).mpr hlast
        rw [Nat.mod_eq_of_lt hlast, if_pos hzero]
        have hfits : ¬ (7 * k = 63 ∧ 1 < b.toNat) ↔ result + 2 ^ (7 * k) * b.toNat < 2 ^ 64 := by
          by_cases h63 : 7 * k = 63
          · rw [h63] at hresult ⊢
            constructor
            · intro h
              have : b.toNat ≤ 1 := by omega
              have := Nat.mul_le_mul_left (2 ^ 63) this
              omega
            · rintro h ⟨-, h1⟩
              have := Nat.mul_le_mul_left (2 ^ 63) h1
              omega
          · have hk' : 7 * k + 7 ≤ 63 := by omega
            have hle : 2 ^ (7 * k) * 128 ≤ 2 ^ 63 := by
              calc 2 ^ (7 * k) * 128 = 2 ^ (7 * k + 7) := (pow_add 2 (7 * k) 7).symm
                _ ≤ 2 ^ 63 := Nat.pow_le_pow_right (by decide) hk'
            have hmul : 2 ^ (7 * k) * b.toNat ≤ 2 ^ (7 * k) * 127 :=
              Nat.mul_le_mul_left _ (by omega)
            constructor
            · intro _
              omega
            · intro _ h
              exact h63 h.1
        constructor
        · intro h
          split_ifs at h with hbad
          obtain ⟨rfl, rfl⟩ := Prod.mk.inj (Except.ok.inj h)
          exact ⟨[b], b.toNat, rfl, .last hlast, by simp, rfl, hfits.mp hbad⟩
        · rintro ⟨bs, w, hdata, hspells, -, rfl, hv⟩
          cases hspells with
          | last h =>
            obtain ⟨rfl, rfl⟩ := List.cons.inj hdata
            rw [if_neg (hfits.mpr hv)]
          | more h _ =>
            obtain ⟨rfl, -⟩ := List.cons.inj hdata
            omega
      · -- more bytes follow
        have hzero : ¬ b.toNat &&& 128 = 0 := fun h => hlast ((and_128_eq_zero_iff hb).mp h)
        have hmod : b.toNat % 128 < 128 := Nat.mod_lt _ (by decide)
        have hnext : result + 2 ^ (7 * k) * (b.toNat % 128) < 2 ^ (7 * (k + 1)) := by
          have := Nat.mul_le_mul_left (2 ^ (7 * k)) (show b.toNat % 128 ≤ 127 by omega)
          omega
        rw [if_neg hzero, show 7 * k + 7 = 7 * (k + 1) from rfl]
        have hsum : ∀ w, result + 2 ^ (7 * k) * (b.toNat % 128) + 2 ^ (7 * (k + 1)) * w =
            result + 2 ^ (7 * k) * (b.toNat % 128 + 128 * w) := by
          intro w
          rw [hpow]
          ring
        constructor
        · intro h
          split_ifs at h with hbad
          obtain ⟨bs, w, rfl, hspells, hlen, rfl, hv⟩ := (ih (by omega) hnext).mp h
          refine ⟨b :: bs, _, rfl, .more (by omega) hspells, by simpa using hlen, hsum w, hv⟩
        · rintro ⟨bs, w, hdata, hspells, hlen, rfl, hv⟩
          cases hspells with
          | last h =>
            obtain ⟨rfl, -⟩ := List.cons.inj hdata
            exact absurd h hlast
          | @more _ bs w h hs =>
            obtain ⟨rfl, rfl⟩ := List.cons.inj hdata
            have hlen' : bs.length ≤ n := by simpa using hlen
            have hbad : ¬ (7 * k = 63 ∧ 1 < b.toNat) := by
              rintro ⟨h63, -⟩
              have hn : n = 0 := by omega
              exact hs.ne_nil (List.length_eq_zero_iff.mp (by omega))
            rw [if_neg hbad]
            exact (ih (by omega) hnext).mpr ⟨bs, w, rfl, hs, hlen', (hsum w).symm, hv⟩

/-- **A varint.** -/
theorem varint_iff {data rest : List UInt8} {v : ℕ} :
    varint data = .ok (v, rest) ↔ ∃ bs, data = bs ++ rest ∧ Number bs v := by
  rw [varint, show (0 : ℕ) = 7 * 0 from rfl, varintLoop_iff (k := 0) rfl (by decide)]
  constructor
  · rintro ⟨bs, w, hdata, hspells, hlen, hv, hlt⟩
    have hvw : v = w := by simpa using hv
    exact ⟨bs, hdata, hvw ▸ hspells, hlen, hlt⟩
  · rintro ⟨bs, hdata, hspells, hlen, hlt⟩
    exact ⟨bs, v, hdata, hspells, hlen, by simp, hlt⟩

/-! ### Messages -/

theorem Number.ne_nil {bs : List UInt8} {v : ℕ} (h : Number bs v) : bs ≠ [] := h.spells.ne_nil

/-- The key of a varint is eight times its number. -/
theorem key_iff {key number : ℕ} : (key >>> 3 = number ∧ key &&& 7 = 0) ↔ key = 8 * number := by
  rw [Nat.shiftRight_eq_div_pow, show (7 : ℕ) = 2 ^ 3 - 1 from rfl, Nat.and_two_pow_sub_one_eq_mod]
  omega

theorem message_nil {fs : List (ℕ × ℕ)} : Message [] fs ↔ fs = [] := by
  constructor
  · intro h
    generalize hdata : ([] : List UInt8) = data at h
    cases h with
    | nil => rfl
    | cons hkey => exact absurd (List.append_eq_nil_iff.mp hdata.symm).1 hkey.ne_nil
  · rintro rfl
    exact .nil

/-- **The loop of a message.** -/
theorem fieldsLoop_iff {fuel : ℕ} {acc d : Dict ℕ ℕ} {data : List UInt8}
    (hfuel : data.length ≤ fuel) :
    fieldsLoop fuel acc data = .ok d ↔ ∃ fs, Message data fs ∧ d.entries = acc.entries ++ fs := by
  induction fuel generalizing acc data with
  | zero =>
    obtain rfl := List.length_eq_zero_iff.mp (Nat.le_zero.mp hfuel)
    rw [fieldsLoop]
    constructor
    · intro h
      exact ⟨[], .nil, by rw [← Except.ok.inj h, List.append_nil]⟩
    · rintro ⟨fs, hmessage, hd⟩
      rw [message_nil.mp hmessage, List.append_nil] at hd
      rw [Dict.ext hd]
  | succ fuel ih =>
    cases data with
    | nil =>
      rw [fieldsLoop]
      constructor
      · intro h
        exact ⟨[], .nil, by rw [← Except.ok.inj h, List.append_nil]⟩
      · rintro ⟨fs, hmessage, hd⟩
        rw [message_nil.mp hmessage, List.append_nil] at hd
        rw [Dict.ext hd]
    | cons b data =>
      rw [fieldsLoop]
      · constructor
        · intro h
          cases hkey : varint (b :: data) with
          | error e =>
            rw [hkey] at h
            cases h
          | ok found =>
            obtain ⟨key, data₁⟩ := found
            rw [hkey] at h
            obtain ⟨kb, hdata, hkb⟩ := varint_iff.mp hkey
            dsimp only at h
            split_ifs at h with hbad
            push Not at hbad
            obtain ⟨hnumber, hwire, hnew⟩ := hbad
            cases hvalue : varint data₁ with
            | error e =>
              rw [hvalue] at h
              cases h
            | ok found =>
              obtain ⟨value, data₂⟩ := found
              rw [hvalue] at h
              obtain ⟨vb, rfl, hvb⟩ := varint_iff.mp hvalue
              have hlen : data₂.length ≤ fuel := by
                have hlen := congrArg List.length hdata
                have := List.length_pos_iff.mpr hkb.ne_nil
                simp only [List.length_cons, List.length_append] at hlen hfuel
                omega
              obtain ⟨fs, hrest, hd⟩ := (ih hlen).mp h
              rw [Dict.entries_set_of_none _ (Dict.find?_eq_none_iff.mpr hnew), List.append_assoc]
                at hd
              rw [key_iff.mp ⟨rfl, hwire⟩] at hkb
              exact ⟨_, hdata ▸ .cons hkb (Nat.pos_of_ne_zero hnumber) hvb hrest, hd⟩
        · rintro ⟨fs, hmessage, hd⟩
          generalize hdata : b :: data = bytes at hmessage
          cases hmessage with
          | nil => cases hdata
          | @cons kb vb rest number v fs hkey hnumber hvalue hrest =>
            rw [varint_iff.mpr ⟨kb, rfl, hkey⟩]
            obtain ⟨hshift, hwire⟩ := key_iff.mpr (rfl : 8 * number = 8 * number)
            have hnew : number ∉ acc.keys := by
              intro hin
              have hnd := d.nodup
              rw [hd, List.map_append, List.map_cons] at hnd
              exact List.disjoint_of_nodup_append hnd hin List.mem_cons_self
            have hgood : ¬ (number = 0 ∨ (8 * number) &&& 7 ≠ 0 ∨ number ∈ acc.keys) := by
              push Not
              exact ⟨hnumber.ne', hwire, hnew⟩
            dsimp only
            rw [hshift, if_neg hgood, varint_iff.mpr ⟨vb, rfl, hvalue⟩]
            have hlen : rest.length ≤ fuel := by
              have hlen := congrArg List.length hdata
              have := List.length_pos_iff.mpr hkey.ne_nil
              simp only [List.length_cons, List.length_append] at hlen hfuel
              omega
            refine (ih hlen).mpr ⟨fs, hrest, ?_⟩
            rw [Dict.entries_set_of_none _ (Dict.find?_eq_none_iff.mpr hnew), List.append_assoc]
            exact hd
      · simp

/-- **A message.** -/
theorem fields_iff {d : Dict ℕ ℕ} {data : List UInt8} :
    fields data = .ok d ↔ Message data d.entries := by
  rw [fields, fieldsLoop_iff le_rfl]
  constructor
  · rintro ⟨fs, hmessage, hd⟩
    rw [hd]
    exact hmessage
  · intro h
    exact ⟨_, h, rfl⟩

/-! ### Records -/

/-- There is no further record just at the end. -/
theorem nextRecord_none_iff {data : List UInt8} : nextRecord data = .ok none ↔ data = [] := by
  constructor
  · intro h
    unfold nextRecord at h
    dsimp only at h
    by_cases hraw : data.take 4 = []
    · simpa using hraw
    · rw [if_neg hraw] at h
      split_ifs at h
      split at h <;> cases h
  · rintro rfl
    rfl

/-- **A record.** -/
theorem nextRecord_iff {data rest : List UInt8} {row : Dict ℕ ℕ} :
    nextRecord data = .ok (some (row, rest)) ↔ ∃ payload,
      data = le32 payload.length ++ (payload ++ rest) ∧ 0 < payload.length ∧
        payload.length ≤ 1024 ∧ Message payload row.entries := by
  constructor
  · intro h
    unfold nextRecord at h
    dsimp only at h
    by_cases hraw : data.take 4 = []
    · rw [if_pos hraw] at h
      cases h
    rw [if_neg hraw] at h
    split_ifs at h with hlen hsize hpayload
    cases hrow : fields ((data.drop 4).take (ofLe (data.take 4))) with
    | error e =>
      rw [hrow] at h
      cases h
    | ok d =>
      rw [hrow] at h
      obtain ⟨rfl, rfl⟩ := Prod.mk.inj (Option.some.inj (Except.ok.inj h))
      have hlen4 : (data.take 4).length = 4 := not_not.mp hlen
      have hpay : ((data.drop 4).take (ofLe (data.take 4))).length = ofLe (data.take 4) :=
        not_not.mp hpayload
      refine ⟨_, ?_, by omega, by rw [hpay]; exact hsize.2, fields_iff.mp hrow⟩
      rw [hpay, le32_ofLe hlen4, List.take_append_drop, List.take_append_drop]
  · rintro ⟨payload, rfl, hpos, hle, hmessage⟩
    have htake : (le32 payload.length ++ (payload ++ rest)).take 4 = le32 payload.length :=
      List.take_left' (length_le32 _)
    have hdrop : (le32 payload.length ++ (payload ++ rest)).drop 4 = payload ++ rest :=
      List.drop_left' (length_le32 _)
    have hof : ofLe (le32 payload.length) = payload.length := ofLe_le32 (by omega)
    have hraw : le32 payload.length ≠ [] := List.cons_ne_nil _ _
    have hsize : ¬ ¬ (0 < payload.length ∧ payload.length ≤ maxRecordBytes) :=
      not_not.mpr ⟨hpos, hle⟩
    unfold nextRecord
    dsimp only
    rw [htake, hdrop, hof, if_neg hraw, if_neg (not_not.mpr (length_le32 _)), if_neg hsize,
      List.take_left' rfl, if_neg (not_not.mpr rfl), fields_iff.mpr hmessage, List.drop_left' rfl]

/-! ### Ranges -/

/-- The flags that are allowed. -/
theorem flags_iff {flags : ℕ} :
    ¬ (flags ≠ flags &&& (peParent ||| peLazy ||| pePresent) ∨
        flags &&& (peParent ||| pePresent) = 0 ∨
        flags &&& peParent ≠ 0 ∧ flags &&& pePresent ≠ 0) ↔
      flags ∈ [peParent, peParent ||| peLazy, pePresent, pePresent ||| peLazy] := by
  by_cases h : flags < 8
  · have hall : ∀ f : Fin 8, (¬ (f.val ≠ f.val &&& (peParent ||| peLazy ||| pePresent) ∨
        f.val &&& (peParent ||| pePresent) = 0 ∨
        f.val &&& peParent ≠ 0 ∧ f.val &&& pePresent ≠ 0) ↔
        f.val ∈ [peParent, peParent ||| peLazy, pePresent, pePresent ||| peLazy]) := by
      decide +kernel
    exact hall ⟨flags, h⟩
  · have hmask : flags &&& (peParent ||| peLazy ||| pePresent) ≤ 7 := Nat.and_le_right
    constructor
    · intro hno
      exact absurd (.inl (by omega)) hno
    · intro hin
      have hall : ∀ f ∈ [peParent, peParent ||| peLazy, pePresent, pePresent ||| peLazy], f < 8 := by
        decide
      exact absurd (hall flags hin) h

theorem uint64Max_eq : uint64Max = 2 ^ 64 - 1 := rfl

/-- The bounds of a range, as the code has them. -/
theorem allowed_iff {pageSize previousEnd : ℕ} (hps : 0 < pageSize) {r : Range} :
    r.Allowed pageSize previousEnd ↔
      ¬ (r.count = 0 ∨ uint64Max / pageSize < r.count ∨ r.address % pageSize ≠ 0 ∨
          r.address < previousEnd ∨ uint64Max < r.address + r.count * pageSize) ∧
        r.flags ∈ [peParent, peParent ||| peLazy, pePresent, pePresent ||| peLazy] := by
  constructor
  · rintro ⟨hcount, haligned, hbehind, hwithin, hflags⟩
    refine ⟨?_, hflags⟩
    push Not
    refine ⟨hcount.ne', ?_, Nat.mod_eq_zero_of_dvd haligned, hbehind, hwithin⟩
    rw [Nat.le_div_iff_mul_le hps, uint64Max_eq]
    omega
  · rintro ⟨hbad, hflags⟩
    push Not at hbad
    obtain ⟨hcount, -, haligned, hbehind, hwithin⟩ := hbad
    exact ⟨Nat.pos_of_ne_zero hcount, Nat.dvd_of_mod_eq_zero haligned, hbehind, hwithin, hflags⟩

/-- **A row.** -/
theorem range_iff {pageSize previousEnd : ℕ} (hps : 0 < pageSize) {row : Dict ℕ ℕ} {r : Range} :
    range pageSize previousEnd row = .ok r ↔ Describes row r ∧ r.Allowed pageSize previousEnd := by
  have hkeys : ((row.keys.any fun number => decide (number ∉ [1, 2, 3, 4, 5])) = true) ↔
      ¬ ∀ number ∈ row.keys, number ∈ [1, 2, 3, 4, 5] := by
    rw [List.any_eq_true]
    push Not
    simp only [decide_eq_true_eq]
  have hcompat : ∀ c p : ℕ, ¬ ((1 <<< 32) - 1 < c ∨ p ∉ [0, 1]) ↔ c < 2 ^ 32 ∧ (p = 0 ∨ p = 1) := by
    intro c p
    rw [show (1 <<< 32) - 1 = 2 ^ 32 - 1 from rfl]
    simp only [List.mem_cons, List.not_mem_nil, or_false]
    omega
  have hflag : ∀ p : ℕ, (p = 0 ∨ p = 1) →
      (if p ≠ 0 then peParent else pePresent) = if p = 1 then peParent else pePresent := by
    rintro p (rfl | rfl)
    · rfl
    · rfl
  constructor
  · intro h
    unfold range at h
    cases haddr : row.find? 1 with
    | none =>
      rw [haddr] at h
      cases h
    | some address =>
      cases hc : row.find? 2 with
      | none =>
        rw [haddr, hc] at h
        cases h
      | some compat =>
        rw [haddr, hc] at h
        dsimp only at h
        rw [guard_iff, guard_iff, guard_iff, guard_iff] at h
        obtain ⟨hany, hcomp, hbounds, hflags, h⟩ := h
        obtain rfl := Except.ok.inj h
        obtain ⟨hlt, hp⟩ := (hcompat _ _).mp hcomp
        rw [hflag _ hp] at hflags ⊢
        exact ⟨⟨not_not.mp fun hno => hany (hkeys.mpr hno), haddr, ⟨compat, hc, hlt, rfl⟩,
          ⟨_, rfl, hp, rfl⟩⟩, (allowed_iff hps).mpr ⟨hbounds, flags_iff.mp hflags⟩⟩
  · rintro ⟨⟨hnumbers, haddr, ⟨compat, hc, hlt, hcount⟩, ⟨p, hp, h01, hflags⟩⟩, hallowed⟩
    obtain ⟨hbounds, hmem⟩ := (allowed_iff hps).mp hallowed
    obtain ⟨address, count, flags⟩ := r
    dsimp only at haddr hcount hflags hbounds hmem
    unfold range
    rw [haddr, hc]
    dsimp only
    rw [if_neg fun hany => hkeys.mp hany hnumbers, hp, if_neg ((hcompat _ _).mpr ⟨hlt, h01⟩),
      hflag p h01, ← hcount, ← hflags, if_neg hbounds, if_neg (flags_iff.mpr hmem)]

/-! ### The rows -/

/-- **The loop.** -/
theorem rowsLoop_iff {pageSize : ℕ} (hps : 0 < pageSize) {fuel previousEnd : ℕ} {st st' : Stats}
    {data : List UInt8} (hfuel : data.length < fuel) :
    rowsLoop pageSize fuel previousEnd st data = .ok st' ↔ ∃ rows rs, Records data rows ∧
      List.Forall₂ Describes rows rs ∧ Ordered pageSize previousEnd rs ∧
      st' = rs.foldl Stats.add st := by
  induction fuel generalizing previousEnd st data with
  | zero => omega
  | succ fuel ih =>
    rw [rowsLoop]
    constructor
    · intro h
      cases hnext : nextRecord data with
      | error e =>
        rw [hnext] at h
        cases h
      | ok found =>
        rw [hnext] at h
        cases found with
        | none =>
          obtain rfl := nextRecord_none_iff.mp hnext
          exact ⟨[], [], .nil, .nil, trivial, (Except.ok.inj h).symm⟩
        | some found =>
          obtain ⟨row, rest⟩ := found
          obtain ⟨payload, rfl, hpos, hle, hmessage⟩ := nextRecord_iff.mp hnext
          dsimp only at h
          cases hrange : range pageSize previousEnd row with
          | error e =>
            rw [hrange] at h
            cases h
          | ok r =>
            rw [hrange] at h
            obtain ⟨hdesc, hallowed⟩ := (range_iff hps).mp hrange
            have hlen : rest.length < fuel := by
              simp only [List.length_append, length_le32] at hfuel
              omega
            obtain ⟨rows, rs, hrows, hall, hord, rfl⟩ := (ih hlen).mp h
            exact ⟨row :: rows, r :: rs, .cons hpos hle hmessage hrows, .cons hdesc hall,
              ⟨hallowed, hord⟩, rfl⟩
    · rintro ⟨rows, rs, hrows, hall, hord, rfl⟩
      cases hrows with
      | nil =>
        cases hall
        rw [nextRecord_none_iff.mpr rfl]
        rfl
      | @cons payload rest row rows hpos hle hmessage hrest =>
        rw [nextRecord_iff.mpr ⟨payload, rfl, hpos, hle, hmessage⟩]
        cases hall with
        | @cons _ r _ rs hdesc hall =>
          obtain ⟨hallowed, hord⟩ := hord
          have hlen : rest.length < fuel := by
            simp only [List.length_append, length_le32] at hfuel
            omega
          dsimp only
          rw [(range_iff hps).mpr ⟨hdesc, hallowed⟩]
          exact (ih hlen).mpr ⟨rows, rs, hrest, hall, hord, rfl⟩

/-- **The counts are sums.** -/
theorem foldl_add (rs : List Range) (st : Stats) :
    rs.foldl Stats.add st =
      { pagesId := st.pagesId
        totalPages := st.totalPages + (totals st.pagesId rs).totalPages
        parentPages := st.parentPages + (totals st.pagesId rs).parentPages
        presentPages := st.presentPages + (totals st.pagesId rs).presentPages
        lazyEligiblePages := st.lazyEligiblePages + (totals st.pagesId rs).lazyEligiblePages
        parentLazyPages := st.parentLazyPages + (totals st.pagesId rs).parentLazyPages
        entries := st.entries + (totals st.pagesId rs).entries } := by
  induction rs generalizing st with
  | nil => rfl
  | cons r rs ih =>
    have hpages : ∀ p : Range → Bool, pages (r :: rs) p = (if p r then r.count else 0) + pages rs p := by
      intro p
      rw [pages, List.filter_cons]
      split_ifs
      · rfl
      · simp [pages]
    rw [List.foldl_cons, ih]
    simp only [Stats.add, totals, hpages, List.map_cons, List.sum_cons, List.length_cons, Range.has,
      Bool.and_eq_true, decide_eq_true_eq, Nat.add_assoc, Nat.add_comm 1]

/-- A range is in the parent or it is present, and not both. -/
theorem totalPages_eq {pageSize previousEnd : ℕ} {rs : List Range}
    (h : Ordered pageSize previousEnd rs) (id : ℕ) :
    (totals id rs).totalPages = (totals id rs).parentPages + (totals id rs).presentPages := by
  induction rs generalizing previousEnd with
  | nil => rfl
  | cons r rs ih =>
    have hone : (r.has peParent = true ∧ r.has pePresent = false) ∨
        (r.has peParent = false ∧ r.has pePresent = true) := by
      have hall : ∀ f ∈ [peParent, peParent ||| peLazy, pePresent, pePresent ||| peLazy],
          (f &&& peParent ≠ 0 ∧ f &&& pePresent = 0) ∨
            (f &&& peParent = 0 ∧ f &&& pePresent ≠ 0) := by decide
      simpa [Range.has] using hall r.flags h.1.flags
    have hrest := ih h.2
    simp only [totals, pages] at hrest ⊢
    rcases hone with ⟨h₁, h₂⟩ | ⟨h₁, h₂⟩
    · simp only [List.filter_cons, h₁, h₂, if_true, List.map_cons, List.sum_cons, hrest,
        Bool.false_eq_true, if_false]
      ring
    · simp only [List.filter_cons, h₁, h₂, if_true, List.map_cons, List.sum_cons, hrest,
        Bool.false_eq_true, if_false]
      ring

/-! ### The reader -/

/-- **The reader on images.** -/
theorem readPagemapStats_iff {pageSize : ℕ} (hps : 0 < pageSize)
    (hpow : pageSize &&& (pageSize - 1) = 0) {bytes : List UInt8} {st : Stats} :
    readPagemapStats pageSize bytes = .ok st ↔
      ∃ id rs, Image pageSize bytes id rs ∧ st = totals id rs := by
  have htotals : ∀ id rs, rs.foldl Stats.add ⟨id, 0, 0, 0, 0, 0, 0⟩ = totals id rs := by
    intro id rs
    rw [foldl_add]
    simp [totals]
  have hbad : ¬ (pageSize = 0 ∨ pageSize &&& (pageSize - 1) ≠ 0) := by
    push Not
    exact ⟨hps.ne', hpow⟩
  unfold readPagemapStats
  rw [if_neg hbad]
  constructor
  · intro h
    by_cases hmagic : bytes.take 8 ≠ pagemapMagic
    · rw [if_pos hmagic] at h
      cases h
    rw [if_neg hmagic] at h
    cases hnext : nextRecord (bytes.drop 8) with
    | error e =>
      rw [hnext] at h
      cases h
    | ok found =>
      rw [hnext] at h
      cases found with
      | none => cases h
      | some found =>
        obtain ⟨head, data⟩ := found
        dsimp only at h
        cases hid : head.find? 1 with
        | none =>
          rw [hid] at h
          cases h
        | some id =>
          rw [hid] at h
          dsimp only at h
          obtain ⟨hhead, h⟩ := guard_iff.mp h
          push Not at hhead
          obtain ⟨hkeys, hlt⟩ := hhead
          obtain ⟨rows, rs, hrows, hall, hord, rfl⟩ := (rowsLoop_iff hps (Nat.lt_succ_self _)).mp h
          obtain ⟨payload, hdata, hpos, hle, hmessage⟩ := nextRecord_iff.mp hnext
          refine ⟨id, rs, ⟨bytes.drop 8, head, rows, ?_, ?_, ?_, ?_, hall, hord⟩, htotals id rs⟩
          · rw [← not_not.mp hmagic, List.take_append_drop]
          · rw [hdata]
            exact .cons hpos hle hmessage hrows
          · exact Dict.entries_eq_singleton hid (by simpa using hkeys)
          · rw [show (1 <<< 32) - 1 = 2 ^ 32 - 1 from rfl] at hlt
            omega
  · rintro ⟨id, rs, ⟨data, head, rows, rfl, hrecords, hhead, hlt, hall, hord⟩, rfl⟩
    have htake : (pagemapMagic ++ data).take 8 = pagemapMagic := List.take_left' rfl
    have hdrop : (pagemapMagic ++ data).drop 8 = data := List.drop_left' rfl
    rw [htake, if_neg (not_not.mpr rfl), hdrop]
    cases hrecords with
    | @cons payload rest _ _ hpos hle hmessage hrest =>
      rw [nextRecord_iff.mpr ⟨payload, rfl, hpos, hle, hmessage⟩]
      have hid : head.find? 1 = some id := by
        rw [Dict.find?_eq_some_iff, hhead]
        exact List.mem_singleton_self _
      have hgood : ¬ ((head.keys.any fun k => decide (k ≠ 1)) = true ∨ (1 <<< 32) - 1 < id) := by
        rw [Dict.keys, hhead, show (1 <<< 32) - 1 = 2 ^ 32 - 1 from rfl]
        simp
        omega
      dsimp only
      rw [hid]
      dsimp only
      rw [if_neg hgood]
      exact (rowsLoop_iff hps (Nat.lt_succ_self _)).mpr
        ⟨rows, rs, hrest, hall, hord, (htotals id rs).symm⟩

/-! ### Layouts -/

/-- How a range is written. -/
inductive Layout where
  /-- The count in field 2, and whether the pages are in the parent in field 3. -/
  | legacy
  /-- The count in field 5, and the flags in field 4. -/
  | current

/-- The fields of a range. -/
def Layout.fields (r : Range) : Layout → List (ℕ × ℕ)
  | .legacy => [(1, r.address), (2, r.count), (3, if r.flags = peParent then 1 else 0)]
  | .current => [(1, r.address), (2, 0), (4, r.flags), (5, r.count)]

/-- The shortest message with some fields. -/
def message : List (ℕ × ℕ) → List UInt8
  | [] => []
  | (number, v) :: fs => encode (8 * number) ++ (encode v ++ message fs)

/-- A message behind its length. -/
def record (fs : List (ℕ × ℕ)) : List UInt8 := le32 (message fs).length ++ message fs

/-- An image. -/
def image (id : ℕ) (rs : List (Range × Layout)) : List UInt8 :=
  pagemapMagic ++ (record [(1, id)] ++ rs.flatMap fun x => record (x.2.fields x.1))

theorem number_encode {v : ℕ} (h : v < 2 ^ 64) : Number (encode v) v :=
  ⟨spells_encode h, length_encode_le v, h⟩

theorem message_spec {fs : List (ℕ × ℕ)} (h : ∀ f ∈ fs, 0 < f.1 ∧ f.1 ≤ 5 ∧ f.2 < 2 ^ 64) :
    Message (message fs) fs ∧ (message fs).length ≤ 20 * fs.length ∧
      (fs ≠ [] → 0 < (message fs).length) := by
  induction fs with
  | nil => exact ⟨.nil, le_rfl, fun hne => absurd rfl hne⟩
  | cons f fs ih =>
    obtain ⟨number, v⟩ := f
    obtain ⟨hpos, hle, hv⟩ := h _ List.mem_cons_self
    obtain ⟨hrest, hlen, -⟩ := ih fun f hf => h f (List.mem_cons_of_mem _ hf)
    have hkey : Number (encode (8 * number)) (8 * number) := number_encode (by dsimp only at hle; omega)
    have hvalue : Number (encode v) v := number_encode hv
    have hne := List.length_pos_iff.mpr hkey.ne_nil
    refine ⟨.cons hkey hpos hvalue hrest, ?_, fun _ => ?_⟩
    · have := hkey.length
      have := hvalue.length
      simp only [message, List.length_append, List.length_cons]
      omega
    · simp only [message, List.length_append]
      omega

/-- A range that both layouts can write. -/
structure Range.Plain (r : Range) : Prop where
  address : r.address < 2 ^ 64
  count : r.count < 2 ^ 32
  flags : r.flags = peParent ∨ r.flags = pePresent

theorem layout_spec {r : Range} (h : r.Plain) (l : Layout) :
    ∃ row : Dict ℕ ℕ, row.entries = l.fields r ∧ Describes row r ∧
      Message (message (l.fields r)) row.entries ∧ 0 < (message (l.fields r)).length ∧
      (message (l.fields r)).length ≤ 1024 := by
  have hcount := h.count
  have haddr := h.address
  have hflags : r.flags < 2 ^ 64 := by
    rcases h.flags with heq | heq
    · rw [heq]
      decide
    · rw [heq]
      decide
  have hnd : ((l.fields r).map Prod.fst).Nodup := by
    cases l with
    | legacy => simp [Layout.fields]
    | current => simp [Layout.fields]
  have hsmall : ∀ f ∈ l.fields r, 0 < f.1 ∧ f.1 ≤ 5 ∧ f.2 < 2 ^ 64 := by
    cases l with
    | legacy =>
      simp only [Layout.fields, List.forall_mem_cons]
      refine ⟨⟨by decide, by decide, haddr⟩, ⟨by decide, by decide, by omega⟩,
        ⟨by decide, by decide, ?_⟩, by simp⟩
      split_ifs <;> decide
    | current =>
      simp only [Layout.fields, List.forall_mem_cons]
      exact ⟨⟨by decide, by decide, haddr⟩, ⟨by decide, by decide, by decide⟩,
        ⟨by decide, by decide, hflags⟩, ⟨by decide, by decide, by omega⟩, by simp⟩
  obtain ⟨hmessage, hlen, hpos⟩ := message_spec hsmall
  refine ⟨⟨l.fields r, hnd⟩, rfl, ?_, hmessage, hpos ?_, ?_⟩
  · cases l with
    | legacy =>
      have hin : ∃ p, (if r.flags = peParent then 1 else 0) = p ∧ (p = 0 ∨ p = 1) ∧
          r.flags = if p = 1 then peParent else pePresent := by
        rcases h.flags with heq | heq
        · exact ⟨1, by rw [heq, if_pos rfl], .inr rfl, heq⟩
        · exact ⟨0, by rw [heq, if_neg (by decide)], .inl rfl, heq⟩
      exact ⟨by simp [Dict.keys, Layout.fields], rfl, ⟨r.count, rfl, hcount, rfl⟩, hin⟩
    | current =>
      exact ⟨by simp [Dict.keys, Layout.fields], rfl, ⟨0, rfl, by decide, rfl⟩,
        ⟨0, rfl, .inl rfl, rfl⟩⟩
  · cases l with
    | legacy => simp [Layout.fields]
    | current => simp [Layout.fields]
  · have hfields : (l.fields r).length ≤ 4 := by
      cases l with
      | legacy => simp [Layout.fields]
      | current => simp [Layout.fields]
    omega

/-- The image has its ranges, however each of them is written. -/
theorem image_spec {pageSize id : ℕ} {rs : List (Range × Layout)} (hid : id < 2 ^ 32)
    (hplain : ∀ x ∈ rs, x.1.Plain) (hord : Ordered pageSize 0 (rs.map Prod.fst)) :
    Image pageSize (image id rs) id (rs.map Prod.fst) := by
  have hrows : ∀ xs : List (Range × Layout), (∀ x ∈ xs, x.1.Plain) →
      ∃ rows, Records (xs.flatMap fun x => record (x.2.fields x.1)) rows ∧
        List.Forall₂ Describes rows (xs.map Prod.fst) := by
    intro xs
    induction xs with
    | nil => exact fun _ => ⟨[], .nil, .nil⟩
    | cons x xs ih =>
      intro hxs
      obtain ⟨rows, hrows, hall⟩ := ih fun y hy => hxs y (List.mem_cons_of_mem _ hy)
      obtain ⟨row, hrow, hdesc, hmessage, hpos, hle⟩ := layout_spec (hxs x List.mem_cons_self) x.2
      refine ⟨row :: rows, ?_, .cons hdesc hall⟩
      rw [List.flatMap_cons, record, List.append_assoc]
      exact .cons hpos hle hmessage hrows
  obtain ⟨rows, hrecords, hall⟩ := hrows rs hplain
  have hfields : ∀ f ∈ [(1, id)], 0 < f.1 ∧ f.1 ≤ 5 ∧ f.2 < 2 ^ 64 := by
    simp only [List.mem_singleton, forall_eq]
    exact ⟨by decide, by decide, by omega⟩
  obtain ⟨hmessage, hlen, hpos⟩ := message_spec hfields
  refine ⟨_, ⟨[(1, id)], List.nodup_singleton 1⟩, rows, rfl, ?_, rfl, hid, hall, hord⟩
  rw [record, List.append_assoc]
  exact .cons (hpos (by simp)) (hlen.trans (show 20 ≤ 1024 by decide)) hmessage hrecords

/-- **The reader accepts just the images, and counts them exactly.** For a page size that is a power
of two, it succeeds on the bytes of an image and on no others, with the sums over the ranges; and the
layout in which a range is written makes no difference. -/
theorem read_pagemap_exact {pageSize : ℕ} (hps : ∃ k, pageSize = 2 ^ k) :
    (∀ bytes st, readPagemapStats pageSize bytes = .ok st ↔
      ∃ id rs, Image pageSize bytes id rs ∧ st = totals id rs) ∧
    (∀ bytes st, readPagemapStats pageSize bytes = .ok st →
      st.totalPages = st.parentPages + st.presentPages) ∧
    ∀ id rs, id < 2 ^ 32 → (∀ x ∈ rs, x.1.Plain) → Ordered pageSize 0 (rs.map Prod.fst) →
      readPagemapStats pageSize (image id rs) = .ok (totals id (rs.map Prod.fst)) := by
  obtain ⟨k, rfl⟩ := hps
  have hpos : 0 < 2 ^ k := Nat.two_pow_pos k
  have hpow : 2 ^ k &&& (2 ^ k - 1) = 0 := by
    rw [Nat.and_two_pow_sub_one_eq_mod, Nat.mod_self]
  refine ⟨fun bytes st => readPagemapStats_iff hpos hpow, fun bytes st h => ?_,
    fun id rs hid hplain hord => ?_⟩
  · obtain ⟨id, rs, ⟨data, head, rows, -, -, -, -, -, hord⟩, rfl⟩ :=
      (readPagemapStats_iff hpos hpow).mp h
    exact totalPages_eq hord id
  · exact (readPagemapStats_iff hpos hpow).mpr ⟨id, _, image_spec hid hplain hord, rfl⟩

/-- Pages of 4096 bytes, and a range in each layout. -/
theorem read_pagemap_exact_two :
    readPagemapStats 4096 (image 7 [(⟨0x1000, 2, peParent⟩, .legacy),
      (⟨0x4000, 3, pePresent⟩, .current)]) = .ok ⟨7, 5, 2, 3, 0, 0, 2⟩ := by
  refine (read_pagemap_exact ⟨12, rfl⟩).2.2 7 _ (by decide) ?_ ?_
  · simp only [List.forall_mem_cons]
    exact ⟨⟨by decide, by decide, .inl rfl⟩, ⟨by decide, by decide, .inr rfl⟩, by simp⟩
  · exact ⟨⟨by decide, by decide, by decide, by decide, by decide⟩,
      ⟨by decide, by decide, by decide, by decide, by decide⟩, trivial⟩

end Criu

end DeltaBox
