import DeltaBox.Lib.Truncated
import Mathlib.Data.List.Sort
import Mathlib.Data.List.Perm.Basic
import Mathlib.Tactic.Ring

/-!
# The journal of the prewarm workers

A worker that populates pages must not write files meanwhile. It reports into a mapping that all
processes share, `_record` (`replay/guest/cooperative_prewarm.py`): the mapping has slots, and the
report of an epoch goes to the slot that the epoch has modulo their number. It may be killed at every
byte. The order is the defence: the length of the slot is cleared, the text is written over the old
one, and the length is written last.

`journal_records` reads the file afterwards.

* Every store is a step. A report that is killed has made some of its stores, and the next one for the
  slot begins with the bytes that are there.
* A length that is half cleared or half written is smaller than the whole one, so that it names the
  front of a report, the old one or the new one. The front of an object is not JSON.
* `loads` is `json.loads`. On ASCII bytes without zeros, which it decodes as UTF-8, it takes only what
  `Json.Decodes` describes, and it reads back what `json.dumps` has written.

## Main results

* `journal_never_false` — what is read are reports that were given, one for a slot at most, and none
  that was finished is lost
-/

namespace DeltaBox

namespace Prewarm

open Json

/-! ### The source -/

def journalMagic : List UInt8 := [68, 66, 87, 65, 82, 77, 49, 10]

def journalSlots : ℕ := 1024

def journalSlotBytes : ℕ := 1028

def journalBytes : ℕ := journalMagic.length + journalSlots * journalSlotBytes

/-- The file, and the mapping of it. -/
structure Journal where
  size : ℕ
  byte : ℕ → UInt8

/-- `data[offset:offset + n]`. -/
def Journal.read (j : Journal) (offset n : ℕ) : List UInt8 :=
  (List.range n).map fun i => j.byte (offset + i)

/-- What `__init__` makes: zeros behind the magic bytes. -/
def created : Journal := ⟨journalBytes, fun i => journalMagic[i]?.getD 0⟩

/-- `struct.unpack_from("<I", …)`. -/
def unpack : List UInt8 → ℕ
  | [] => 0
  | b :: bs => b.toNat + 256 * unpack bs

/-- `struct.pack("<I", n)`. -/
def pack (n : ℕ) : List UInt8 := [n, n / 256, n / 65536, n / 16777216].map Nat.toUInt8

def slotOffset (slot : ℕ) : ℕ := journalMagic.length + slot * journalSlotBytes

/-- What `journal_records` raises. -/
inductive JournalError where
  /-- Not the size, or not the magic bytes. -/
  | journal
  | length
  | json
  /-- A record that has no number as its epoch. -/
  | epoch
  deriving DecidableEq, Repr

/-- The key of a member. -/
def keyOf (name : String) : List ℕ := name.toList.map Char.toNat

/-- An integer, from its text. -/
def intOf : List Char → Option ℤ
  | '-' :: ds => if ds ≠ [] ∧ ds.all Char.isDigit then some (-(Nat.ofDigitChars 10 ds 0 : ℤ)) else none
  | ds => if ds ≠ [] ∧ ds.all Char.isDigit then some (Nat.ofDigitChars 10 ds 0) else none

/-- `row["epoch"]`. -/
def epochOf : Value → Option ℤ
  | .obj members =>
    match members.lookup (keyOf "epoch") with
    | some (.num text) => intOf text
    | _ => none
  | _ => none

variable (loads : List UInt8 → Option Value)

/-- One turn of the loop of `journal_records`. -/
def slotRecord (j : Journal) (slot : ℕ) : Except JournalError (Option Value) :=
  let size := unpack (j.read (slotOffset slot) 4)
  if size = 0 then .ok none
  else if journalSlotBytes - 4 < size then .error .length
  else match loads (j.read (slotOffset slot + 4) size) with
    | none => .error .json
    | some v => .ok (some v)

/-- The loop. -/
def slotRecords (j : Journal) : List ℕ → Except JournalError (List Value)
  | [] => .ok []
  | slot :: slots =>
    match slotRecord loads j slot with
    | .error e => .error e
    | .ok found =>
      match slotRecords j slots with
      | .error e => .error e
      | .ok vs => .ok (found.toList ++ vs)

/-- The order of the records. -/
def epochLE (v w : Value) : Bool :=
  match epochOf v, epochOf w with
  | some m, some n => decide (m ≤ n)
  | _, _ => true

/-- `journal_records`. -/
def journalRecords (j : Journal) : Except JournalError (List Value) :=
  if j.size ≠ journalBytes ∨ j.read 0 journalMagic.length ≠ journalMagic then .error .journal
  else match slotRecords loads j (List.range journalSlots) with
    | .error e => .error e
    | .ok vs =>
      if vs.any fun v => (epochOf v).isNone then .error .epoch
      else .ok (vs.insertionSort fun v w => epochLE v w = true)

/-- A report: a dictionary with an epoch. -/
structure Record where
  members : List (List ℕ × Value)
  sound : SoundMembers members
  epoch : ℤ
  epoch_eq : epochOf (.obj members) = some epoch

def Record.value (r : Record) : Value := .obj r.members

def Record.slot (r : Record) : ℕ := (r.epoch % journalSlots).toNat

def Record.payload (r : Record) : List UInt8 := (compact r.value).map fun c => c.toNat.toUInt8

/-- The stores of `j[offset:offset + len(bs)] = bs`. -/
def slice (offset : ℕ) : List UInt8 → List (ℕ × UInt8)
  | [] => []
  | b :: bs => (offset, b) :: slice (offset + 1) bs

def Journal.store (j : Journal) (s : ℕ × UInt8) : Journal :=
  { j with byte := Function.update j.byte s.1 s.2 }

/-- The stores of `_record`, in their order. -/
def Record.stores (r : Record) : List (ℕ × UInt8) :=
  slice (slotOffset r.slot) [0, 0, 0, 0] ++ slice (slotOffset r.slot + 4) r.payload ++
    slice (slotOffset r.slot) (pack r.payload.length)

/-- It is not larger than a slot. -/
def Record.Fits (r : Record) : Prop := r.payload.length ≤ journalSlotBytes - 4

instance (r : Record) : Decidable r.Fits := inferInstanceAs (Decidable (_ ≤ _))

/-- A call of `_record`, and how many of its stores it makes before it is killed. -/
structure Call where
  record : Record
  cut : ℕ

/-- `_record`. A report that is too large raises before the first store. -/
def Journal.record (j : Journal) (c : Call) : Journal :=
  if c.record.Fits then (c.record.stores.take c.cut).foldl Journal.store j else j

/-- It has made all of its stores. -/
def Call.Completed (c : Call) : Prop := c.record.Fits ∧ c.record.stores.length ≤ c.cut

/-- It has made some of its stores. -/
def Call.Touches (c : Call) (slot : ℕ) : Prop := c.record.Fits ∧ 0 < c.cut ∧ c.record.slot = slot

/-- The journal after some calls. -/
def history (calls : List Call) : Journal := calls.foldl Journal.record created

/-! ### Stores -/

/-- A slice is written. -/
def Journal.put (j : Journal) (offset : ℕ) (bs : List UInt8) : Journal :=
  (slice offset bs).foldl Journal.store j

variable {loads} {j : Journal} {offset n : ℕ} {bs : List UInt8}

@[simp] theorem put_size : (j.put offset bs).size = j.size := by
  rw [Journal.put]
  induction bs generalizing j offset with
  | nil => rfl
  | cons b bs ih => exact ih

theorem put_byte (x : ℕ) : (j.put offset bs).byte x =
    if offset ≤ x then bs[x - offset]?.getD (j.byte x) else j.byte x := by
  induction bs generalizing j offset with
  | nil => simp [Journal.put, slice]
  | cons b bs ih =>
    show ((j.store (offset, b)).put (offset + 1) bs).byte x = _
    rw [ih]
    rcases Nat.lt_trichotomy x offset with hlt | rfl | hgt
    · rw [if_neg (by omega), if_neg (by omega)]
      exact Function.update_of_ne (by omega) _ _
    · rw [if_neg (by omega), if_pos le_rfl, Nat.sub_self]
      exact Function.update_self ..
    · have hstore : (j.store (offset, b)).byte x = j.byte x := Function.update_of_ne (by omega) _ _
      obtain ⟨k, rfl⟩ := Nat.exists_eq_add_of_lt hgt
      rw [if_pos (by omega), if_pos (by omega), hstore,
        show offset + k + 1 - (offset + 1) = k by omega, show offset + k + 1 - offset = k + 1 by omega,
        List.getElem?_cons_succ]

theorem length_read : (j.read offset n).length = n := by simp [Journal.read]

/-- Reading at the place of a slice: its bytes, and what follows from before. -/
theorem read_put (h : bs.length ≤ n) :
    (j.put offset bs).read offset n = bs ++ (j.read offset n).drop bs.length := by
  refine List.ext_getElem? fun i => ?_
  by_cases hi : i < n
  · have hleft : ((j.put offset bs).read offset n)[i]? =
        some (bs[i]?.getD (j.byte (offset + i))) := by
      rw [Journal.read, List.getElem?_map, List.getElem?_range hi, Option.map_some, put_byte,
        if_pos (by omega), Nat.add_sub_cancel_left]
    rw [hleft, List.getElem?_append]
    split_ifs with hin
    · rw [List.getElem?_eq_getElem hin, Option.getD_some]
    · rw [List.getElem?_eq_none (by omega), Option.getD_none, List.getElem?_drop,
        show bs.length + (i - bs.length) = i by omega, Journal.read, List.getElem?_map,
        List.getElem?_range hi, Option.map_some]
  · rw [List.getElem?_eq_none (by rw [length_read]; omega), List.getElem?_eq_none]
    rw [List.length_append, List.length_drop, length_read]
    omega

theorem read_put_apart {offset' : ℕ} (h : offset + bs.length ≤ offset' ∨ offset' + n ≤ offset) :
    (j.put offset bs).read offset' n = j.read offset' n := by
  refine List.map_congr_left fun i hi => ?_
  rw [List.mem_range] at hi
  rw [put_byte]
  split_ifs with hle
  · rw [List.getElem?_eq_none (by omega), Option.getD_none]
  · rfl

theorem take_read {k : ℕ} (h : k ≤ n) : (j.read offset n).take k = j.read offset k := by
  rw [Journal.read, ← List.map_take, List.take_range, Nat.min_eq_left h]
  rfl

theorem length_slice : (slice offset bs).length = bs.length := by
  induction bs generalizing offset with
  | nil => rfl
  | cons b bs ih => rw [slice, List.length_cons, ih, List.length_cons]

theorem take_slice (k : ℕ) : (slice offset bs).take k = slice offset (bs.take k) := by
  induction bs generalizing offset k with
  | nil => simp [slice]
  | cons b bs ih =>
    cases k with
    | zero => rfl
    | succ k => rw [slice, List.take_succ_cons, List.take_succ_cons, slice, ih]

/-- What some of the stores of a call write. -/
theorem record_put {c : Call} (h : c.record.Fits) : j.record c =
    ((j.put (slotOffset c.record.slot) ([0, 0, 0, 0].take c.cut)).put
      (slotOffset c.record.slot + 4) (c.record.payload.take (c.cut - 4))).put
      (slotOffset c.record.slot)
      ((pack c.record.payload.length).take (c.cut - (4 + c.record.payload.length))) := by
  rw [Journal.record, if_pos h, Record.stores, List.take_append, List.take_append, List.foldl_append,
    List.foldl_append, take_slice, take_slice, take_slice, List.length_append, length_slice,
    length_slice]
  rfl

/-! ### Lengths -/

theorem unpack_append (bs cs : List UInt8) :
    unpack (bs ++ cs) = unpack bs + 256 ^ bs.length * unpack cs := by
  induction bs with
  | nil => simp [unpack]
  | cons b bs ih =>
    rw [List.cons_append, unpack, ih, unpack, List.length_cons, Nat.pow_succ']
    ring

theorem unpack_replicate (k : ℕ) : unpack (List.replicate k 0) = 0 := by
  induction k with
  | zero => rfl
  | succ k ih =>
    rw [List.replicate_succ, unpack, ih]
    rfl

/-- A length that is cleared in front is not larger than before. -/
theorem unpack_cleared (k : ℕ) (bs : List UInt8) :
    unpack (List.replicate k 0 ++ bs.drop k) ≤ unpack bs := by
  induction k generalizing bs with
  | zero => exact le_rfl
  | succ k ih =>
    cases bs with
    | nil => rw [List.drop_nil, List.append_nil, unpack_replicate]; exact Nat.zero_le _
    | cons b bs =>
      rw [List.replicate_succ, List.cons_append, List.drop_succ_cons, unpack, unpack]
      have hrest := ih bs
      have hzero : (0 : UInt8).toNat = 0 := rfl
      omega

/-- A length that is written in front is not larger than the whole. -/
theorem unpack_started (k m : ℕ) (bs : List UInt8) :
    unpack (bs.take k ++ List.replicate m 0) ≤ unpack bs := by
  calc unpack (bs.take k ++ List.replicate m 0) = unpack (bs.take k) := by
        rw [unpack_append, unpack_replicate, Nat.mul_zero, Nat.add_zero]
    _ ≤ unpack (bs.take k) + 256 ^ (bs.take k).length * unpack (bs.drop k) := Nat.le_add_right ..
    _ = unpack bs := by rw [← unpack_append, List.take_append_drop]

theorem unpack_pack (h : n < 4294967296) : unpack (pack n) = n := by
  have hbyte : ∀ m : ℕ, (Nat.toUInt8 m).toNat = m % 256 := fun m => rfl
  simp only [pack, List.map_cons, List.map_nil, unpack, hbyte]
  omega

/-! ### What a slot shows -/

/-- The length of a slot. -/
def Journal.sizeOf (j : Journal) (slot : ℕ) : ℕ := unpack (j.read (slotOffset slot) 4)

/-- The front of a report stands in the slot, as far as its length says. -/
def Front (j : Journal) (slot : ℕ) (r : Record) : Prop :=
  r.Fits ∧ r.slot = slot ∧ j.sizeOf slot ≤ r.payload.length ∧
    j.read (slotOffset slot + 4) (j.sizeOf slot) = r.payload.take (j.sizeOf slot)

/-- The slot is empty, or it has the front of a report that was given. -/
def Shows (calls : List Call) (j : Journal) (slot : ℕ) : Prop :=
  j.sizeOf slot = 0 ∨ ∃ c ∈ calls, Front j slot c.record

/-- The whole report stands in the slot. -/
def Whole (j : Journal) (r : Record) : Prop :=
  j.sizeOf r.slot = r.payload.length ∧
    j.read (slotOffset r.slot + 4) r.payload.length = r.payload

variable {calls : List Call} {c : Call} {slot : ℕ}

theorem Shows.mono {calls' : List Call} (h : Shows calls j slot) (hsub : calls ⊆ calls') :
    Shows calls' j slot :=
  h.imp_right fun ⟨c, hc, hfront⟩ => ⟨c, hsub hc, hfront⟩

theorem offset_apart {slot slot' : ℕ} (h : slot ≠ slot') :
    slotOffset slot + journalSlotBytes ≤ slotOffset slot' ∨
      slotOffset slot' + journalSlotBytes ≤ slotOffset slot := by
  simp only [slotOffset, journalSlotBytes]
  omega

/-- Outside of its slot a call changes nothing. -/
theorem read_record {offset' : ℕ} (h : slotOffset c.record.slot + journalSlotBytes ≤ offset' ∨
    offset' + n ≤ slotOffset c.record.slot) : (j.record c).read offset' n = j.read offset' n := by
  by_cases hfits : c.record.Fits
  · have hlen : c.record.payload.length ≤ 1024 := hfits
    have hlow : (c.record.payload.take (c.cut - 4)).length ≤ 1024 := by
      rw [List.length_take]
      omega
    have hzero : ([0, 0, 0, 0].take c.cut : List UInt8).length ≤ 4 := List.length_take_le' ..
    have hpack : ((pack c.record.payload.length).take
        (c.cut - (4 + c.record.payload.length))).length ≤ 4 := List.length_take_le' ..
    simp only [journalSlotBytes] at h
    rw [record_put hfits, read_put_apart (by omega), read_put_apart (by omega),
      read_put_apart (by omega)]
  · rw [Journal.record, if_neg hfits]

theorem sizeOf_record (h : c.record.slot ≠ slot) : (j.record c).sizeOf slot = j.sizeOf slot := by
  have hoff := offset_apart h
  simp only [journalSlotBytes] at hoff
  rw [Journal.sizeOf, Journal.sizeOf, read_record]
  simp only [journalSlotBytes]
  omega

theorem read_record_ne (h : c.record.slot ≠ slot) (hn : n ≤ journalSlotBytes - 4) :
    (j.record c).read (slotOffset slot + 4) n = j.read (slotOffset slot + 4) n := by
  have hoff := offset_apart h
  simp only [journalSlotBytes] at hoff hn
  refine read_record ?_
  simp only [journalSlotBytes]
  omega

/-- A call that has made no store changes nothing. -/
theorem record_untouched (h : ¬ c.Touches c.record.slot) : j.record c = j := by
  rw [Journal.record]
  split_ifs with hfits
  · have hcut : c.cut = 0 := by
      by_contra hne
      exact h ⟨hfits, Nat.pos_of_ne_zero hne, rfl⟩
    rw [hcut, List.take_zero]
    rfl
  · rfl

theorem length_pack : (pack n).length = 4 := rfl

theorem take_zeros (k : ℕ) : ([0, 0, 0, 0].take k : List UInt8) = List.replicate (min k 4) 0 := by
  rw [show ([0, 0, 0, 0] : List UInt8) = List.replicate 4 0 from rfl, List.take_replicate]

/-- The length bytes of the slot of a call. -/
theorem sizeBytes_record (hfits : c.record.Fits) :
    (j.record c).read (slotOffset c.record.slot) 4 =
      (pack c.record.payload.length).take (c.cut - (4 + c.record.payload.length)) ++
        (List.replicate (min c.cut 4) 0 ++
          (j.read (slotOffset c.record.slot) 4).drop (min c.cut 4)).drop
          (min (c.cut - (4 + c.record.payload.length)) 4) := by
  have hzero : ([0, 0, 0, 0].take c.cut : List UInt8).length = min c.cut 4 := List.length_take
  have hpack : ((pack c.record.payload.length).take
      (c.cut - (4 + c.record.payload.length))).length ≤ 4 := List.length_take_le' ..
  rw [record_put hfits, read_put hpack, read_put_apart (by omega), read_put (by omega), hzero,
    take_zeros, List.length_take, length_pack]

/-- The text of the slot of a call. -/
theorem textBytes_record (hfits : c.record.Fits) (h : c.record.payload.length ≤ n) :
    (j.record c).read (slotOffset c.record.slot + 4) n =
      c.record.payload.take (c.cut - 4) ++ (j.read (slotOffset c.record.slot + 4) n).drop
        (min (c.cut - 4) c.record.payload.length) := by
  have hzero : ([0, 0, 0, 0].take c.cut : List UInt8).length ≤ 4 := List.length_take_le' ..
  have hpack : ((pack c.record.payload.length).take
      (c.cut - (4 + c.record.payload.length))).length ≤ 4 := List.length_take_le' ..
  rw [record_put hfits, read_put_apart (by omega),
    read_put ((List.length_take_le' ..).trans h), read_put_apart (by omega), List.length_take]

/-- A call that is killed while it clears the length leaves the text alone. -/
theorem record_clearing (hfits : c.record.Fits) (hcut : c.cut ≤ 4) :
    (j.record c).sizeOf c.record.slot ≤ j.sizeOf c.record.slot ∧
      ∀ n, (j.record c).read (slotOffset c.record.slot + 4) n =
        j.read (slotOffset c.record.slot + 4) n := by
  constructor
  · rw [Journal.sizeOf, sizeBytes_record hfits, Nat.sub_eq_zero_of_le (by omega), List.take_zero,
      Nat.zero_min, List.drop_zero, List.nil_append, Nat.min_eq_left hcut]
    exact unpack_cleared _ _
  · intro n
    have hzero : ([0, 0, 0, 0].take c.cut : List UInt8).length ≤ 4 := List.length_take_le' ..
    rw [record_put hfits, Nat.sub_eq_zero_of_le hcut, Nat.sub_eq_zero_of_le (by omega),
      List.take_zero, List.take_zero, read_put_apart (.inl (by simp)),
      read_put_apart (.inl (by simp)), read_put_apart (by omega)]

/-- One that is killed while it writes the text has cleared the length. -/
theorem record_writing (hfits : c.record.Fits) (hlow : 4 ≤ c.cut)
    (hhigh : c.cut ≤ 4 + c.record.payload.length) :
    (j.record c).sizeOf c.record.slot = 0 := by
  rw [Journal.sizeOf, sizeBytes_record hfits, Nat.sub_eq_zero_of_le hhigh, List.take_zero,
    Nat.zero_min, List.drop_zero, List.nil_append, Nat.min_eq_right hlow,
    List.drop_eq_nil_of_le (by rw [length_read]), List.append_nil]
  exact unpack_replicate 4

/-- One that is killed while it writes the length has written the text. -/
theorem record_publishing (hfits : c.record.Fits) (hcut : 4 + c.record.payload.length ≤ c.cut) :
    (j.record c).sizeOf c.record.slot ≤ c.record.payload.length ∧
      (j.record c).read (slotOffset c.record.slot + 4) c.record.payload.length =
        c.record.payload := by
  have hlen : c.record.payload.length ≤ 1024 := hfits
  have hgone : (j.read (slotOffset c.record.slot) 4).drop 4 = [] :=
    List.drop_eq_nil_of_le (by rw [length_read])
  constructor
  · rw [Journal.sizeOf, sizeBytes_record hfits, Nat.min_eq_right (by omega : 4 ≤ c.cut), hgone,
      List.append_nil, List.drop_replicate]
    calc unpack _ ≤ unpack (pack c.record.payload.length) := unpack_started ..
      _ = c.record.payload.length := unpack_pack (by omega)
  · rw [textBytes_record hfits le_rfl, Nat.min_eq_right (by omega), List.take_of_length_le (by omega),
      List.drop_eq_nil_of_le (by rw [length_read]), List.append_nil]

/-- **One call keeps what the slots show.** -/
theorem Shows.record (h : Shows calls j slot) (c : Call) :
    Shows (calls ++ [c]) (j.record c) slot := by
  have hold : Shows (calls ++ [c]) j slot := h.mono (List.subset_append_left ..)
  by_cases hslot : c.record.slot = slot
  · subst hslot
    by_cases hfits : c.record.Fits
    · rcases Nat.lt_or_ge c.cut 4 with hclear | hlow
      · obtain ⟨hsize, htext⟩ := record_clearing (j := j) hfits hclear.le
        rcases hold with hzero | ⟨d, hd, hdfits, hdslot, hdsize, hdtext⟩
        · exact .inl (by omega)
        · refine .inr ⟨d, hd, hdfits, hdslot, by omega, ?_⟩
          rw [htext, ← take_read hsize, hdtext, List.take_take, Nat.min_eq_left hsize]
      · rcases Nat.lt_or_ge c.cut (4 + c.record.payload.length) with hwrite | hpublish
        · exact .inl (record_writing hfits hlow hwrite.le)
        · obtain ⟨hsize, htext⟩ := record_publishing (j := j) hfits hpublish
          refine .inr ⟨c, List.mem_append_right _ (List.mem_singleton_self c), hfits, rfl, hsize, ?_⟩
          rw [← take_read hsize, htext]
    · rw [Journal.record, if_neg hfits]
      exact hold
  · rcases hold with hzero | ⟨d, hd, hdfits, hdslot, hdsize, hdtext⟩
    · exact .inl (by rw [sizeOf_record hslot, hzero])
    · have hdlen : d.record.payload.length ≤ journalSlotBytes - 4 := hdfits
      refine .inr ⟨d, hd, hdfits, hdslot, by rw [sizeOf_record hslot]; exact hdsize, ?_⟩
      rw [sizeOf_record hslot, read_record_ne hslot (hdsize.trans hdlen)]
      exact hdtext

theorem whole_record (h : c.Completed) : Whole (j.record c) c.record := by
  obtain ⟨hfits, hcut⟩ := h
  have hlen : c.record.payload.length ≤ 1024 := hfits
  rw [Record.stores, List.length_append, List.length_append, length_slice, length_slice, length_slice,
    length_pack] at hcut
  have hfour : ([0, 0, 0, 0] : List UInt8).length = 4 := rfl
  refine ⟨?_, (record_publishing hfits (by omega)).2⟩
  rw [Journal.sizeOf, sizeBytes_record hfits, List.take_of_length_le (by rw [length_pack]; omega),
    Nat.min_eq_right (by omega : 4 ≤ c.cut - _), List.drop_eq_nil_of_le, List.append_nil]
  · exact unpack_pack (by omega)
  · rw [List.length_append, List.length_replicate, List.length_drop, length_read]
    omega

/-- A report stays in its slot until another call touches it. -/
theorem Whole.record {r : Record} (h : Whole j r) (hfits : r.Fits) (hc : ¬ c.Touches r.slot) :
    Whole (j.record c) r := by
  by_cases hslot : c.record.slot = r.slot
  · rw [record_untouched (by rw [hslot]; exact hc)]
    exact h
  · exact ⟨by rw [sizeOf_record hslot]; exact h.1, by rw [read_record_ne hslot hfits]; exact h.2⟩

/-! ### Histories -/

@[simp] theorem record_size (j : Journal) (c : Call) : (j.record c).size = j.size := by
  by_cases hfits : c.record.Fits
  · rw [record_put hfits, put_size, put_size, put_size]
  · rw [Journal.record, if_neg hfits]

theorem history_concat (calls : List Call) (c : Call) :
    history (calls ++ [c]) = (history calls).record c := List.foldl_concat ..

theorem sizeOf_created (slot : ℕ) : created.sizeOf slot = 0 := by
  have hzero : ∀ i, created.byte (slotOffset slot + i) = 0 := by
    intro i
    have hout : journalMagic[slotOffset slot + i]? = none :=
      List.getElem?_eq_none (by rw [slotOffset]; omega)
    show journalMagic[slotOffset slot + i]?.getD 0 = 0
    rw [hout]
    rfl
  rw [Journal.sizeOf, Journal.read, List.map_congr_left fun i _ => hzero i]
  rfl

/-- In every history the slots show fronts of reports, and the file is one of this kind. -/
theorem history_shows (calls : List Call) :
    (∀ slot, Shows calls (history calls) slot) ∧ (history calls).size = journalBytes ∧
      (history calls).read 0 journalMagic.length = journalMagic := by
  induction calls using List.reverseRecOn with
  | nil => exact ⟨fun slot => .inl (sizeOf_created slot), rfl, rfl⟩
  | append_singleton calls c ih =>
    obtain ⟨hshows, hsize, hmagic⟩ := ih
    rw [history_concat]
    refine ⟨fun slot => (hshows slot).record c, by rw [record_size, hsize], ?_⟩
    rw [read_record (.inr (by rw [slotOffset]; omega)), hmagic]

/-- A finished report stands in its slot as long as nobody touches it. -/
theorem history_whole {before after : List Call} {c : Call} (h : c.Completed)
    (hafter : ∀ d ∈ after, ¬ d.Touches c.record.slot) :
    Whole (history (before ++ c :: after)) c.record := by
  have hrun : ∀ {j : Journal} {ds : List Call}, Whole j c.record →
      (∀ d ∈ ds, ¬ d.Touches c.record.slot) → Whole (ds.foldl Journal.record j) c.record := by
    intro j ds hwhole hds
    induction ds generalizing j with
    | nil => exact hwhole
    | cons d ds ih =>
      exact ih (hwhole.record h.1 (hds d List.mem_cons_self))
        fun e he => hds e (List.mem_cons_of_mem d he)
  rw [history, List.foldl_append, List.foldl_cons]
  exact hrun (whole_record h) hafter

/-! ### Reading -/

/-- The bytes of a report are those of its text. -/
theorem payload_text (r : Record) (n : ℕ) :
    ((r.payload.take n).map fun b => Char.ofNat b.toNat) = (compact r.value).take n ∧
      ∀ b ∈ r.payload.take n, 0 < b.toNat ∧ b.toNat < 128 := by
  have hprint : Printable (compact r.value) := (clean_compact (v := r.value) r.sound).printable
  have hbyte : ∀ c ∈ compact r.value, (c.toNat.toUInt8).toNat = c.toNat := by
    intro c hc
    have hrange := hprint c hc
    exact Nat.mod_eq_of_lt (by omega)
  constructor
  · rw [Record.payload, ← List.map_take, List.map_map]
    calc _ = ((compact r.value).take n).map id :=
          List.map_congr_left fun c hc => by
            show Char.ofNat (c.toNat.toUInt8).toNat = c
            rw [hbyte c (List.mem_of_mem_take hc), Char.ofNat_toNat]
      _ = _ := List.map_id _
  · intro b hb
    obtain ⟨c, hc, rfl⟩ := List.mem_map.mp (List.mem_of_mem_take hb)
    have hrange := hprint c hc
    rw [hbyte c hc]
    omega

/-- What `json.loads` is relied on for. -/
structure Decoder (loads : List UInt8 → Option Value) (calls : List Call) : Prop where
  back : ∀ c ∈ calls, loads c.record.payload = some c.record.value
  json : ∀ bs v, loads bs = some v → (∀ b ∈ bs, 0 < b.toNat ∧ b.toNat < 128) →
    Decodes .padded (bs.map fun b => Char.ofNat b.toNat)

/-- A slot that is read has a report in full. -/
theorem slotRecord_spec (hloads : Decoder loads calls) (h : Shows calls j slot) {v : Value}
    (hread : slotRecord loads j slot = .ok (some v)) :
    ∃ c ∈ calls, c.record.Fits ∧ c.record.slot = slot ∧ v = c.record.value := by
  rw [slotRecord] at hread
  change (if j.sizeOf slot = 0 then _ else if _ < j.sizeOf slot then _ else
    match loads (j.read (slotOffset slot + 4) (j.sizeOf slot)) with
    | none => _
    | some v => _) = _ at hread
  rcases h with hzero | ⟨c, hc, hfits, hslot, hsize, htext⟩
  · rw [if_pos hzero] at hread
    cases hread
  · split_ifs at hread with hnil
    · cases hread
    rw [htext] at hread
    cases hdecoded : loads (c.record.payload.take (j.sizeOf slot)) with
    | none =>
      rw [hdecoded] at hread
      cases hread
    | some w =>
      rw [hdecoded] at hread
      obtain rfl : w = v := Option.some.inj (Except.ok.inj hread)
      rcases Nat.lt_or_ge (j.sizeOf slot) c.record.payload.length with hlt | hge
      · -- a report that is cut off
        obtain ⟨hchars, hascii⟩ := payload_text c.record (j.sizeOf slot)
        have hdecodes := hloads.json _ _ hdecoded hascii
        rw [hchars] at hdecodes
        rw [Record.payload, List.length_map] at hlt
        exact absurd hdecodes (not_decodes_take c.record.sound (Nat.pos_of_ne_zero hnil) hlt _)
      · rw [List.take_of_length_le hge, hloads.back c hc] at hdecoded
        exact ⟨c, hc, hfits, hslot, (Option.some.inj hdecoded).symm⟩

/-- A slot with a whole report is read as this report. -/
theorem slotRecord_whole (hloads : Decoder loads calls) (hc : c ∈ calls) (hfits : c.record.Fits)
    (h : Whole j c.record) : slotRecord loads j c.record.slot = .ok (some c.record.value) := by
  have hpos : c.record.payload.length ≠ 0 := by
    rw [Record.payload, List.length_map, Record.value, compact, List.length_cons]
    omega
  have hsize : unpack (j.read (slotOffset c.record.slot) 4) = c.record.payload.length := h.1
  rw [slotRecord]
  simp only [hsize]
  rw [if_neg hpos, if_neg (Nat.not_lt.mpr hfits), h.2, hloads.back c hc]

/-- What is found in a slot. -/
def foundIn (loads : List UInt8 → Option Value) (j : Journal) (slot : ℕ) : Option Value :=
  match slotRecord loads j slot with
  | .ok found => found
  | .error _ => none

theorem slotRecords_spec {slots : List ℕ} {vs : List Value}
    (h : slotRecords loads j slots = .ok vs) : vs = slots.filterMap (foundIn loads j) := by
  induction slots generalizing vs with
  | nil =>
    obtain rfl := Except.ok.inj h
    rfl
  | cons slot slots ih =>
    rw [slotRecords] at h
    cases hslot : slotRecord loads j slot with
    | error e => rw [hslot] at h; cases h
    | ok found =>
      rw [hslot] at h
      cases hrest : slotRecords loads j slots with
      | error e => simp only [hrest] at h; cases h
      | ok rest =>
        simp only [hrest] at h
        obtain rfl := Except.ok.inj h
        have hfound : foundIn loads j slot = found := by rw [foundIn, hslot]
        rw [ih hrest, List.filterMap_cons, hfound]
        cases found <;> rfl

theorem slot_lt (r : Record) : r.slot < journalSlots := by
  have hmod : r.epoch % journalSlots < journalSlots := Int.emod_lt_of_pos r.epoch (by decide)
  have hpos : 0 ≤ r.epoch % journalSlots := Int.emod_nonneg r.epoch (by decide)
  rw [Record.slot]
  omega

/-- A call that does not end within the stores of a length that is not zero. -/
def Call.Settled (c : Call) : Prop :=
  c.Completed ∨ ¬ c.Touches c.record.slot ∨
    (c.record.Fits ∧ 4 ≤ c.cut ∧ c.cut ≤ 4 + c.record.payload.length)

/-- After such calls every slot is empty or has a whole report. -/
theorem history_settled {calls : List Call} (h : ∀ c ∈ calls, c.Settled) (slot : ℕ) :
    (history calls).sizeOf slot = 0 ∨
      ∃ c ∈ calls, c.record.Fits ∧ c.record.slot = slot ∧ Whole (history calls) c.record := by
  induction calls using List.reverseRecOn with
  | nil => exact .inl (sizeOf_created slot)
  | append_singleton calls c ih =>
    have hlast : c ∈ calls ++ [c] := List.mem_append_right _ (List.mem_singleton_self c)
    have hold := ih fun d hd => h d (List.mem_append_left _ hd)
    rw [history_concat]
    have hkeep : ¬ c.Touches slot → ((history calls).record c).sizeOf slot = 0 ∨ ∃ d ∈ calls ++ [c],
        d.record.Fits ∧ d.record.slot = slot ∧ Whole ((history calls).record c) d.record := by
      intro hout
      rcases hold with hzero | ⟨d, hd, hfits, rfl, hwhole⟩
      · refine .inl ?_
        by_cases hslot : c.record.slot = slot
        · rw [record_untouched (by rw [hslot]; exact hout), hzero]
        · rw [sizeOf_record hslot, hzero]
      · exact .inr ⟨d, List.mem_append_left _ hd, hfits, rfl, hwhole.record hfits hout⟩
    by_cases hslot : c.record.slot = slot
    · subst hslot
      rcases h c hlast with hcompleted | hout | ⟨hfits, hlow, hhigh⟩
      · exact .inr ⟨c, hlast, hcompleted.1, rfl, whole_record hcompleted⟩
      · exact hkeep hout
      · exact .inl (record_writing hfits hlow hhigh)
    · exact hkeep fun htouch => hslot htouch.2.2

theorem slotRecords_ok {slots : List ℕ} (h : ∀ slot ∈ slots, ∃ found,
    slotRecord loads j slot = .ok found ∧ ∀ v ∈ found, (epochOf v).isSome = true) :
    ∃ vs, slotRecords loads j slots = .ok vs ∧ ∀ v ∈ vs, (epochOf v).isSome = true := by
  induction slots with
  | nil => exact ⟨[], rfl, fun v hv => nomatch hv⟩
  | cons slot slots ih =>
    obtain ⟨found, hfound, hepoch⟩ := h slot List.mem_cons_self
    obtain ⟨vs, hvs, hepochs⟩ := ih fun s hs => h s (List.mem_cons_of_mem slot hs)
    refine ⟨found.toList ++ vs, ?_, fun v hv => ?_⟩
    · rw [slotRecords, hfound]
      simp only [hvs]
    · rcases List.mem_append.mp hv with hv | hv
      · exact hepoch v (Option.mem_toList.mp hv)
      · exact hepochs v hv

/-- A journal is read if nobody has been killed at the wrong store. -/
theorem journalRecords_ok {calls : List Call} (hloads : Decoder loads calls)
    (h : ∀ c ∈ calls, c.Settled) : ∃ rs, journalRecords loads (history calls) = .ok rs := by
  obtain ⟨-, hsize, hmagic⟩ := history_shows calls
  have hslots : ∀ slot ∈ List.range journalSlots, ∃ found,
      slotRecord loads (history calls) slot = .ok found ∧
        ∀ v ∈ found, (epochOf v).isSome = true := by
    intro slot _
    rcases history_settled h slot with hzero | ⟨c, hc, hfits, rfl, hwhole⟩
    · exact ⟨none, if_pos hzero, fun v hv => nomatch hv⟩
    · refine ⟨_, slotRecord_whole hloads hc hfits hwhole, fun v hv => ?_⟩
      obtain rfl := Option.some.inj hv
      rw [Record.value, c.record.epoch_eq]
      rfl
  obtain ⟨vs, hvs, hepochs⟩ := slotRecords_ok hslots
  refine ⟨vs.insertionSort fun v w => epochLE v w = true, ?_⟩
  have hnone : ¬ (vs.any fun v => (epochOf v).isNone) = true := by
    rw [List.any_eq_true]
    rintro ⟨v, hv, hbad⟩
    have hgood := hepochs v hv
    rw [Option.isNone_iff_eq_none] at hbad
    rw [hbad] at hgood
    cases hgood
  rw [journalRecords, if_neg (by simp [hsize, hmagic]), hvs]
  exact if_neg hnone

/-- **A killed worker never publishes a false report.** The calls are any ones, of workers that come
one after the other, and each is killed behind any of its stores, or behind none. If the journal is
read, then every slot gives nothing or a report that some call for this slot was given in full, and
these are all of the records. A finished report is among them if no other call has touched its
slot. -/
theorem journal_never_false (loads : List UInt8 → Option Value) (calls : List Call)
    (hloads : Decoder loads calls) {rs : List Value}
    (h : journalRecords loads (history calls) = .ok rs) :
    ∃ found : ℕ → Option Value,
      rs.Perm ((List.range journalSlots).filterMap found) ∧
      (∀ slot v, found slot = some v →
        ∃ c ∈ calls, c.record.Fits ∧ c.record.slot = slot ∧ v = c.record.value) ∧
      ∀ before c after, calls = before ++ c :: after → c.Completed →
        (∀ d ∈ after, ¬ d.Touches c.record.slot) →
          found c.record.slot = some c.record.value ∧ c.record.value ∈ rs := by
  obtain ⟨hshows, hsize, hmagic⟩ := history_shows calls
  rw [journalRecords, if_neg (by simp [hsize, hmagic])] at h
  cases hslots : slotRecords loads (history calls) (List.range journalSlots) with
  | error e => rw [hslots] at h; cases h
  | ok vs =>
    simp only [hslots] at h
    split_ifs at h
    have hperm : rs.Perm ((List.range journalSlots).filterMap (foundIn loads (history calls))) := by
      rw [← slotRecords_spec hslots, ← Except.ok.inj h]
      exact List.perm_insertionSort ..
    refine ⟨foundIn loads (history calls), hperm, fun slot v hfound => ?_, ?_⟩
    · cases hread : slotRecord loads (history calls) slot with
      | error e => rw [foundIn, hread] at hfound; cases hfound
      | ok found =>
        rw [foundIn, hread] at hfound
        obtain rfl : found = some v := hfound
        exact slotRecord_spec hloads (hshows slot) hread
    · rintro before c after rfl hcompleted hafter
      have hmem : c ∈ before ++ c :: after := List.mem_append_right _ List.mem_cons_self
      have hwhole := @history_whole before after c hcompleted hafter
      have hread := slotRecord_whole hloads hmem hcompleted.1 hwhole
      have hfound : foundIn loads (history (before ++ c :: after)) c.record.slot =
          some c.record.value := by rw [foundIn, hread]
      refine ⟨hfound, hperm.mem_iff.mpr ?_⟩
      exact List.mem_filterMap.mpr ⟨_, List.mem_range.mpr (slot_lt c.record), hfound⟩

/-- The members of a report that has nothing but its epoch. -/
def epochOnly (digit : Char) : List (List ℕ × Value) := [(keyOf "epoch", .num [digit])]

theorem isNumber_digit {d : Char} (h : d.isDigit = true) : IsNumber [d] where
  parts := by
    refine ⟨[], [d], [], [], rfl, .inl rfl, ⟨⟨by simp, fun c hc => ?_⟩, fun hzero => ?_⟩, .inl rfl,
      .inl rfl⟩
    · rw [List.mem_singleton.mp hc, h]
    · obtain rfl := Option.some.inj hzero
      rfl

/-- The text of such a report is read. -/
theorem decodes_epochOnly {d : Char} (h : d.isDigit = true) :
    Decodes .padded (compact (.obj (epochOnly d))) := by
  have hnil : IsBlank [] := by decide
  have hbody : ∃ us, Body false "epoch".toList us :=
    ⟨_, .plain (by decide) (by decide) (by decide) <| .plain (by decide) (by decide) (by decide) <|
      .plain (by decide) (by decide) (by decide) <| .plain (by decide) (by decide) (by decide) <|
      .plain (by decide) (by decide) (by decide) .nil⟩
  obtain ⟨us, hus⟩ := hbody
  exact .padded hnil (.obj (.member hnil hus hnil (.padded hnil (.num (.inl (isNumber_digit h))) hnil)))
    hnil

/-- The reports of the first two epochs. -/
def report (second : Bool) : Record where
  members := epochOnly (if second then '1' else '0')
  sound := by cases second <;> exact ⟨.inl (isNumber_digit rfl), trivial⟩
  epoch := if second then 1 else 0
  epoch_eq := by cases second <;> decide +kernel

/-- `json.loads` on these. -/
def loadsReport (bs : List UInt8) : Option Value :=
  if bs = (report false).payload then some (report false).value
  else if bs = (report true).payload then some (report true).value
  else none

/-- The second one is killed while it writes its text. -/
def twoCalls : List Call := [⟨report false, 100⟩, ⟨report true, 9⟩]

theorem loadsReport_decoder : Decoder loadsReport twoCalls where
  back c hc := by
    simp only [twoCalls, List.mem_cons, List.not_mem_nil, or_false] at hc
    rcases hc with rfl | rfl
    · rw [loadsReport, if_pos rfl]
    · rw [loadsReport, if_neg (by decide +kernel), if_pos rfl]
  json bs v h _ := by
    have htext : ∀ r : Record, (r.payload.map fun b => Char.ofNat b.toNat) = compact r.value := by
      intro r
      have hwhole := (payload_text r r.payload.length).1
      rwa [List.take_length, Record.payload, List.length_map, List.take_length] at hwhole
    rw [loadsReport] at h
    split_ifs at h with hfirst hsecond
    · rw [hfirst, htext]
      exact decodes_epochOnly rfl
    · rw [hsecond, htext]
      exact decodes_epochOnly rfl

theorem journal_never_false_killed : ∃ rs,
    journalRecords loadsReport (history twoCalls) = .ok rs ∧ ∃ found : ℕ → Option Value,
      rs.Perm ((List.range journalSlots).filterMap found) ∧
      (∀ slot v, found slot = some v →
        ∃ c ∈ twoCalls, c.record.Fits ∧ c.record.slot = slot ∧ v = c.record.value) ∧
      ∀ before c after, twoCalls = before ++ c :: after → c.Completed →
        (∀ d ∈ after, ¬ d.Touches c.record.slot) →
          found c.record.slot = some c.record.value ∧ c.record.value ∈ rs := by
  have hsettled : ∀ c ∈ twoCalls, c.Settled := by
    intro c hc
    simp only [twoCalls, List.mem_cons, List.not_mem_nil, or_false] at hc
    rcases hc with rfl | rfl
    · exact .inl ⟨by decide +kernel, by decide +kernel⟩
    · exact .inr (.inr ⟨by decide +kernel, by decide, by decide +kernel⟩)
  obtain ⟨rs, hread⟩ := journalRecords_ok loadsReport_decoder hsettled
  exact ⟨rs, hread, journal_never_false loadsReport twoCalls loadsReport_decoder hread⟩

end Prewarm

end DeltaBox
