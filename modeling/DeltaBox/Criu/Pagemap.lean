import DeltaBox.Lib.Dict
import DeltaBox.Lib.Varint

/-!
# Reading a pagemap image

`criu_page_stats.py` counts the pages of a completed dump. An image is a magic number and then
records, each one behind its length. A record is a protobuf message whose fields are all varints.
The first record is the head, and each of the others is a range of pages.

A range is written in one of two ways. The old one has the count in field 2, and field 3 says whether
the pages are in the parent. The new one has the count in field 5 and flags in field 4.

## Main definitions

* `varint`, `fields`, `nextRecord` — the layers of the format
* `range` — what a row says, if it is allowed
* `readPagemapStats` — the reader
-/

namespace DeltaBox

namespace Criu

/-- `PAGEMAP_MAGIC`. -/
def pagemapMagic : List UInt8 := [0x19, 0x43, 0x56, 0x54, 0x25, 0x40, 0x08, 0x56]

/-- `MAX_RECORD_BYTES`. -/
def maxRecordBytes : ℕ := 1024

/-- `UINT64_MAX`. -/
def uint64Max : ℕ := (1 <<< 64) - 1

/-- `PE_PARENT`. -/
def peParent : ℕ := 1

/-- `PE_LAZY`. -/
def peLazy : ℕ := 2

/-- `PE_PRESENT`. -/
def pePresent : ℕ := 4

/-- The loop of `_varint`: the number of bytes that may come, the shift, and the result so far. -/
def varintLoop : ℕ → ℕ → ℕ → List UInt8 → Except String (ℕ × List UInt8)
  | 0, _, _, _ => .error "Pagemap protobuf varint exceeds uint64"
  | _ + 1, _, _, [] => .error "Truncated pagemap protobuf varint"
  | n + 1, shift, result, byte :: data =>
    if shift = 63 ∧ 1 < byte.toNat then .error "Pagemap protobuf varint exceeds uint64"
    else
      let result := result ||| (byte.toNat &&& 127) <<< shift
      if byte.toNat &&& 128 = 0 then .ok (result, data) else varintLoop n (shift + 7) result data

/-- `_varint`, with the bytes behind it. -/
def varint (data : List UInt8) : Except String (ℕ × List UInt8) := varintLoop 10 0 0 data

/-- The loop of `_fields`. The fuel is the number of bytes. -/
def fieldsLoop : ℕ → Dict ℕ ℕ → List UInt8 → Except String (Dict ℕ ℕ)
  | _, fields, [] => .ok fields
  | 0, _, _ :: _ => .error ""
  | fuel + 1, fields, data =>
    match varint data with
    | .error e => .error e
    | .ok (key, data) =>
      let number := key >>> 3
      let wire := key &&& 7
      if number = 0 ∨ wire ≠ 0 ∨ number ∈ fields.keys then
        .error "Unsupported or duplicate pagemap protobuf field"
      else
        match varint data with
        | .error e => .error e
        | .ok (value, data) => fieldsLoop fuel (fields.set number value) data

/-- `_fields`. -/
def fields (data : List UInt8) : Except String (Dict ℕ ℕ) := fieldsLoop data.length .empty data

/-- The next record of `_records`, and what is behind it. It is none at the end. -/
def nextRecord (data : List UInt8) : Except String (Option (Dict ℕ ℕ × List UInt8)) :=
  let raw := data.take 4
  if raw = [] then .ok none
  else if raw.length ≠ 4 then .error "Truncated pagemap record length"
  else
    let size := Varint.ofLe raw
    if ¬ (0 < size ∧ size ≤ maxRecordBytes) then .error "Unsupported pagemap record size"
    else
      let payload := (data.drop 4).take size
      if payload.length ≠ size then .error "Truncated pagemap record"
      else
        match fields payload with
        | .error e => .error e
        | .ok row => .ok (some (row, (data.drop 4).drop size))

/-- A range of pages. -/
structure Range where
  address : ℕ
  count : ℕ
  flags : ℕ
  deriving DecidableEq

/-- What a row says. The range has to be behind the previous one. -/
def range (pageSize previousEnd : ℕ) (row : Dict ℕ ℕ) : Except String Range :=
  match row.find? 1, row.find? 2 with
  | some address, some compat =>
    if row.keys.any fun number => number ∉ [1, 2, 3, 4, 5] then
      .error "Unsupported CRIU pagemap entry schema"
    else
      let count := (row.find? 5).getD compat
      let inParent := (row.find? 3).getD 0
      if (1 <<< 32) - 1 < compat ∨ inParent ∉ [0, 1] then
        .error "Invalid CRIU compatibility field"
      else
        let flags := (row.find? 4).getD (if inParent ≠ 0 then peParent else pePresent)
        if count = 0 ∨ uint64Max / pageSize < count ∨ address % pageSize ≠ 0 ∨
            address < previousEnd ∨ uint64Max < address + count * pageSize then
          .error "Invalid or overlapping CRIU pagemap range"
        -- no bit is set but these three
        else if flags ≠ flags &&& (peParent ||| peLazy ||| pePresent) ∨
            flags &&& (peParent ||| pePresent) = 0 ∨
            flags &&& peParent ≠ 0 ∧ flags &&& pePresent ≠ 0 then
          .error "Unsupported CRIU page flags for a regular local dump"
        else .ok ⟨address, count, flags⟩
  | _, _ => .error "Unsupported CRIU pagemap entry schema"

/-- The result. -/
structure Stats where
  pagesId : ℕ
  totalPages : ℕ
  parentPages : ℕ
  presentPages : ℕ
  lazyEligiblePages : ℕ
  parentLazyPages : ℕ
  entries : ℕ
  deriving DecidableEq

/-- The range is counted. -/
def Stats.add (st : Stats) (r : Range) : Stats :=
  { st with
    parentLazyPages := st.parentLazyPages +
      if r.flags &&& peParent ≠ 0 ∧ r.flags &&& peLazy ≠ 0 then r.count else 0
    entries := st.entries + 1
    totalPages := st.totalPages + r.count
    parentPages := st.parentPages + if r.flags &&& peParent ≠ 0 then r.count else 0
    presentPages := st.presentPages + if r.flags &&& pePresent ≠ 0 then r.count else 0
    lazyEligiblePages := st.lazyEligiblePages + if r.flags &&& peLazy ≠ 0 then r.count else 0 }

/-- The rows one after the other. The fuel is the number of bytes. -/
def rowsLoop (pageSize : ℕ) : ℕ → ℕ → Stats → List UInt8 → Except String Stats
  | 0, _, _, _ => .error ""
  | fuel + 1, previousEnd, st, data =>
    match nextRecord data with
    | .error e => .error e
    | .ok none => .ok st
    | .ok (some (row, data)) =>
      match range pageSize previousEnd row with
      | .error e => .error e
      | .ok r => rowsLoop pageSize fuel (r.address + r.count * pageSize) (st.add r) data

/-- `read_pagemap_stats`, on the bytes of the file. -/
def readPagemapStats (pageSize : ℕ) (bytes : List UInt8) : Except String Stats :=
  if pageSize = 0 ∨ pageSize &&& (pageSize - 1) ≠ 0 then
    .error "Page size must be a positive power of two"
  else if bytes.take 8 ≠ pagemapMagic then .error "Unexpected CRIU pagemap image magic"
  else
    match nextRecord (bytes.drop 8) with
    | .error e => .error e
    | .ok none => .error "Invalid CRIU pagemap head"
    | .ok (some (head, data)) =>
      match head.find? 1 with
      | none => .error "Invalid CRIU pagemap head"
      | some id =>
        if head.keys.any (· ≠ 1) ∨ (1 <<< 32) - 1 < id then .error "Invalid CRIU pagemap head"
        else rowsLoop pageSize (data.length + 1) 0 ⟨id, 0, 0, 0, 0, 0, 0⟩ data

end Criu

end DeltaBox
