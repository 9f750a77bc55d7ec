import Mathlib.Algebra.Order.Ring.Nat
import Mathlib.Data.List.Basic

/-!
# Text in files

Reading bytes as UTF-8, with what the language does about bytes that are none, and the line ends
that a file opened for text shows.

A faulty sequence is as long as it could still have become a character: a first byte and the bytes
that may follow it. It counts as one fault.

## Main definitions

* `Utf8.decode` — the characters of some bytes, and `none` for a fault
* `Utf8.replacing`, `Utf8.ignoring`, `Utf8.strict` — the texts of the three error handlers
* `Utf8.encode` — the bytes of a text
-/

namespace DeltaBox

namespace Utf8

/-- How many bytes follow a first byte, and between which bounds the first of them is. -/
def follow (lead : ℕ) : Option (ℕ × ℕ × ℕ) :=
  if lead < 0x80 then some (0, 0x80, 0xBF)
  else if 0xC2 ≤ lead ∧ lead ≤ 0xDF then some (1, 0x80, 0xBF)
  else if lead = 0xE0 then some (2, 0xA0, 0xBF)
  else if lead = 0xED then some (2, 0x80, 0x9F)
  else if 0xE1 ≤ lead ∧ lead ≤ 0xEF then some (2, 0x80, 0xBF)
  else if lead = 0xF0 then some (3, 0x90, 0xBF)
  else if 0xF1 ≤ lead ∧ lead ≤ 0xF3 then some (3, 0x80, 0xBF)
  else if lead = 0xF4 then some (3, 0x80, 0x8F)
  else none

/-- The bytes at the front that may follow: at most `n`, the first one between the bounds. -/
def tails : ℕ → ℕ → ℕ → List UInt8 → List UInt8
  | n + 1, lo, hi, b :: bs =>
    if lo ≤ b.toNat ∧ b.toNat ≤ hi then b :: tails n 0x80 0xBF bs else []
  | _, _, _, _ => []

/-- The number that a character's bytes spell. -/
def spell (lead n : ℕ) (bs : List UInt8) : ℕ :=
  bs.foldl (fun v b => v * 64 + b.toNat % 64) (if n = 0 then lead else lead % 2 ^ (6 - n))

/-- The characters of some bytes. The fuel is the number of bytes. -/
def decodeFrom : ℕ → List UInt8 → List (Option Char)
  | _, [] => []
  | 0, _ => []
  | fuel + 1, b :: bs =>
    match follow b.toNat with
    | none => none :: decodeFrom fuel bs
    | some (n, lo, hi) =>
      let more := tails n lo hi bs
      (if more.length = n then some (Char.ofNat (spell b.toNat n more)) else none) ::
        decodeFrom fuel (bs.drop more.length)

/-- The characters of some bytes, and `none` for each fault. -/
def decode (bs : List UInt8) : List (Option Char) := decodeFrom bs.length bs

/-- Universal newlines: every line end is one `\n`. -/
def newlines : List Char → List Char
  | [] => []
  | '\r' :: '\n' :: cs => '\n' :: newlines cs
  | c :: cs => (if c = '\r' then '\n' else c) :: newlines cs

/-- A text file that is read with `errors="replace"`. -/
def replacing (bs : List UInt8) : String :=
  String.ofList (newlines ((decode bs).map fun c => c.getD (Char.ofNat 0xFFFD)))

/-- A text file that is read with `errors="ignore"`. -/
def ignoring (bs : List UInt8) : String := String.ofList (newlines ((decode bs).filterMap id))

/-- A text file that is read with `errors="strict"`. -/
def strict (bs : List UInt8) : Option String :=
  if (decode bs).all Option.isSome then some (ignoring bs) else none

/-- The bytes a text is written as. -/
def encode (s : String) : List UInt8 := s.toList.flatMap String.utf8EncodeChar

example : replacing [0x61, 0xE2, 0x82, 0x0D, 0x0A, 0xC3, 0xA9] = "a\uFFFD\né" := by decide +kernel

example : ignoring (encode "aé€😀") = "aé€😀" := by decide +kernel

end Utf8

end DeltaBox
