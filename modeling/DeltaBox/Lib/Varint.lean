import Mathlib.Data.List.Basic
import Mathlib.Tactic.Ring
import Mathlib.Data.UInt

/-!
# Numbers as bytes

Base-128 varints: seven bits in each byte, the lowest first, and every byte but the last one has its
high bit set. A number has many spellings, since a last byte may be zero. Beside them, numbers of
four bytes.

## Main definitions

* `Spells` — the bytes spell the number
* `encode` — the shortest spelling
* `le32`, `ofLe` — four bytes, the lowest first

## Main results

* `spells_encode`, `length_encode_le` — the shortest spelling is one, and it is short
* `ofLe_eq_iff` — four bytes are those of a number
-/

namespace DeltaBox

namespace Varint

/-- The bytes spell the number. -/
inductive Spells : List UInt8 → ℕ → Prop where
  | last {b : UInt8} (h : b.toNat < 128) : Spells [b] b.toNat
  | more {b : UInt8} {bs : List UInt8} {v : ℕ} (h : 128 ≤ b.toNat) (hs : Spells bs v) :
    Spells (b :: bs) (b.toNat % 128 + 128 * v)

/-- The shortest spelling. The fuel is the number of bytes that may follow the first one. -/
def encodeFrom : ℕ → ℕ → List UInt8
  | 0, v => [UInt8.ofNat (v % 128)]
  | n + 1, v =>
    if v < 128 then [UInt8.ofNat v] else UInt8.ofNat (v % 128 + 128) :: encodeFrom n (v / 128)

/-- The shortest spelling of a number of 64 bits. -/
def encode (v : ℕ) : List UInt8 := encodeFrom 9 v

theorem toNat_ofNat {n : ℕ} (h : n < 256) : (UInt8.ofNat n).toNat = n := by
  rw [UInt8.toNat_ofNat']
  exact Nat.mod_eq_of_lt h

theorem spells_encodeFrom (n v : ℕ) (h : v < 128 ^ (n + 1)) : Spells (encodeFrom n v) v := by
  induction n generalizing v with
  | zero =>
    have hv : v < 128 := by simpa using h
    have hb := toNat_ofNat (n := v) (by omega)
    rw [encodeFrom, Nat.mod_eq_of_lt hv]
    have hlast := Spells.last (b := UInt8.ofNat v) (by omega)
    rwa [hb] at hlast
  | succ n ih =>
    rw [encodeFrom]
    split_ifs with hv
    · have hb := toNat_ofNat (n := v) (by omega)
      have hlast := Spells.last (b := UInt8.ofNat v) (by omega)
      rwa [hb] at hlast
    · have hdiv : v / 128 < 128 ^ (n + 1) := by
        rw [Nat.div_lt_iff_lt_mul (by decide), ← pow_succ]
        exact h
      have hb := toNat_ofNat (n := v % 128 + 128) (by omega)
      have hmore := Spells.more (b := UInt8.ofNat (v % 128 + 128)) (by omega) (ih _ hdiv)
      rw [hb] at hmore
      have hsum : (v % 128 + 128) % 128 + 128 * (v / 128) = v := by omega
      rwa [hsum] at hmore

theorem length_encodeFrom_le (n v : ℕ) : (encodeFrom n v).length ≤ n + 1 := by
  induction n generalizing v with
  | zero => exact le_refl 1
  | succ n ih =>
    rw [encodeFrom]
    split_ifs
    · simp
    · have := ih (v / 128)
      simp only [List.length_cons]
      omega

/-- **The shortest spelling is one.** -/
theorem spells_encode {v : ℕ} (h : v < 2 ^ 64) : Spells (encode v) v :=
  spells_encodeFrom 9 v (lt_of_lt_of_le h (by decide))

/-- **It has at most ten bytes.** -/
theorem length_encode_le (v : ℕ) : (encode v).length ≤ 10 := length_encodeFrom_le 9 v

theorem Spells.ne_nil {bs : List UInt8} {v : ℕ} (h : Spells bs v) : bs ≠ [] := by
  cases h <;> simp

theorem encode_ne_nil (v : ℕ) : encode v ≠ [] := by
  rw [encode, encodeFrom]
  split_ifs <;> simp

/-! ### Four bytes -/

/-- Four bytes, the lowest first. -/
def le32 (n : ℕ) : List UInt8 :=
  [UInt8.ofNat (n % 256), UInt8.ofNat (n / 256 % 256), UInt8.ofNat (n / 65536 % 256),
    UInt8.ofNat (n / 16777216 % 256)]

/-- The number of some bytes, the lowest first. -/
def ofLe : List UInt8 → ℕ
  | [] => 0
  | b :: bs => b.toNat + 256 * ofLe bs

theorem length_le32 (n : ℕ) : (le32 n).length = 4 := rfl

theorem ofLe_le32 {n : ℕ} (h : n < 2 ^ 32) : ofLe (le32 n) = n := by
  have hbyte : ∀ k, (UInt8.ofNat (k % 256)).toNat = k % 256 := fun k => toNat_ofNat (by omega)
  simp only [le32, ofLe, hbyte]
  omega

theorem le32_ofLe {bs : List UInt8} (h : bs.length = 4) : le32 (ofLe bs) = bs := by
  obtain ⟨a, b, c, d, rfl⟩ : ∃ a b c d, bs = [a, b, c, d] := by
    match bs, h with
    | [a, b, c, d], _ => exact ⟨a, b, c, d, rfl⟩
  have ha := a.toNat_lt
  have hb := b.toNat_lt
  have hc := c.toNat_lt
  have hd := d.toNat_lt
  have hof : ofLe [a, b, c, d] =
      a.toNat + 256 * b.toNat + 65536 * c.toNat + 16777216 * d.toNat := by
    simp only [ofLe]
    ring
  rw [hof, le32, show (a.toNat + 256 * b.toNat + 65536 * c.toNat + 16777216 * d.toNat) % 256 =
      a.toNat by omega,
    show (a.toNat + 256 * b.toNat + 65536 * c.toNat + 16777216 * d.toNat) / 256 % 256 =
      b.toNat by omega,
    show (a.toNat + 256 * b.toNat + 65536 * c.toNat + 16777216 * d.toNat) / 65536 % 256 =
      c.toNat by omega,
    show (a.toNat + 256 * b.toNat + 65536 * c.toNat + 16777216 * d.toNat) / 16777216 % 256 =
      d.toNat by omega]
  simp

/-- **Four bytes are those of a number.** -/
theorem ofLe_eq_iff {bs : List UInt8} {n : ℕ} (h : bs.length = 4) (hn : n < 2 ^ 32) :
    ofLe bs = n ↔ bs = le32 n := by
  constructor
  · rintro rfl
    exact (le32_ofLe h).symm
  · rintro rfl
    exact ofLe_le32 hn

end Varint

end DeltaBox
