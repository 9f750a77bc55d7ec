import DeltaBox.Lib.Strings

/-!
# Numbers in texts

Integers as texts write them, and `int` of a text. `int` takes the decimal digits of every script,
and single underscores between digits.

## Main definitions

* `Text.Digits` — the decimal digits of Unicode
* `Text.int` — the integer that a word is

## Main results

* `Text.of_mem_toDigits` — the characters of a number
* `Text.int_toDigits` — a number is read back
-/

namespace DeltaBox

namespace Text

/-! ### Writing -/

theorem isSpace_digitChar {d : ℕ} (h : d < 16) : isSpace d.digitChar = false := by
  revert h
  revert d
  decide

/-- Every digit of a number is one below the base. -/
theorem of_mem_toDigits {base n : ℕ} {c : Char} (hbase : 1 < base) (h : c ∈ Nat.toDigits base n) :
    ∃ d < base, c = d.digitChar := by
  induction n using Nat.strong_induction_on with
  | _ n ih =>
    by_cases hlt : n < base
    · rw [Nat.toDigits_of_lt_base hlt, List.mem_singleton] at h
      exact ⟨n, hlt, h⟩
    · have hsmall : n % base < base := Nat.mod_lt n (by omega)
      rw [Nat.toDigits_eq_if hbase, if_neg hlt, List.mem_append, List.mem_singleton] at h
      rcases h with h | rfl
      · exact ih (n / base) (Nat.div_lt_self (by omega) hbase) h
      · exact ⟨n % base, hsmall, rfl⟩

/-- A number has no blank in it. -/
theorem isSpace_of_mem_toDigits {base n : ℕ} {c : Char} (hlow : 1 < base) (hhigh : base ≤ 16)
    (h : c ∈ Nat.toDigits base n) : isSpace c = false := by
  obtain ⟨d, hd, rfl⟩ := of_mem_toDigits hlow h
  exact isSpace_digitChar (by omega)

/-! ### Reading -/

/-- The decimal digits of Unicode, and their values. -/
structure Digits where
  value : Char → Option ℕ
  ascii : ∀ c : Char, c.toNat < 128 → value c = if c.isDigit then some (c.toNat - 48) else none

/-- The digits of ASCII. -/
def asciiDigits : Digits where
  value c := if c.isDigit then some (c.toNat - 48) else none
  ascii _ _ := rfl

variable (digits : Digits)

/-- What follows behind a digit, and the value so far. -/
def digitRun : ℕ → List Char → Option ℕ
  | n, [] => some n
  | n, '_' :: c :: cs => (digits.value c).bind fun d => digitRun (10 * n + d) cs
  | n, c :: cs => (digits.value c).bind fun d => digitRun (10 * n + d) cs

def natural : List Char → Option ℕ
  | [] => none
  | c :: cs => (digits.value c).bind fun d => digitRun digits d cs

/-- `int` of a word. -/
def int : List Char → Option ℤ
  | '-' :: cs => (natural digits cs).map fun n => -(n : ℤ)
  | '+' :: cs => (natural digits cs).map fun n => (n : ℤ)
  | cs => (natural digits cs).map fun n => (n : ℤ)

variable {digits}

theorem value_of_isDigit {c : Char} (h : c.isDigit = true) :
    digits.value c = some (c.toNat - 48) := by
  have hrange := Char.isDigit_iff_toNat.mp h
  have hnine : '9'.toNat = 57 := rfl
  rw [digits.ascii c (by omega), if_pos h]

theorem digitRun_of_isDigit {cs : List Char} (h : ∀ c ∈ cs, c.isDigit = true) (n : ℕ) :
    digitRun digits n cs = some (Nat.ofDigitChars 10 cs n) := by
  induction cs generalizing n with
  | nil => simp [digitRun]
  | cons c cs ih =>
    have hc := h c List.mem_cons_self
    have hrest : ∀ x ∈ cs, x.isDigit = true := fun x hx => h x (List.mem_cons_of_mem c hx)
    have hunder : c ≠ '_' := by
      rintro rfl
      cases hc
    rw [digitRun.eq_3 _ _ _ _ fun _ _ heq _ => hunder heq, value_of_isDigit hc, Option.bind_some, ih hrest,
      Nat.ofDigitChars_cons]
    rfl

/-- A number is read back. -/
theorem int_toDigits (n : ℕ) : int digits (Nat.toDigits 10 n) = some (n : ℤ) := by
  have hall : ∀ c ∈ Nat.toDigits 10 n, c.isDigit = true := fun c hc =>
    Nat.isDigit_of_mem_toDigits (by decide) (by decide) hc
  cases hn : Nat.toDigits 10 n with
  | nil => exact absurd hn Nat.toDigits_ne_nil
  | cons c cs =>
    rw [hn] at hall
    have hc := hall c List.mem_cons_self
    have hminus : c ≠ '-' := by
      rintro rfl
      cases hc
    have hplus : c ≠ '+' := by
      rintro rfl
      cases hc
    have hnat : natural digits (c :: cs) = some n := by
      rw [natural, value_of_isDigit hc, Option.bind_some,
        digitRun_of_isDigit fun x hx => hall x (List.mem_cons_of_mem c hx)]
      have hval := Nat.ofDigitChars_ten_toDigits (n := n)
      rw [hn, Nat.ofDigitChars_cons, Nat.mul_zero, Nat.zero_add] at hval
      exact congrArg some hval
    rw [int.eq_3 _ _ (fun _ heq => hminus (List.cons.inj heq).1)
      (fun _ heq => hplus (List.cons.inj heq).1), hnat]
    rfl

/-- A letter is no integer. -/
theorem int_letter {c : Char} (h : c.isAlpha = true) : int digits [c] = none := by
  have hrange : (65 ≤ c.toNat ∧ c.toNat ≤ 90) ∨ (97 ≤ c.toNat ∧ c.toNat ≤ 122) := by
    change (decide (65 ≤ c.val ∧ c.val ≤ 90) || (decide (97 ≤ c.val) && decide (c.val ≤ 122))) = true
      at h
    simp only [Bool.or_eq_true, Bool.and_eq_true, decide_eq_true_eq, UInt32.le_iff_toNat_le] at h
    exact h
  have hdigit : c.isDigit = false := by
    rw [Bool.eq_false_iff]
    intro hdigit
    have hnine : '9'.toNat = 57 := rfl
    have hzero : '0'.toNat = 48 := rfl
    have hlow := Char.isDigit_iff_toNat.mp hdigit
    omega
  have hminus : c ≠ '-' := by
    rintro rfl
    cases h
  have hplus : c ≠ '+' := by
    rintro rfl
    cases h
  rw [int.eq_3 _ _ (fun _ heq => hminus (List.cons.inj heq).1)
    (fun _ heq => hplus (List.cons.inj heq).1), natural, digits.ascii c (by omega), hdigit]
  rfl

end Text

end DeltaBox
