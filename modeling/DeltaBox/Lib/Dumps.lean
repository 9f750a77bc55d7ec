import DeltaBox.Lib.Json

/-!
# Writing JSON

`json.dumps` with its defaults: one line of printable ASCII. Everything else in a string is escaped, so
that no control character is ever written.

## Main definitions

* `Json.dumps` — the text of a value
* `Json.Sound` — the numbers of a value are numbers

## Main results

* `Json.printable_dumps` — the text consists of printable ASCII characters
-/

namespace DeltaBox

namespace Json

/-! ### Strings -/

def hexDigit (n : ℕ) : Char := if n < 10 then Char.ofNat (48 + n) else Char.ofNat (87 + n)

/-- `'\\u{0:04x}'`. -/
def unicodeEscape (u : ℕ) : List Char :=
  ['\\', 'u', hexDigit (u / 4096 % 16), hexDigit (u / 256 % 16), hexDigit (u / 16 % 16),
    hexDigit (u % 16)]

/-- The escapes with a letter. A slash is not escaped. -/
def shortEscapes : List (ℕ × Char) :=
  [(34, '"'), (92, '\\'), (10, 'n'), (13, 'r'), (9, 't'), (12, 'f'), (8, 'b')]

/-- The text of a code unit. -/
def unitText (u : ℕ) : List Char :=
  match shortEscapes.lookup u with
  | some c => ['\\', c]
  | none => if 32 ≤ u ∧ u ≤ 126 then [Char.ofNat u] else unicodeEscape u

def stringText (units : List ℕ) : List Char := '"' :: (units.flatMap unitText ++ ['"'])

/-! ### Values -/

mutual

/-- `json.dumps`. -/
def dumps : Value → List Char
  | .null => "null".toList
  | .bool true => "true".toList
  | .bool false => "false".toList
  | .num text => text
  | .str units => stringText units
  | .arr vs => '[' :: (dumpsElements vs ++ [']'])
  | .obj ms => '{' :: (dumpsMembers ms ++ ['}'])

def dumpsElements : List Value → List Char
  | [] => []
  | [v] => dumps v
  | v :: vs => dumps v ++ ", ".toList ++ dumpsElements vs

def dumpsMembers : List (List ℕ × Value) → List Char
  | [] => []
  | [m] => dumpsMember m
  | m :: ms => dumpsMember m ++ ", ".toList ++ dumpsMembers ms

def dumpsMember : List ℕ × Value → List Char
  | (key, v) => stringText key ++ ": ".toList ++ dumps v

end

/-- The text of a number: one of the grammar, or one of the words of the language. -/
def NumberText (text : List Char) : Prop :=
  IsNumber text ∨ text ∈ ["NaN".toList, "Infinity".toList, "-Infinity".toList]

mutual

/-- The numbers of a value are numbers. -/
def Sound : Value → Prop
  | .num text => NumberText text
  | .arr vs => SoundElements vs
  | .obj ms => SoundMembers ms
  | _ => True

def SoundElements : List Value → Prop
  | [] => True
  | v :: vs => Sound v ∧ SoundElements vs

def SoundMembers : List (List ℕ × Value) → Prop
  | [] => True
  | m :: ms => SoundMember m ∧ SoundMembers ms

def SoundMember : List ℕ × Value → Prop
  | (_, v) => Sound v

end

/-! ### Printable texts -/

/-- Printable ASCII. -/
def Printable (cs : List Char) : Prop := ∀ c ∈ cs, 32 ≤ c.toNat ∧ c.toNat ≤ 126

open OverList in
instance (cs : List Char) : Decidable (Printable cs) :=
  inferInstanceAs (Decidable (∀ c ∈ cs, 32 ≤ c.toNat ∧ c.toNat ≤ 126))

theorem Printable.append {cs ds : List Char} (h : Printable cs) (h' : Printable ds) :
    Printable (cs ++ ds) := fun c hc => (List.mem_append.mp hc).elim (h c) (h' c)

theorem Printable.cons {c : Char} {cs : List Char} (hc : 32 ≤ c.toNat ∧ c.toNat ≤ 126)
    (h : Printable cs) : Printable (c :: cs) :=
  fun d hd => (List.mem_cons.mp hd).elim (fun heq => heq ▸ hc) (h d)

theorem toNat_ofNat_of_lt {n : ℕ} (h : n < 128) : (Char.ofNat n).toNat = n := by
  have hvalid : n.isValidChar := .inl (by omega)
  rw [Char.ofNat, dif_pos hvalid]
  rfl

theorem printable_hexDigit {n : ℕ} (h : n < 16) :
    32 ≤ (hexDigit n).toNat ∧ (hexDigit n).toNat ≤ 126 := by
  unfold hexDigit
  split_ifs
  · rw [toNat_ofNat_of_lt (by omega)]
    omega
  · rw [toNat_ofNat_of_lt (by omega)]
    omega

theorem printable_unitText (u : ℕ) : Printable (unitText u) := by
  unfold unitText
  cases hlookup : shortEscapes.lookup u with
  | some c =>
    have hmem : c ∈ shortEscapes.map Prod.snd := by
      obtain ⟨front, behind, heq, -⟩ := List.lookup_eq_some_iff.mp hlookup
      rw [heq]
      simp
    have hall : ∀ c ∈ shortEscapes.map Prod.snd, 32 ≤ c.toNat ∧ c.toNat ≤ 126 := by
      open OverList in decide
    exact Printable.cons (by decide) (Printable.cons (hall c hmem) (by simp [Printable]))
  | none =>
    simp only
    split_ifs with hrange
    · intro c hc
      obtain rfl := List.mem_singleton.mp hc
      rwa [toNat_ofNat_of_lt (by omega)]
    · unfold unicodeEscape
      exact .cons (by decide) (.cons (by decide) (.cons (printable_hexDigit (by omega))
        (.cons (printable_hexDigit (by omega)) (.cons (printable_hexDigit (by omega))
          (.cons (printable_hexDigit (by omega)) (by simp [Printable]))))))

theorem printable_stringText (units : List ℕ) : Printable (stringText units) := by
  refine .cons (by decide) (.append (fun c hc => ?_) (by decide))
  obtain ⟨u, -, hu⟩ := List.mem_flatMap.mp hc
  exact printable_unitText u c hu

theorem printable_numberText {text : List Char} (h : NumberText text) : Printable text := by
  rcases h with hnumber | hword
  · intro c hc
    rcases hnumber.chars c hc with hdigit | hsign
    · obtain ⟨hlo, hhi⟩ := Char.isDigit_iff_toNat.mp hdigit
      have hzero : '0'.toNat = 48 := rfl
      have hnine : '9'.toNat = 57 := rfl
      omega
    · have hall : ∀ c ∈ ['-', '+', '.', 'e', 'E'], 32 ≤ c.toNat ∧ c.toNat ≤ 126 := by
        open OverList in decide
      exact hall c hsign
  · have hall : ∀ text ∈ ["NaN".toList, "Infinity".toList, "-Infinity".toList], Printable text := by
      decide +kernel
    exact hall text hword

mutual

/-- **The text of a value is printable ASCII.** -/
theorem printable_dumps : ∀ {v : Value}, Sound v → Printable (dumps v)
  | .null, _ => by decide
  | .bool true, _ => by decide
  | .bool false, _ => by decide
  | .num _, h => printable_numberText h
  | .str units, _ => printable_stringText units
  | .arr _, h => .cons (by decide) (.append (printable_dumpsElements h) (by decide))
  | .obj _, h => .cons (by decide) (.append (printable_dumpsMembers h) (by decide))

theorem printable_dumpsElements : ∀ {vs : List Value}, SoundElements vs → Printable (dumpsElements vs)
  | [], _ => by simp [dumpsElements, Printable]
  | [_], h => printable_dumps h.1
  | _ :: v :: vs, h =>
    ((printable_dumps h.1).append (by decide)).append (@printable_dumpsElements (v :: vs) h.2)

theorem printable_dumpsMembers : ∀ {ms : List (List ℕ × Value)},
    SoundMembers ms → Printable (dumpsMembers ms)
  | [], _ => by simp [dumpsMembers, Printable]
  | [_], h => printable_dumpsMember h.1
  | _ :: m :: ms, h =>
    ((printable_dumpsMember h.1).append (by decide)).append (@printable_dumpsMembers (m :: ms) h.2)

theorem printable_dumpsMember : ∀ {m : List ℕ × Value}, SoundMember m → Printable (dumpsMember m)
  | (key, _), h => ((printable_stringText key).append (by decide)).append (printable_dumps h)

end

example : dumps (.obj [("a\n".toList.map Char.toNat, .arr [.num ['1'], .null])]) =
    "\x7b\"a\\n\": [1, null]\x7d".toList := by decide +kernel

end Json

end DeltaBox
