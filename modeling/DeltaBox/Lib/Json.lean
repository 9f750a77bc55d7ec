import DeltaBox.Lib.Text

/-!
# JSON texts

The grammar of JSON, with two freedoms that a writer may take: a line feed, a carriage return or a
tab may stand bare in a string, and the three words may be spelled as a Python program spells them.
A text is read as a value; a string is read as its UTF-16 code units, so that an escape of half a
surrogate pair is a string as well.

## Main definitions

* `Json.Value` — values, the members of an object in their order
* `Json.Freedom` — which of the two freedoms a writer takes
* `Json.Reads` — the grammar, and what it says a text denotes
-/

namespace DeltaBox

namespace Json

open OverList

/-- A JSON value. A number is its text. -/
inductive Value where
  | null
  | bool (b : Bool)
  | num (text : List Char)
  | str (units : List ℕ)
  | arr (elements : List Value)
  | obj (members : List (List ℕ × Value))

/-- What a writer takes the liberty of. -/
structure Freedom where
  /-- Line feeds, carriage returns and tabs stand bare in strings. -/
  bare : Bool
  /-- The words are spelled `True`, `False` and `None`. -/
  words : Bool
  deriving DecidableEq

/-- JSON as it is standardized. -/
def strict : Freedom := ⟨false, false⟩

/-- Both freedoms. -/
def relaxed : Freedom := ⟨true, true⟩

/-! ### Strings -/

/-- The UTF-16 code units of a character. -/
def utf16 (c : Char) : List ℕ :=
  if c.toNat < 0x10000 then [c.toNat]
  else [0xD800 + (c.toNat - 0x10000) / 0x400, 0xDC00 + (c.toNat - 0x10000) % 0x400]

/-- What stands for a character behind a backslash. -/
def escapes : List (Char × ℕ) :=
  [('"', 34), ('\\', 92), ('/', 47), ('b', 8), ('f', 12), ('n', 10), ('r', 13), ('t', 9)]

/-- The characters that may stand bare. -/
def bareChars : List Char := ['\n', '\r', '\t']

/-- The value of four hexadecimal digits. -/
def hexValue (cs : List Char) : ℕ :=
  cs.foldl (fun n c => 16 * n + if c.isDigit then c.toNat - 48 else c.toUpper.toNat - 55) 0

def isHex (c : Char) : Bool := c.isDigit || ('a' ≤ c && c ≤ 'f') || ('A' ≤ c && c ≤ 'F')

/-- What stands between the quotes of a string, and the code units it denotes. -/
inductive Body (bare : Bool) : List Char → List ℕ → Prop
  | nil : Body bare [] []
  | plain {c : Char} {cs : List Char} {us : List ℕ} (hquote : c ≠ '"') (hslash : c ≠ '\\')
      (hcontrol : 32 ≤ c.toNat) : Body bare cs us → Body bare (c :: cs) (utf16 c ++ us)
  | bare {c : Char} {cs : List Char} {us : List ℕ} (h : bare = true) (hc : c ∈ bareChars) :
      Body bare cs us → Body bare (c :: cs) (c.toNat :: us)
  | escape {c : Char} {u : ℕ} {cs : List Char} {us : List ℕ} (hc : (c, u) ∈ escapes) :
      Body bare cs us → Body bare ('\\' :: c :: cs) (u :: us)
  | unicode {ds cs : List Char} {us : List ℕ} (hlen : ds.length = 4) (hds : ∀ d ∈ ds, isHex d) :
      Body bare cs us → Body bare ('\\' :: 'u' :: (ds ++ cs)) (hexValue ds :: us)

/-! ### Words, numbers and blanks -/

/-- The words of the grammar. -/
inductive Word (words : Bool) : List Char → Value → Prop
  | null : Word words "null".toList .null
  | true : Word words "true".toList (.bool true)
  | false : Word words "false".toList (.bool false)
  | pyNone (h : words = true) : Word words "None".toList .null
  | pyTrue (h : words = true) : Word words "True".toList (.bool true)
  | pyFalse (h : words = true) : Word words "False".toList (.bool false)

def AllDigits (cs : List Char) : Prop := cs ≠ [] ∧ ∀ c ∈ cs, c.isDigit

/-- A number: a sign, an integer without needless zeros, a fraction and an exponent. -/
structure IsNumber (text : List Char) : Prop where
  parts : ∃ sign int frac exp, text = sign ++ int ++ frac ++ exp ∧ (sign = [] ∨ sign = ['-']) ∧
    (AllDigits int ∧ (int.head? = some '0' → int = ['0'])) ∧
    (frac = [] ∨ ∃ ds, frac = '.' :: ds ∧ AllDigits ds) ∧
    (exp = [] ∨ ∃ e ∈ ['e', 'E'], ∃ esign ∈ [[], ['+'], ['-']], ∃ ds, exp = e :: (esign ++ ds) ∧
      AllDigits ds)

theorem IsNumber.chars {text : List Char} (h : IsNumber text) :
    ∀ c ∈ text, c.isDigit ∨ c ∈ ['-', '+', '.', 'e', 'E'] := by
  obtain ⟨sign, int, frac, exp, rfl, hsign, ⟨⟨-, hint⟩, -⟩, hfrac, hexp⟩ := h.parts
  intro c hc
  simp only [List.mem_append] at hc
  rcases hc with ((hc | hc) | hc) | hc
  · rcases hsign with rfl | rfl
    · cases hc
    · exact .inr (by simp_all)
  · exact .inl (hint c hc)
  · rcases hfrac with rfl | ⟨ds, rfl, -, hds⟩
    · cases hc
    · rcases List.mem_cons.mp hc with rfl | hc
      · exact .inr (by simp)
      · exact .inl (hds c hc)
  · rcases hexp with rfl | ⟨e, he, esign, hesign, ds, rfl, -, hds⟩
    · cases hc
    · rcases List.mem_cons.mp hc with rfl | hc
      · exact .inr (by simp_all)
      · rcases List.mem_append.mp hc with hc | hc
        · right
          simp only [List.mem_cons, List.not_mem_nil, or_false] at hesign
          rcases hesign with rfl | rfl | rfl
          · cases hc
          · simp_all
          · simp_all
        · exact .inl (hds c hc)

def blanks : List Char := [' ', '\t', '\n', '\r']

def IsBlank (w : List Char) : Prop := ∀ c ∈ w, c ∈ blanks

instance (w : List Char) : Decidable (IsBlank w) := inferInstanceAs (Decidable (∀ c ∈ w, _))

/-! ### The grammar -/

/-- What a piece of a text is read as: a value, the elements of an array with the blanks around them,
or the members of an object. -/
inductive Item where
  | value (v : Value)
  | elements (vs : List Value)
  | members (ms : List (List ℕ × Value))

/-- The grammar. -/
inductive Reads (free : Freedom) : List Char → Item → Prop
  | word {t : List Char} {v : Value} : Word free.words t v → Reads free t (.value v)
  | num {t : List Char} : IsNumber t → Reads free t (.value (.num t))
  | str {cs : List Char} {us : List ℕ} :
      Body free.bare cs us → Reads free ('"' :: (cs ++ ['"'])) (.value (.str us))
  | emptyArr {w : List Char} : IsBlank w → Reads free ('[' :: (w ++ [']'])) (.value (.arr []))
  | arr {t : List Char} {vs : List Value} :
      Reads free t (.elements vs) → Reads free ('[' :: (t ++ [']'])) (.value (.arr vs))
  | emptyObj {w : List Char} : IsBlank w → Reads free ('{' :: (w ++ ['}'])) (.value (.obj []))
  | obj {t : List Char} {ms : List (List ℕ × Value)} :
      Reads free t (.members ms) → Reads free ('{' :: (t ++ ['}'])) (.value (.obj ms))
  | element {w t w' : List Char} {v : Value} : IsBlank w → Reads free t (.value v) → IsBlank w' →
      Reads free (w ++ (t ++ w')) (.elements [v])
  | elements {t ts : List Char} {v : Value} {vs : List Value} : Reads free t (.elements [v]) →
      Reads free ts (.elements vs) → Reads free (t ++ ',' :: ts) (.elements (v :: vs))
  | member {w cs w' t : List Char} {us : List ℕ} {v : Value} : IsBlank w → Body free.bare cs us →
      IsBlank w' → Reads free t (.elements [v]) →
      Reads free (w ++ ('"' :: (cs ++ '"' :: (w' ++ ':' :: t)))) (.members [(us, v)])
  | members {t ts : List Char} {m : List ℕ × Value} {ms : List (List ℕ × Value)} :
      Reads free t (.members [m]) → Reads free ts (.members ms) →
      Reads free (t ++ ',' :: ts) (.members (m :: ms))

/-- A JSON text: a value with blanks around it. -/
def IsText (free : Freedom) (text : List Char) (v : Value) : Prop :=
  Reads free text (.elements [v])

end Json

end DeltaBox
