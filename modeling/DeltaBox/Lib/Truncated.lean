import DeltaBox.Lib.Dumps
import Mathlib.Data.List.Infix

/-!
# JSON texts that are cut off

The text of an object, cut off somewhere inside, is not a JSON text. This is seen from the brackets
that stand outside of strings: at the end of a text that is read every one is closed, and inside the
text of an object the first one is open.

`json.loads` takes three words for numbers that JSON does not have. `json.dumps` with
`separators=(",", ":")` writes no blanks.

## Main definitions

* `Json.Decodes` — the texts that `json.loads` takes
* `Json.compact` — the text of a value, without blanks
* `Json.Stays` — a text that leaves the brackets as they were

## Main results

* `Json.not_decodes_take` — an object that is cut off is not read
-/

namespace DeltaBox

namespace Json

open OverList

/-! ### What is read -/

/-- A piece of a text. -/
inductive Piece where
  | value
  /-- A value with blanks around it. -/
  | padded
  | elements
  | members

/-- The texts that `json.loads` takes. -/
inductive Decodes : Piece → List Char → Prop
  | word {t : List Char} {v : Value} : Word false t v → Decodes .value t
  | num {t : List Char} : NumberText t → Decodes .value t
  | str {cs : List Char} {us : List ℕ} : Body false cs us → Decodes .value ('"' :: (cs ++ ['"']))
  | emptyArr {w : List Char} : IsBlank w → Decodes .value ('[' :: (w ++ [']']))
  | arr {t : List Char} : Decodes .elements t → Decodes .value ('[' :: (t ++ [']']))
  | emptyObj {w : List Char} : IsBlank w → Decodes .value ('{' :: (w ++ ['}']))
  | obj {t : List Char} : Decodes .members t → Decodes .value ('{' :: (t ++ ['}']))
  | padded {w t w' : List Char} : IsBlank w → Decodes .value t → IsBlank w' →
      Decodes .padded (w ++ t ++ w')
  | element {t : List Char} : Decodes .padded t → Decodes .elements t
  | elements {t ts : List Char} : Decodes .padded t → Decodes .elements ts →
      Decodes .elements (t ++ [','] ++ ts)
  | member {w cs w' t : List Char} {us : List ℕ} : IsBlank w → Body false cs us → IsBlank w' →
      Decodes .padded t → Decodes .members (w ++ ('"' :: (cs ++ ['"'])) ++ w' ++ [':'] ++ t)
  | members {t ts : List Char} : Decodes .members t → Decodes .members ts →
      Decodes .members (t ++ [','] ++ ts)

/-! ### What is written -/

mutual

/-- `json.dumps(v, separators=(",", ":"))`. -/
def compact : Value → List Char
  | .null => "null".toList
  | .bool true => "true".toList
  | .bool false => "false".toList
  | .num text => text
  | .str units => stringText units
  | .arr vs => '[' :: (compactElements vs ++ [']'])
  | .obj ms => '{' :: (compactMembers ms ++ ['}'])

def compactElements : List Value → List Char
  | [] => []
  | [v] => compact v
  | v :: vs => compact v ++ [','] ++ compactElements vs

def compactMembers : List (List ℕ × Value) → List Char
  | [] => []
  | [m] => compactMember m
  | m :: ms => compactMember m ++ [','] ++ compactMembers ms

def compactMember : List ℕ × Value → List Char
  | (key, v) => stringText key ++ [':'] ++ compact v

end

/-! ### Brackets -/

/-- Where a text stands: outside of strings, in one, or behind a backslash in one. -/
inductive Mode where
  | out
  | inside
  | escaped
  deriving DecidableEq, Repr

/-- The brackets that are open. -/
structure Scan where
  depth : ℤ
  mode : Mode
  deriving DecidableEq, Repr

def scanChar (s : Scan) (c : Char) : Scan :=
  match s.mode with
  | .out =>
    if c = '"' then ⟨s.depth, .inside⟩
    else if c = '{' ∨ c = '[' then ⟨s.depth + 1, .out⟩
    else if c = '}' ∨ c = ']' then ⟨s.depth - 1, .out⟩
    else s
  | .inside => if c = '"' then ⟨s.depth, .out⟩ else if c = '\\' then ⟨s.depth, .escaped⟩ else s
  | .escaped => ⟨s.depth, .inside⟩

def scan (s : Scan) (t : List Char) : Scan := t.foldl scanChar s

@[simp] theorem scan_nil (s : Scan) : scan s [] = s := rfl

@[simp] theorem scan_cons (s : Scan) (c : Char) (t : List Char) :
    scan s (c :: t) = scan (scanChar s c) t := rfl

theorem scan_append (s : Scan) (t u : List Char) : scan s (t ++ u) = scan (scan s t) u :=
  List.foldl_append

/-- A text that leaves the brackets as they were, and that closes none of those that are open in
front of it. -/
structure Stays (m : Mode) (t : List Char) : Prop where
  back : ∀ d, scan ⟨d, m⟩ t = ⟨d, m⟩
  above : ∀ d p, p <+: t → d ≤ (scan ⟨d, m⟩ p).depth

variable {m : Mode} {t u : List Char}

theorem Stays.nil : Stays m [] where
  back _ := rfl
  above d p hp := by
    obtain rfl := List.prefix_nil.mp hp
    exact Int.le_refl d

theorem Stays.append (ht : Stays m t) (hu : Stays m u) : Stays m (t ++ u) where
  back d := by rw [scan_append, ht.back, hu.back]
  above d p hp := by
    rcases List.prefix_or_prefix_of_prefix hp (List.prefix_append t u) with hp' | ⟨q, rfl⟩
    · exact ht.above d p hp'
    · rw [scan_append, ht.back]
      exact hu.above d q ((List.prefix_append_right_inj t).mp hp)

/-- Characters without a meaning of their own. -/
theorem Stays.of_fixed (h : ∀ c ∈ t, ∀ d, scanChar ⟨d, m⟩ c = ⟨d, m⟩) : Stays m t := by
  have hscan : ∀ {p : List Char}, p ⊆ t → ∀ d, scan ⟨d, m⟩ p = ⟨d, m⟩ := by
    intro p hp d
    induction p with
    | nil => rfl
    | cons c p ih =>
      rw [scan_cons, h c (hp List.mem_cons_self)]
      exact ih fun x hx => hp (List.mem_cons_of_mem c hx)
  exact ⟨hscan (List.Subset.refl t), fun d p hp => Int.le_of_eq (by rw [hscan hp.subset])⟩

/-- Inside a pair of brackets the depth is larger. -/
theorem depth_pos_inside {a b : Char} (ha : a = '{' ∨ a = '[') (h : Stays .out t) {p : List Char}
    (hp : p <+: a :: (t ++ [b])) (hnil : p ≠ []) (hwhole : p ≠ a :: (t ++ [b])) (d : ℤ) :
    d < (scan ⟨d, .out⟩ p).depth := by
  have hopen : scanChar ⟨d, .out⟩ a = ⟨d + 1, .out⟩ := by
    rcases ha with rfl | rfl <;> rfl
  rcases List.prefix_cons_iff.mp hp with rfl | ⟨q, rfl, hq⟩
  · exact absurd rfl hnil
  · rw [scan_cons, hopen]
    rcases List.prefix_concat_iff.mp hq with rfl | hq
    · exact absurd rfl hwhole
    · have habove := h.above (d + 1) q hq
      omega

theorem Stays.wrap {a b : Char} (ha : a = '{' ∨ a = '[') (hb : b = '}' ∨ b = ']')
    (h : Stays .out t) : Stays .out (a :: (t ++ [b])) := by
  have hback : ∀ d, scan ⟨d, .out⟩ (a :: (t ++ [b])) = ⟨d, .out⟩ := by
    intro d
    have hopen : scanChar ⟨d, .out⟩ a = ⟨d + 1, .out⟩ := by
      rcases ha with rfl | rfl <;> rfl
    have hclose : scanChar ⟨d + 1, .out⟩ b = ⟨d + 1 - 1, .out⟩ := by
      rcases hb with rfl | rfl <;> rfl
    rw [scan_cons, hopen, scan_append, h.back, scan_cons, hclose, scan_nil, Int.add_sub_cancel]
  refine ⟨hback, fun d p hp => ?_⟩
  by_cases hnil : p = []
  · rw [hnil]
    exact Int.le_refl d
  · by_cases hwhole : p = a :: (t ++ [b])
    · exact Int.le_of_eq (by rw [hwhole, hback])
    · exact Int.le_of_lt (depth_pos_inside ha h hp hnil hwhole d)

/-- A string. -/
theorem Stays.quoted (h : Stays .inside t) : Stays .out ('"' :: (t ++ ['"'])) where
  back d := by
    show scan ⟨d, .inside⟩ (t ++ ['"']) = _
    rw [scan_append, h.back]
    rfl
  above d p hp := by
    rcases List.prefix_cons_iff.mp hp with rfl | ⟨q, rfl, hq⟩
    · exact Int.le_refl d
    · show d ≤ (scan ⟨d, .inside⟩ q).depth
      rcases List.prefix_concat_iff.mp hq with rfl | hq
      · rw [scan_append, h.back]
        exact Int.le_refl d
      · exact h.above d q hq

theorem Stays.escape (c : Char) : Stays .inside ['\\', c] where
  back _ := rfl
  above d p hp := by
    rcases List.prefix_cons_iff.mp hp with rfl | ⟨q, rfl, hq⟩
    · exact Int.le_refl d
    · rcases List.prefix_cons_iff.mp hq with rfl | ⟨r, rfl, hr⟩
      · exact Int.le_refl d
      · obtain rfl := List.prefix_nil.mp hr
        exact Int.le_refl d

/-! ### Strings and numbers -/

theorem scanChar_inside {c : Char} (hquote : c ≠ '"') (hslash : c ≠ '\\') (d : ℤ) :
    scanChar ⟨d, .inside⟩ c = ⟨d, .inside⟩ := by
  show (if c = '"' then _ else if c = '\\' then _ else _) = _
  rw [if_neg hquote, if_neg hslash]

theorem scanChar_out {c : Char} (h : c ∉ ['"', '{', '[', '}', ']']) (d : ℤ) :
    scanChar ⟨d, .out⟩ c = ⟨d, .out⟩ := by
  simp only [List.mem_cons, List.not_mem_nil, or_false, not_or] at h
  show (if c = '"' then _ else if c = '{' ∨ c = '[' then _ else if c = '}' ∨ c = ']' then _ else _) = _
  rw [if_neg h.1, if_neg (by tauto), if_neg (by tauto)]

theorem stays_body {cs : List Char} {us : List ℕ} (h : Body false cs us) : Stays .inside cs := by
  induction h with
  | nil => exact .nil
  | plain hquote hslash _ _ ih =>
    exact (Stays.of_fixed (t := [_]) fun c hc d => by
      obtain rfl := List.mem_singleton.mp hc
      exact scanChar_inside hquote hslash d).append ih
  | bare h => cases h
  | escape _ _ ih => exact (Stays.escape _).append ih
  | unicode _ hds _ ih =>
    refine (Stays.escape 'u').append (Stays.append (Stays.of_fixed fun c hc d => ?_) ih)
    have hhex := hds c hc
    exact scanChar_inside (by rintro rfl; cases hhex) (by rintro rfl; cases hhex) d

theorem stays_blank {w : List Char} (h : IsBlank w) : Stays .out w := by
  refine .of_fixed fun c hc d => scanChar_out (fun hmem => ?_) d
  have hblank := h c hc
  simp only [blanks, List.mem_cons, List.not_mem_nil, or_false] at hblank hmem
  rcases hblank with rfl | rfl | rfl | rfl <;> simp at hmem

theorem stays_of_notMem (h : ∀ c ∈ ['"', '{', '[', '}', ']'], c ∉ t) : Stays .out t :=
  .of_fixed fun c hc d => scanChar_out (fun hmem => h c hmem hc) d

theorem stays_word {v : Value} (h : Word false t v) : Stays .out t := by
  cases h with
  | null => exact stays_of_notMem (by decide)
  | true => exact stays_of_notMem (by decide)
  | false => exact stays_of_notMem (by decide)
  | pyNone h => cases h
  | pyTrue h => cases h
  | pyFalse h => cases h

theorem stays_number (h : NumberText t) : Stays .out t := by
  rcases h with hnumber | hword
  · refine .of_fixed fun c hc d => scanChar_out (fun hmem => ?_) d
    have hchars := hnumber.chars c hc
    simp only [List.mem_cons, List.not_mem_nil, or_false] at hmem
    rcases hmem with rfl | rfl | rfl | rfl | rfl <;> revert hchars <;> decide
  · simp only [List.mem_cons, List.not_mem_nil, or_false] at hword
    rcases hword with rfl | rfl | rfl <;> exact stays_of_notMem (by decide)

theorem stays_separator : Stays .out [','] ∧ Stays .out [':'] :=
  ⟨stays_of_notMem (by decide), stays_of_notMem (by decide)⟩

/-! ### Texts -/

/-- What is read leaves the brackets as they were. -/
theorem Decodes.stays {p : Piece} (h : Decodes p t) : Stays .out t := by
  induction h with
  | word hword => exact stays_word hword
  | num hnum => exact stays_number hnum
  | str hbody => exact (stays_body hbody).quoted
  | emptyArr hblank => exact (stays_blank hblank).wrap (.inr rfl) (.inr rfl)
  | arr _ ih => exact ih.wrap (.inr rfl) (.inr rfl)
  | emptyObj hblank => exact (stays_blank hblank).wrap (.inl rfl) (.inl rfl)
  | obj _ ih => exact ih.wrap (.inl rfl) (.inl rfl)
  | padded hw _ hw' ih => exact ((stays_blank hw).append ih).append (stays_blank hw')
  | element _ ih => exact ih
  | elements _ _ ih ih' => exact (ih.append stays_separator.1).append ih'
  | member hw hbody hw' _ ih =>
    exact ((((stays_blank hw).append (stays_body hbody).quoted).append (stays_blank hw')).append
      stays_separator.2).append ih
  | members _ _ ih ih' => exact (ih.append stays_separator.1).append ih'

/-- A text that is written: printable, and it leaves the brackets as they were. -/
structure Clean (t : List Char) : Prop where
  stays : Stays .out t
  printable : Printable t

theorem Clean.append (ht : Clean t) (hu : Clean u) : Clean (t ++ u) :=
  ⟨ht.stays.append hu.stays, ht.printable.append hu.printable⟩

theorem stays_unitText (u : ℕ) : Stays .inside (unitText u) := by
  unfold unitText
  cases hlookup : shortEscapes.lookup u with
  | some c => exact .escape c
  | none =>
    simp only
    split_ifs with hrange
    · refine .of_fixed fun c hc d => ?_
      obtain rfl := List.mem_singleton.mp hc
      have hval := toNat_ofNat_of_lt (n := u) (by omega)
      refine scanChar_inside (fun heq => ?_) (fun heq => ?_) d
      · rw [heq] at hval
        obtain rfl : 34 = u := hval
        cases hlookup
      · rw [heq] at hval
        obtain rfl : 92 = u := hval
        cases hlookup
    · refine (Stays.escape 'u').append (.of_fixed fun c hc d => ?_)
      have hdigit : ∃ n < 16, c = hexDigit n := by
        simp only [List.mem_cons, List.not_mem_nil, or_false] at hc
        rcases hc with rfl | rfl | rfl | rfl <;> exact ⟨_, Nat.mod_lt _ (by decide), rfl⟩
      obtain ⟨n, hn, rfl⟩ := hdigit
      have hplain : ∀ n < 16, hexDigit n ≠ '"' ∧ hexDigit n ≠ '\\' := by decide
      exact scanChar_inside (hplain n hn).1 (hplain n hn).2 d

theorem clean_stringText (units : List ℕ) : Clean (stringText units) := by
  refine ⟨Stays.quoted ?_, printable_stringText units⟩
  induction units with
  | nil => exact .nil
  | cons u units ih =>
    rw [List.flatMap_cons]
    exact (stays_unitText u).append ih

theorem clean_separator : Clean [','] ∧ Clean [':'] :=
  ⟨⟨stays_separator.1, by decide⟩, ⟨stays_separator.2, by decide⟩⟩

theorem Clean.array (h : Clean t) : Clean ('[' :: (t ++ [']'])) :=
  ⟨h.stays.wrap (.inr rfl) (.inr rfl), .cons (by decide) (h.printable.append (by decide))⟩

theorem Clean.object (h : Clean t) : Clean ('{' :: (t ++ ['}'])) :=
  ⟨h.stays.wrap (.inl rfl) (.inl rfl), .cons (by decide) (h.printable.append (by decide))⟩

theorem Clean.nil : Clean [] := ⟨.nil, by decide⟩

mutual

theorem clean_compact : ∀ {v : Value}, Sound v → Clean (compact v)
  | .null, _ => ⟨stays_word .null, by decide⟩
  | .bool true, _ => ⟨stays_word .true, by decide⟩
  | .bool false, _ => ⟨stays_word .false, by decide⟩
  | .num _, h => ⟨stays_number h, printable_numberText h⟩
  | .str units, _ => clean_stringText units
  | .arr _, h => (clean_compactElements h).array
  | .obj _, h => (clean_compactMembers h).object

theorem clean_compactElements : ∀ {vs : List Value}, SoundElements vs → Clean (compactElements vs)
  | [], _ => .nil
  | [_], h => clean_compact h.1
  | _ :: v :: vs, h =>
    ((clean_compact h.1).append clean_separator.1).append (@clean_compactElements (v :: vs) h.2)

theorem clean_compactMembers : ∀ {ms : List (List ℕ × Value)},
    SoundMembers ms → Clean (compactMembers ms)
  | [], _ => .nil
  | [_], h => clean_compactMember h.1
  | _ :: m :: ms, h =>
    ((clean_compactMember h.1).append clean_separator.1).append (@clean_compactMembers (m :: ms) h.2)

theorem clean_compactMember : ∀ {m : List ℕ × Value}, SoundMember m → Clean (compactMember m)
  | (key, _), h => ((clean_stringText key).append clean_separator.2).append (clean_compact h)

end

/-- **An object that is cut off is not read.** -/
theorem not_decodes_take {ms : List (List ℕ × Value)} (h : SoundMembers ms) {n : ℕ} (hpos : 0 < n)
    (hlt : n < (compact (.obj ms)).length) (p : Piece) :
    ¬ Decodes p ((compact (.obj ms)).take n) := by
  intro hdecodes
  have hback := hdecodes.stays.back 0
  have hinside : Stays .out (compactMembers ms) := (clean_compactMembers h).stays
  have hlen : ((compact (.obj ms)).take n).length = n := by
    rw [List.length_take]
    omega
  have hdeep := depth_pos_inside (.inl rfl) hinside (b := '}')
    (List.take_prefix n (compact (.obj ms)))
    (fun hnil => by rw [hnil] at hlen; exact absurd hlen (by simp; omega))
    (fun hwhole => by rw [hwhole] at hlen; exact absurd hlen.symm hlt.ne) 0
  rw [hback] at hdeep
  exact absurd hdeep (Int.lt_irrefl 0)

end Json

end DeltaBox
