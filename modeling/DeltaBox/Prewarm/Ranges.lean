import DeltaBox.Lib.Intervals
import DeltaBox.Lib.Numerals
import Mathlib.Data.List.Sort

/-!
# The ranges to warm

`replay/guest/cooperative_prewarm.py` reads the memory map of its own process, line by line, as
procfs writes it. `anonymous_private_ranges` takes the ordinary writable anonymous mappings, in two
tiers, `_subtract` cuts excluded intervals out of a range, and `_covers` asks whether ranges cover an
interval.

* A line is cut at blanks, and the name of the mapping, if it has one, is what comes behind five
  words. It may have blanks of its own.
* The intervals that are cut out come from a set. They may overlap, and their order is any.

## Main results

* `anonymousPrivateRanges_lines` — the ranges are those of the ordinary mappings
* `subtract_tiles` — what is left of a range, in parts
* `covers_iff` — what the coverage test means
-/

namespace DeltaBox

namespace Prewarm

open Text Intervals

/-! ### The source -/

/-- `str.split(None, n)`. -/
def splitNone : ℕ → List Char → List (List Char)
  | 0, cs => if cs.dropWhile isSpace = [] then [] else [cs.dropWhile isSpace]
  | n + 1, cs =>
    if cs.dropWhile isSpace = [] then []
    else ((cs.dropWhile isSpace).takeWhile fun c => !isSpace c) ::
      splitNone n ((cs.dropWhile isSpace).dropWhile fun c => !isSpace c)

/-- The value of a hexadecimal digit, as procfs writes it. -/
def hexVal (c : Char) : Option ℕ :=
  if 48 ≤ c.toNat ∧ c.toNat ≤ 57 then some (c.toNat - 48)
  else if 97 ≤ c.toNat ∧ c.toNat ≤ 102 then some (c.toNat - 87)
  else none

/-- `int(cs, 16)`. -/
def int16 (cs : List Char) : Option ℕ :=
  if cs = [] then none else cs.foldlM (fun n c => (hexVal c).map (16 * n + ·)) 0

def hotAnonBytes : ℕ := 4 * 1024 * 1024

/-- The mappings that are taken, by name. -/
def ordinaryName (path : List Char) : Bool :=
  path = [] || path = "[heap]".toList || path = "[stack]".toList || "[anon:".toList <+: path

/-- The tier of a range, by its name and its length. -/
def tierOf (path : List Char) (length : ℕ) : ℕ :=
  if path = "[heap]".toList ∨ path = "[stack]".toList ∨ hotAnonBytes ≤ length then 1 else 2

/-- The addresses of a mapping that is taken. `none`: `ValueError`. -/
def readAddress (path address : List Char) : Option (ℕ × Interval) :=
  match address.splitOnP (· = '-') with
  | [a, b] => do
    let start ← int16 a
    let stop ← int16 b
    some (tierOf path (stop - start), (start, stop))
  | _ => none

/-- What a line says: nothing, or a range of a tier. `none`: `ValueError`. -/
def readLine (line : List Char) : Option (Option (ℕ × Interval)) :=
  let fields := splitNone 5 (strip line)
  if fields.length < 5 ∨ fields[1]? ≠ some "rw-p".toList ∨ fields[4]? ≠ some "0".toList then
    some none
  else
    let path := if fields.length = 6 then fields[5]?.getD [] else []
    if ordinaryName path = false then some none
    else (readAddress path (fields[0]?.getD [])).map some

/-- The ranges of a tier, in the order of the lines. -/
def ofTier (tier : ℕ) (found : List (ℕ × Interval)) : List Interval :=
  (found.filter (·.1 = tier)).map (·.2)

/-- `anonymous_private_ranges`. A tier without ranges is left out. -/
def anonymousPrivateRanges (lines : List (List Char)) : Option (List (ℕ × List Interval)) := do
  let found ← lines.mapM readLine
  let tiers := [(1, ofTier 1 (found.filterMap id)), (2, ofTier 2 (found.filterMap id))]
  some (tiers.filter (·.2 ≠ []))

/-- One excluded interval, cut out of one range. -/
def cut (hole range : Interval) : List Interval :=
  if range.2 ≤ hole.1 ∨ hole.2 ≤ range.1 then [range]
  else (if range.1 < hole.1 then [(range.1, hole.1)] else []) ++
    (if hole.2 < range.2 then [(hole.2, range.2)] else [])

/-- `_subtract`. -/
def subtract (range : Interval) (excluded : List Interval) : List Interval :=
  excluded.foldl (fun ranges hole => ranges.flatMap (cut hole)) [range]

/-- The order of pairs. -/
def pairLE (e f : Interval) : Prop := e.1 < f.1 ∨ e.1 = f.1 ∧ e.2 ≤ f.2

instance : DecidableRel pairLE := fun e f =>
  inferInstanceAs (Decidable (e.1 < f.1 ∨ e.1 = f.1 ∧ e.2 ≤ f.2))

/-- The loop of `_covers`. -/
def coversFrom (cursor stop : ℕ) : List Interval → Bool
  | [] => false
  | (left, right) :: ranges =>
    if right ≤ cursor then coversFrom cursor stop ranges
    else if cursor < left then false
    else if stop ≤ max cursor right then true
    else coversFrom (max cursor right) stop ranges

/-- `_covers`. -/
def covers (start stop : ℕ) (ranges : List Interval) : Bool :=
  coversFrom start stop (ranges.insertionSort pairLE)

/-! ### What procfs writes -/

/-- The protection of a mapping, and whether it is shared. -/
structure Perms where
  r : Bool
  w : Bool
  x : Bool
  shared : Bool
  deriving DecidableEq, Repr

def Perms.text (p : Perms) : List Char :=
  [if p.r then 'r' else '-', if p.w then 'w' else '-', if p.x then 'x' else '-',
    if p.shared then 's' else 'p']

/-- A mapping. The name is empty, or a path, or one that the kernel gives. -/
structure Mapping where
  range : Interval
  perms : Perms
  offset : ℕ
  dev : ℕ × ℕ
  inode : ℕ
  name : List Char

/-- `%0*lx`. -/
def hexText (width n : ℕ) : List Char :=
  List.replicate (width - (Nat.toDigits 16 n).length) '0' ++ Nat.toDigits 16 n

/-- Its line: the name stands in a column of its own. -/
def Mapping.line (m : Mapping) (pad : ℕ) : List Char :=
  (hexText 8 m.range.1 ++ '-' :: hexText 8 m.range.2) ++ ' ' :: (m.perms.text ++ ' ' ::
    (hexText 8 m.offset ++ ' ' :: ((hexText 2 m.dev.1 ++ ':' :: hexText 2 m.dev.2) ++ ' ' ::
      (Nat.toDigits 10 m.inode ++ (List.replicate (pad + 1) ' ' ++ m.name ++ ['\n'])))))

/-- Private and writable, of no file, not executable, and without a name or with an ordinary one. -/
def Mapping.ordinary (m : Mapping) : Bool :=
  m.perms = ⟨true, true, false, false⟩ && m.inode = 0 && ordinaryName (strip m.name)

/-- The tier that an ordinary mapping has. -/
def Mapping.tier (m : Mapping) : ℕ := tierOf (strip m.name) (m.range.2 - m.range.1)

/-! ### Numbers -/

theorem foldlM_hexVal_append (cs : List Char) (c : Char) (n : ℕ) :
    (cs ++ [c]).foldlM (fun n c => (hexVal c).map (16 * n + ·)) n =
      (cs.foldlM (fun n c => (hexVal c).map (16 * n + ·)) n).bind fun n =>
        (hexVal c).map (16 * n + ·) := by
  simp [List.foldlM_append]

theorem hexVal_digitChar {d : ℕ} (h : d < 16) : hexVal d.digitChar = some d := by
  revert h
  revert d
  decide

theorem digitChar_ne_dash {d : ℕ} (h : d < 16) : d.digitChar ≠ '-' := by
  revert h
  revert d
  decide

theorem int16_toDigits (n : ℕ) :
    (Nat.toDigits 16 n).foldlM (fun n c => (hexVal c).map (16 * n + ·)) 0 = some n := by
  induction n using Nat.strong_induction_on with
  | _ n ih =>
    by_cases hlt : n < 16
    · rw [Nat.toDigits_of_lt_base hlt]
      simp [hexVal_digitChar hlt]
    · rw [Nat.toDigits_eq_if (by decide), if_neg hlt, foldlM_hexVal_append,
        ih (n / 16) (by omega), hexVal_digitChar (Nat.mod_lt n (by decide))]
      show some (16 * (n / 16) + n % 16) = some n
      rw [Nat.div_add_mod]

theorem int16_hexText (width n : ℕ) : int16 (hexText width n) = some n := by
  have hzero : ∀ k, (List.replicate k '0').foldlM
      (fun n c => (hexVal c).map (16 * n + ·)) 0 = some 0 := by
    intro k
    induction k with
    | zero => rfl
    | succ k ih => rw [List.replicate_succ, List.foldlM_cons]; exact ih
  have hne : hexText width n ≠ [] := by simp [hexText, Nat.toDigits_ne_nil]
  rw [int16, if_neg hne, hexText, List.foldlM_append, hzero]
  exact int16_toDigits n

/-! ### Words -/

/-- A word: characters, and no blank among them. -/
structure Word (w : List Char) : Prop where
  ne_nil : w ≠ []
  solid : ∀ c ∈ w, isSpace c = false

theorem Word.append_cons {w v : List Char} {c : Char} (hw : Word w) (hc : isSpace c = false)
    (hv : Word v) : Word (w ++ c :: v) where
  ne_nil := by simp
  solid d hd := by
    rcases List.mem_append.mp hd with hd | hd
    · exact hw.solid d hd
    · rcases List.mem_cons.mp hd with rfl | hd
      · exact hc
      · exact hv.solid d hd

theorem word_toDigits {base : ℕ} (hlow : 1 < base) (hhigh : base ≤ 16) (n : ℕ) :
    Word (Nat.toDigits base n) where
  ne_nil := Nat.toDigits_ne_nil
  solid _ hc := isSpace_of_mem_toDigits hlow hhigh hc

theorem word_hexText (width n : ℕ) : Word (hexText width n) where
  ne_nil := by simp [hexText, Nat.toDigits_ne_nil]
  solid c hc := by
    rcases List.mem_append.mp hc with hc | hc
    · obtain rfl := List.eq_of_mem_replicate hc
      rfl
    · exact (word_toDigits (by decide) le_rfl n).solid c hc

theorem word_perms (p : Perms) : Word p.text := by
  obtain ⟨r, w, x, shared⟩ := p
  constructor
  · simp [Perms.text]
  · cases r <;> cases w <;> cases x <;> cases shared <;> simp [Perms.text] <;> decide

/-- What may stand behind a word: nothing, or a blank. -/
def Gap (rest : List Char) : Prop := rest = [] ∨ ∃ c more, rest = c :: more ∧ isSpace c = true

theorem dropWhile_word {w : List Char} (hw : Word w) (rest : List Char) :
    (w ++ rest).dropWhile isSpace = w ++ rest := by
  obtain ⟨c, cs, rfl⟩ := List.exists_cons_of_ne_nil hw.ne_nil
  rw [List.cons_append, List.dropWhile_cons_of_neg]
  simp [hw.solid c List.mem_cons_self]

theorem span_word {w rest : List Char} (hw : Word w) (hrest : Gap rest) :
    ((w ++ rest).takeWhile fun c => !isSpace c) = w ∧
      ((w ++ rest).dropWhile fun c => !isSpace c) = rest := by
  have hsolid : ∀ c ∈ w, (!isSpace c) = true := fun c hc => by rw [hw.solid c hc]; rfl
  rw [List.takeWhile_append_of_pos hsolid, List.dropWhile_append_of_pos hsolid]
  rcases hrest with rfl | ⟨c, more, rfl, hc⟩
  · simp
  · simp [hc]

/-- A word is cut off. -/
theorem splitNone_word (n : ℕ) {w rest : List Char} (hw : Word w) (hrest : Gap rest) :
    splitNone (n + 1) (w ++ rest) = w :: splitNone n rest := by
  obtain ⟨htake, hdrop⟩ := span_word hw hrest
  rw [splitNone, dropWhile_word hw, if_neg (by simp [hw.ne_nil]), htake, hdrop]

theorem splitNone_blank (n : ℕ) (cs : List Char) : splitNone n (' ' :: cs) = splitNone n cs := by
  have hdrop : (' ' :: cs).dropWhile isSpace = cs.dropWhile isSpace :=
    List.dropWhile_cons_of_pos (by decide)
  cases n <;> simp only [splitNone, hdrop]

/-- A word and the blank behind it. -/
theorem splitNone_cons (n : ℕ) {w : List Char} (hw : Word w) (rest : List Char) :
    splitNone (n + 1) (w ++ ' ' :: rest) = w :: splitNone n rest := by
  rw [splitNone_word n hw (.inr ⟨' ', rest, rfl, by decide⟩), splitNone_blank]

/-- Blanks at both ends go in either order. -/
theorem dropWhile_rstrip (q : List Char) : (rstrip q).dropWhile isSpace = strip q := by
  have hcut := List.takeWhile_append_dropWhile (p := isSpace) (l := q)
  have hlead : ∀ c ∈ q.takeWhile isSpace, isSpace c = true := fun c hc =>
    List.mem_takeWhile_imp hc
  cases hcore : q.dropWhile isSpace with
  | nil =>
    rw [hcore, List.append_nil] at hcut
    have hall : ∀ c ∈ q.reverse, isSpace c = true := fun c hc =>
      hlead c (hcut.symm ▸ List.mem_reverse.mp hc)
    rw [strip, hcore, rstrip, List.dropWhile_eq_nil_iff.mpr hall]
    rfl
  | cons c cs =>
    have hc : isSpace c = false := by
      have hhead := List.head?_dropWhile_not isSpace q
      rw [hcore] at hhead
      simpa using hhead
    have hkeep : rstrip q = q.takeWhile isSpace ++ rstrip (c :: cs) := by
      conv_lhs => rw [← hcut, hcore]
      rw [rstrip, rstrip, List.reverse_append, List.dropWhile_append, if_neg, List.reverse_append,
        List.reverse_reverse]
      rw [List.isEmpty_iff, List.dropWhile_eq_nil_iff]
      intro hall
      have hbad := hall c (by simp)
      rw [hc] at hbad
      cases hbad
    obtain ⟨more, hmore⟩ := rstrip_isPrefix (c :: cs)
    rw [strip, hcore, hkeep, List.dropWhile_append_of_pos hlead]
    cases hr : rstrip (c :: cs) with
    | nil => rfl
    | cons d ds =>
      rw [hr] at hmore
      obtain rfl : d = c := (List.cons.inj hmore).1
      rw [List.dropWhile_cons_of_neg (by simp [hc])]

/-! ### Lines -/

/-- A word at the end is not shortened. -/
theorem rstrip_word (front : List Char) {w : List Char} (hw : Word w) :
    rstrip (front ++ w) = front ++ w := by
  have hrev : Word w.reverse :=
    ⟨by simp [hw.ne_nil], fun c hc => hw.solid c (List.mem_reverse.mp hc)⟩
  rw [rstrip, List.reverse_append, dropWhile_word hrev, List.reverse_append, List.reverse_reverse,
    List.reverse_reverse]

variable (m : Mapping) (pad : ℕ)

/-- The two addresses. -/
def Mapping.address : List Char := hexText 8 m.range.1 ++ '-' :: hexText 8 m.range.2

def Mapping.devText : List Char := hexText 2 m.dev.1 ++ ':' :: hexText 2 m.dev.2

/-- The line without the name. -/
def Mapping.front : List Char :=
  m.address ++ ' ' :: (m.perms.text ++ ' ' :: (hexText 8 m.offset ++ ' ' ::
    (m.devText ++ ' ' :: Nat.toDigits 10 m.inode)))

/-- The name in its column, and the end of the line. -/
def Mapping.tail : List Char := List.replicate (pad + 1) ' ' ++ m.name ++ ['\n']

theorem word_address : Word m.address :=
  (word_hexText 8 _).append_cons (by decide) (word_hexText 8 _)

theorem word_devText : Word m.devText :=
  (word_hexText 2 _).append_cons (by decide) (word_hexText 2 _)

theorem word_inode : Word (Nat.toDigits 10 m.inode) := word_toDigits (by decide) (by decide) _

theorem line_eq : m.line pad =
    m.front ++ m.tail pad := by
  simp [Mapping.line, Mapping.front, Mapping.tail, Mapping.address, Mapping.devText]

theorem strip_line : strip (m.line pad) =
    m.front ++ rstrip (m.tail pad) := by
  have hfront : rstrip m.front = m.front := by
    have hlast := rstrip_word (m.address ++ ' ' :: (m.perms.text ++ ' ' ::
      (hexText 8 m.offset ++ ' ' :: (m.devText ++ [' '])))) (word_inode m)
    simpa [Mapping.front] using hlast
  have hstart : (m.line pad).dropWhile isSpace = m.line pad := by
    rw [line_eq, Mapping.front, List.append_assoc]
    exact dropWhile_word (word_address m) _
  rw [strip, hstart, line_eq, rstrip_append hfront]

/-- Behind the five words comes the name, without blanks around it. -/
theorem name_field :
    splitNone 0 (rstrip (m.tail pad)) =
      if strip m.name = [] then [] else [strip m.name] := by
  have hblank : ∀ c ∈ List.replicate (pad + 1) ' ', isSpace c = true := by
    intro c hc
    obtain rfl := List.eq_of_mem_replicate hc
    decide
  have hnewline : ∀ c ∈ ['\n'], isSpace c = true := by
    intro c hc
    obtain rfl := List.mem_singleton.mp hc
    decide
  rw [splitNone, dropWhile_rstrip, Mapping.tail, strip_between hblank hnewline]

theorem gap_rstrip :
    Gap (rstrip (m.tail pad)) := by
  obtain ⟨more, hmore⟩ := rstrip_isPrefix (m.tail pad)
  cases hr : rstrip (m.tail pad) with
  | nil => exact .inl rfl
  | cons c cs =>
    rw [hr, Mapping.tail] at hmore
    obtain rfl : c = ' ' := (List.cons.inj hmore).1
    exact .inr ⟨' ', cs, rfl, by decide⟩

theorem fields_line : splitNone 5 (strip (m.line pad)) =
    [m.address, m.perms.text, hexText 8 m.offset, m.devText, Nat.toDigits 10 m.inode] ++
      if strip m.name = [] then [] else [strip m.name] := by
  rw [strip_line, ← name_field m pad]
  simp only [Mapping.front, List.append_assoc, List.cons_append]
  rw [splitNone_cons _ (word_address m), splitNone_cons _ (word_perms _),
    splitNone_cons _ (word_hexText 8 _), splitNone_cons _ (word_devText m),
    splitNone_word _ (word_inode m) (gap_rstrip m pad)]
  rfl

/-- The addresses are read back. -/
theorem split_address :
    m.address.splitOnP (· = '-') = [hexText 8 m.range.1, hexText 8 m.range.2] := by
  have hdash : ∀ width n, ∀ c ∈ hexText width n, decide (c = '-') = false := by
    intro width n c hc
    rw [decide_eq_false_iff_not]
    rintro rfl
    rcases List.mem_append.mp hc with hc | hc
    · cases List.eq_of_mem_replicate hc
    · obtain ⟨d, hd, heq⟩ := of_mem_toDigits (by decide) hc
      exact digitChar_ne_dash hd heq.symm
  rw [Mapping.address, List.splitOnP_append_cons_of_forall_mem (hdash 8 _) '-' (by decide),
    List.splitOnP_eq_singleton (hdash 8 _)]

theorem perms_text_iff (p : Perms) :
    p.text = "rw-p".toList ↔ p = ⟨true, true, false, false⟩ := by
  obtain ⟨r, w, x, shared⟩ := p
  revert r w x shared
  decide

theorem toDigits_eq_zero_iff (n : ℕ) : Nat.toDigits 10 n = "0".toList ↔ n = 0 := by
  constructor
  · intro h
    have hval := Nat.ofDigitChars_ten_toDigits (n := n)
    rw [h] at hval
    exact hval.symm
  · rintro rfl
    rfl

theorem readAddress_address (path : List Char) : readAddress path m.address =
    some (tierOf path (m.range.2 - m.range.1), m.range) := by
  rw [readAddress, split_address]
  simp only [int16_hexText]
  rfl

/-- **What a line says is what the mapping is.** -/
theorem readLine_line : readLine (m.line pad) =
    some (if m.ordinary = true then some (m.tier, m.range) else none) := by
  have hpath : (if (splitNone 5 (strip (m.line pad))).length = 6 then
      (splitNone 5 (strip (m.line pad)))[5]?.getD [] else []) = strip m.name := by
    rw [fields_line]
    split_ifs with h h' h' <;> simp_all
  have hskip : ((splitNone 5 (strip (m.line pad))).length < 5 ∨
      (splitNone 5 (strip (m.line pad)))[1]? ≠ some "rw-p".toList ∨
      (splitNone 5 (strip (m.line pad)))[4]? ≠ some "0".toList) ↔
      ¬ (m.perms = ⟨true, true, false, false⟩ ∧ m.inode = 0) := by
    rw [fields_line, ← perms_text_iff, ← toDigits_eq_zero_iff, not_and_or]
    simp
  have haddress : (splitNone 5 (strip (m.line pad)))[0]?.getD [] = m.address := by
    rw [fields_line]
    rfl
  simp only [readLine]
  rw [hpath, haddress, readAddress_address]
  simp only [hskip, Mapping.ordinary, Mapping.tier, Bool.and_eq_true, decide_eq_true_eq]
  by_cases htaken : m.perms = ⟨true, true, false, false⟩ ∧ m.inode = 0
  · cases hname : ordinaryName (strip m.name) <;> simp [htaken]
  · rw [if_pos htaken, if_neg fun h => htaken h.1]

/-! ### Listings -/

/-- A listing: mappings, each with the width of the gap in front of its name. -/
abbrev Listing := List (Mapping × ℕ)

def Listing.lines (ms : Listing) : List (List Char) := ms.map fun m => m.1.line m.2

/-- The ordinary mappings. -/
def Listing.ordinary (ms : Listing) : List Mapping := (ms.map (·.1)).filter (·.ordinary)

/-- Those of a tier. -/
def Listing.ofTier (ms : Listing) (tier : ℕ) : List Interval :=
  (ms.ordinary.filter (·.tier = tier)).map (·.range)

/-- Where the ordinary mappings are. -/
def Listing.region (ms : Listing) : Finset ℕ := union (ms.ordinary.map (·.range))

/-- What is found in the lines. -/
theorem mapM_readLine (ms : Listing) :
    ms.lines.mapM readLine =
      some (ms.map fun m => if m.1.ordinary = true then some (m.1.tier, m.1.range) else none) := by
  induction ms with
  | nil => rfl
  | cons m ms ih =>
    show (m.1.line m.2 :: Listing.lines ms).mapM readLine = _
    rw [List.mapM_cons, readLine_line, ih]
    rfl

theorem filterMap_found (ms : Listing) :
    (ms.map fun m => if m.1.ordinary = true then some (m.1.tier, m.1.range) else none).filterMap id =
      ms.ordinary.map fun m => (m.tier, m.range) := by
  induction ms with
  | nil => rfl
  | cons m ms ih =>
    simp only [Listing.ordinary, List.map_cons, List.filterMap_cons, id_eq] at ih ⊢
    rw [ih]
    cases hm : m.1.ordinary <;> simp [hm]

/-- **The ranges are those of the ordinary mappings**, in their order. -/
theorem anonymousPrivateRanges_lines (ms : Listing) : anonymousPrivateRanges ms.lines =
    some ([(1, ms.ofTier 1), (2, ms.ofTier 2)].filter (·.2 ≠ [])) := by
  have htier : ∀ t, ofTier t (ms.ordinary.map fun m => (m.tier, m.range)) = ms.ofTier t := by
    intro t
    simp only [ofTier, Listing.ofTier, List.filter_map, List.map_map]
    rfl
  rw [anonymousPrivateRanges, mapM_readLine]
  show some _ = _
  rw [filterMap_found, htier, htier]

theorem tier_cases (m : Mapping) : m.tier = 1 ∨ m.tier = 2 := by
  unfold Mapping.tier tierOf
  split_ifs <;> simp

/-- The two tiers together are the ordinary mappings. -/
theorem ofTier_perm (ms : Listing) :
    (ms.ofTier 1 ++ ms.ofTier 2).Perm (ms.ordinary.map (·.range)) := by
  have hperm := List.filter_append_perm (fun m : Mapping => decide (m.tier = 1)) ms.ordinary
  have hsecond : ms.ordinary.filter (fun m => !decide (m.tier = 1)) =
      ms.ordinary.filter fun m => decide (m.tier = 2) := by
    refine List.filter_congr fun m _ => ?_
    rcases tier_cases m with h | h <;> simp [h]
  rw [hsecond] at hperm
  rw [Listing.ofTier, Listing.ofTier, ← List.map_append]
  exact hperm.map _

theorem tiers_tile {ms : Listing} (h : Apart (ms.map (·.1.range))) :
    Tiles (ms.ofTier 1 ++ ms.ofTier 2) ms.region := by
  have hordinary : Apart (ms.ordinary.map (·.range)) := by
    refine List.Pairwise.sublist (List.Sublist.map _ List.filter_sublist) ?_
    rw [List.map_map]
    exact h
  exact (Tiles.of_apart hordinary).perm (ofTier_perm ms).symm

/-- The tiers that are left out have no ranges. -/
theorem flatMap_tiers (ms : Listing) :
    ([(1, ms.ofTier 1), (2, ms.ofTier 2)].filter (·.2 ≠ [])).flatMap (·.2) =
      ms.ofTier 1 ++ ms.ofTier 2 := by
  by_cases h1 : ms.ofTier 1 = [] <;> by_cases h2 : ms.ofTier 2 = [] <;> simp [h1, h2]

/-! ### Subtraction -/

/-- What is left of a range, in parts. -/
theorem cut_tiles {hole range : Interval} (hhole : hole.1 ≤ hole.2) :
    Tiles (cut hole range) (span range \ span hole) := by
  rw [cut]
  split_ifs with hout hleft hright hright
  · refine (Tiles.singleton range).congr fun b => ?_
    simp only [Finset.mem_sdiff, Finset.mem_Ico]
    omega
  · have hdisj : Disjoint (span (range.1, hole.1)) (span (hole.2, range.2)) := by
      rw [Finset.disjoint_left]
      intro b hb hin
      simp only [Finset.mem_Ico] at hb hin
      omega
    refine ((Tiles.singleton (hole.2, range.2)).cons hdisj).congr fun b => ?_
    simp only [Finset.mem_sdiff, Finset.mem_union, Finset.mem_Ico]
    omega
  · refine (Tiles.singleton (range.1, hole.1)).congr fun b => ?_
    simp only [Finset.mem_sdiff, Finset.mem_Ico]
    omega
  · refine (Tiles.singleton (hole.2, range.2)).congr fun b => ?_
    simp only [Finset.mem_sdiff, Finset.mem_Ico]
    omega
  · refine Tiles.nil.congr fun b => ?_
    simp only [Finset.mem_sdiff, Finset.mem_Ico, Finset.notMem_empty, iff_false]
    omega

/-- **What `_subtract` leaves**, whatever the order of the holes is, and if they overlap. -/
theorem subtract_tiles (range : Interval) {excluded : List Interval}
    (h : ∀ e ∈ excluded, e.1 ≤ e.2) :
    Tiles (subtract range excluded) (span range \ union excluded) := by
  have hgen : ∀ {ranges : List Interval} {region : Finset ℕ}, Tiles ranges region →
      Tiles (excluded.foldl (fun ranges hole => ranges.flatMap (cut hole)) ranges)
        (region \ union excluded) := by
    induction excluded with
    | nil =>
      intro ranges region hranges
      rw [union_nil, Finset.sdiff_empty]
      exact hranges
    | cons e es ih =>
      intro ranges region hranges
      have hstep := hranges.flatMap fun f _ => @cut_tiles e f (h e List.mem_cons_self)
      have hrest := ih (fun f hf => h f (List.mem_cons_of_mem e hf)) hstep
      rw [union_cons, ← Finset.sup_eq_union, ← sdiff_sdiff_left]
      exact hrest
  exact hgen (Tiles.singleton range)

/-- Both ends are on page boundaries. -/
def Aligned (page : ℕ) (e : Interval) : Prop := page ∣ e.1 ∧ page ∣ e.2

instance (page : ℕ) (e : Interval) : Decidable (Aligned page e) :=
  inferInstanceAs (Decidable (_ ∧ _))

variable {page : ℕ}

theorem aligned_of_mem_cut {hole range e : Interval} (hhole : Aligned page hole)
    (hrange : Aligned page range) (he : e ∈ cut hole range) : Aligned page e := by
  rw [cut] at he
  split_ifs at he
  · exact List.mem_singleton.mp he ▸ hrange
  · simp only [List.singleton_append, List.mem_cons, List.not_mem_nil, or_false] at he
    rcases he with rfl | rfl
    · exact ⟨hrange.1, hhole.1⟩
    · exact ⟨hhole.2, hrange.2⟩
  · exact List.mem_singleton.mp he ▸ ⟨hrange.1, hhole.1⟩
  · exact List.mem_singleton.mp he ▸ ⟨hhole.2, hrange.2⟩
  · cases he

/-- The ends of what is left are ends of the range or of a hole. -/
theorem aligned_of_mem_subtract {range : Interval} (hrange : Aligned page range) :
    ∀ {excluded : List Interval}, (∀ e ∈ excluded, Aligned page e) →
      ∀ e ∈ subtract range excluded, Aligned page e := by
  have hgen : ∀ (excluded ranges : List Interval), (∀ e ∈ ranges, Aligned page e) →
      (∀ e ∈ excluded, Aligned page e) →
      ∀ e ∈ excluded.foldl (fun ranges hole => ranges.flatMap (cut hole)) ranges,
        Aligned page e := by
    intro excluded
    induction excluded with
    | nil => exact fun ranges hranges _ => hranges
    | cons hole holes ih =>
      intro ranges hranges h
      rw [List.foldl_cons]
      refine ih _ (fun e he => ?_) fun e he => h e (List.mem_cons_of_mem hole he)
      obtain ⟨f, hf, he⟩ := List.mem_flatMap.mp he
      exact aligned_of_mem_cut (h hole List.mem_cons_self) (hranges f hf) he
  exact fun {excluded} h => hgen excluded [range] (fun e he => List.mem_singleton.mp he ▸ hrange) h

/-! ### Coverage -/

/-- The loop of the test over ranges in order. -/
theorem coversFrom_iff {stop : ℕ} {ranges : List Interval}
    (hsorted : ranges.Pairwise fun e f => e.1 ≤ f.1) {cursor : ℕ} (hlt : cursor < stop) :
    coversFrom cursor stop ranges = true ↔
      ∀ b, cursor ≤ b → b < stop → b ∈ union ranges := by
  induction ranges generalizing cursor with
  | nil =>
    rw [coversFrom, union_nil]
    simp only [Bool.false_eq_true, false_iff, Finset.notMem_empty, not_forall]
    exact ⟨cursor, le_rfl, hlt, id⟩
  | cons e es ih =>
    obtain ⟨left, right⟩ := e
    obtain ⟨hhead, htail⟩ := List.pairwise_cons.mp hsorted
    rw [coversFrom, union_cons]
    simp only [Finset.mem_union, Finset.mem_Ico]
    split_ifs with hbehind hgap hdone
    · rw [ih htail hlt]
      refine forall_congr' fun b => forall_congr' fun hb => forall_congr' fun _ => ?_
      constructor
      · exact Or.inr
      · rintro (⟨-, hright⟩ | hin)
        · omega
        · exact hin
    · -- nothing further on begins in front of the cursor
      simp only [false_iff, not_forall]
      refine ⟨cursor, le_rfl, hlt, ?_⟩
      rintro (⟨hleft, -⟩ | hin)
      · omega
      · obtain ⟨f, hf, hleft, -⟩ := mem_union.mp hin
        have hle : left ≤ f.1 := hhead f hf
        omega
    · simp only [true_iff]
      intro b hb hstop
      exact .inl ⟨by omega, by omega⟩
    · rw [ih htail (by omega)]
      constructor
      · intro h b hb hstop
        by_cases hin : b < right
        · exact .inl ⟨by omega, hin⟩
        · exact .inr (h b (by omega) hstop)
      · intro h b hb hstop
        rcases h b (by omega) hstop with ⟨-, hright⟩ | hin
        · omega
        · exact hin

instance : Std.Total pairLE := ⟨fun e f => by unfold pairLE; omega⟩

instance : IsTrans Interval pairLE := ⟨fun e f g h h' => by unfold pairLE at *; omega⟩

/-- **The coverage test says whether every address is in a range.** -/
theorem covers_iff {start stop : ℕ} (hlt : start < stop) (ranges : List Interval) :
    covers start stop ranges = true ↔
      ∀ b, start ≤ b → b < stop → ∃ e ∈ ranges, e.1 ≤ b ∧ b < e.2 := by
  have hsorted : (ranges.insertionSort pairLE).Pairwise fun e f => e.1 ≤ f.1 :=
    (List.pairwise_insertionSort pairLE ranges).imp fun h => by
      unfold pairLE at h
      omega
  rw [covers, coversFrom_iff hsorted hlt]
  simp only [mem_union, List.mem_insertionSort]

end Prewarm

end DeltaBox
