import DeltaBox.Lib.Utf8

/-!
# Where the characters of a text come from

A file that is read as text and written again may come out different: a faulty sequence is written as
the replacement character, and every line end as `\n`. Here each character of the text is kept together
with the bytes it was read from.

## The distinction that decides it

A text is written as it was read just when each of its characters is. No two characters that are not
can make up for one another, although a line end gets shorter and a faulty byte longer: a faulty
sequence begins like the replacement character only if the rest of it follows as faulty bytes, and then
what is written stays ahead of what was read to the end.

## Main definitions

* `Utf8.Cell`, `Utf8.cells` — a character with its bytes, and those of a file
* `Utf8.Cell.Sound` — how a character can have been read

## Main results

* `Utf8.map_char_cells`, `Utf8.flatMap_source_cells` — the text of a file, and its bytes
* `Utf8.written_eq_source_iff` — when a text is written as it was read
-/

namespace DeltaBox

namespace Utf8

open String

/-! ### The bytes of a character -/

variable {c : Char} {bs rest more : List UInt8}

/-- A byte that can only stand inside a character. -/
def IsTail (b : UInt8) : Prop := 0x80 ≤ b.toNat ∧ b.toNat ≤ 0xBF

theorem toNat_le_of_char (c : Char) : c.val.toNat < 0x110000 := by
  have := c.valid
  simp only [UInt32.isValidChar, Nat.isValidChar] at this
  omega

/-- No character begins with a byte from the inside of one. -/
theorem not_isTail_of_encode {b : UInt8} (h : utf8EncodeChar c = b :: rest) : ¬ IsTail b := by
  have hc := toNat_le_of_char c
  dsimp only [utf8EncodeChar] at h
  rintro ⟨hlo, hhi⟩
  split_ifs at h with h1 h2 h3
  all_goals
    obtain rfl := (List.cons.inj h).1
    simp only [UInt8.toNat_ofNat', Nat.reducePow] at hlo hhi
    omega

/-- What begins like the replacement character is the replacement character. -/
theorem eq_replacement {tail : List UInt8}
    (h : utf8EncodeChar c ++ rest = 0xEF :: 0xBF :: 0xBD :: tail) :
    c = Char.ofNat 0xFFFD ∧ rest = tail := by
  have hc := toNat_le_of_char c
  have hval : c.val.toNat = 0xFFFD → c = Char.ofNat 0xFFFD := fun h =>
    Char.ext (UInt32.toNat_inj.mp (h.trans (by decide)))
  dsimp only [utf8EncodeChar] at h
  split_ifs at h with h1 h2 h3
  · have hlead := congrArg UInt8.toNat (List.cons.inj h).1
    simp only [UInt8.toNat_ofNat', Nat.reducePow, UInt8.reduceToNat] at hlead
    omega
  · have hlead := congrArg UInt8.toNat (List.cons.inj h).1
    simp only [UInt8.toNat_ofNat', Nat.reducePow, UInt8.reduceToNat] at hlead
    omega
  · simp only [List.cons_append, List.nil_append, List.cons.injEq] at h
    obtain ⟨ha, hb, hd, rfl⟩ := h
    have ha' := congrArg UInt8.toNat ha
    have hb' := congrArg UInt8.toNat hb
    have hd' := congrArg UInt8.toNat hd
    simp only [UInt8.toNat_ofNat', Nat.reducePow, UInt8.reduceToNat] at ha' hb' hd'
    exact ⟨hval (by omega), rfl⟩
  · have hlead := congrArg UInt8.toNat (List.cons.inj h).1
    simp only [UInt8.toNat_ofNat', Nat.reducePow, UInt8.reduceToNat] at hlead
    omega

theorem tails_cons {n lo hi : ℕ} {b : UInt8} (h : tails (n + 1) lo hi bs = b :: more) :
    (lo ≤ b.toNat ∧ b.toNat ≤ hi) ∧ ∃ bs', tails n 0x80 0xBF bs' = more := by
  cases bs with
  | nil => cases h
  | cons b' bs =>
    rw [tails] at h
    split_ifs at h with hb
    obtain ⟨rfl, hmore⟩ := List.cons.inj h
    exact ⟨hb, bs, hmore⟩

theorem length_tails_le : ∀ (n lo hi : ℕ) (bs : List UInt8), (tails n lo hi bs).length ≤ n
  | 0, _, _, _ => by simp [tails]
  | n + 1, _, _, [] => by simp [tails]
  | n + 1, lo, hi, b :: bs => by
    rw [tails]
    split_ifs
    · exact Nat.succ_le_succ (length_tails_le n _ _ bs)
    · exact Nat.zero_le _

theorem tails_prefix : ∀ (n lo hi : ℕ) (bs : List UInt8),
    tails n lo hi bs ++ bs.drop (tails n lo hi bs).length = bs
  | 0, _, _, _ => by simp [tails]
  | n + 1, _, _, [] => by simp [tails]
  | n + 1, lo, hi, b :: bs => by
    rw [tails]
    split_ifs
    · rw [List.length_cons, List.drop_succ_cons, List.cons_append, tails_prefix n]
    · rfl

theorem toNat_ofNat_of_valid {v : ℕ} (h : v.isValidChar) : (Char.ofNat v).val.toNat = v := by
  rw [Char.ofNat, dif_pos h]
  rfl

/-- The bytes that a first byte announces. -/
theorem follow_cases {b : UInt8} {n lo hi : ℕ} (h : follow b.toNat = some (n, lo, hi)) :
    (n = 0 ∧ b.toNat < 0x80) ∨
    (n = 1 ∧ lo = 0x80 ∧ hi = 0xBF ∧ 0xC2 ≤ b.toNat ∧ b.toNat ≤ 0xDF) ∨
    (n = 2 ∧ 0xE0 ≤ b.toNat ∧ b.toNat ≤ 0xEF ∧ 0x80 ≤ lo ∧ hi ≤ 0xBF ∧
      (b.toNat = 0xE0 → lo = 0xA0) ∧ (b.toNat = 0xED → hi = 0x9F)) ∨
    (n = 3 ∧ 0xF0 ≤ b.toNat ∧ b.toNat ≤ 0xF4 ∧ 0x80 ≤ lo ∧ hi ≤ 0xBF ∧
      (b.toNat = 0xF0 → lo = 0x90) ∧ (b.toNat = 0xF4 → hi = 0x8F)) := by
  unfold follow at h
  split_ifs at h
  all_goals
    simp only [Option.some.injEq, Prod.mk.injEq] at h
    obtain ⟨rfl, rfl, rfl⟩ := h
    omega

/-- A character is written as the bytes that spelled it. -/
theorem encode_spell {b : UInt8} {n lo hi : ℕ} (h : follow b.toNat = some (n, lo, hi))
    (hlen : (tails n lo hi bs).length = n) :
    utf8EncodeChar (Char.ofNat (spell b.toNat n (tails n lo hi bs))) = b :: tails n lo hi bs := by
  have hbytes : ∀ (x : UInt8) (v : ℕ), x.toNat = v → UInt8.ofNat v = x := by
    rintro x v rfl
    exact UInt8.ofNat_toNat
  generalize htails : tails n lo hi bs = ts at hlen ⊢
  rcases follow_cases h with ⟨rfl, hb⟩ | ⟨rfl, rfl, rfl, hb⟩ | ⟨rfl, hb⟩ | ⟨rfl, hb⟩
  · obtain rfl := List.length_eq_zero_iff.mp hlen
    have hval := toNat_ofNat_of_valid (v := b.toNat) (.inl (by omega))
    simp only [spell, List.foldl_nil, if_true]
    dsimp only [utf8EncodeChar]
    rw [hval, if_pos (by omega), hbytes b _ rfl]
  · obtain ⟨t, rfl⟩ := List.length_eq_one_iff.mp hlen
    obtain ⟨ht, -⟩ := tails_cons htails
    have hspell : spell b.toNat 1 [t] = (b.toNat % 32) * 64 + t.toNat % 64 := rfl
    have hval := toNat_ofNat_of_valid (v := spell b.toNat 1 [t]) (.inl (by omega))
    dsimp only [utf8EncodeChar]
    rw [hval, if_neg (by omega), if_pos (by omega), hbytes b _ (by omega), hbytes t _ (by omega)]
  · obtain ⟨t, u, rfl⟩ := List.length_eq_two.mp hlen
    obtain ⟨ht, _, hmore⟩ := tails_cons htails
    obtain ⟨hu, -⟩ := tails_cons hmore
    have hspell : spell b.toNat 2 [t, u] =
        ((b.toNat % 16) * 64 + t.toNat % 64) * 64 + u.toNat % 64 := rfl
    have hvalid : (spell b.toNat 2 [t, u]).isValidChar := by
      by_cases hlow : spell b.toNat 2 [t, u] < 0xD800
      · exact .inl hlow
      · exact .inr ⟨by omega, by omega⟩
    have hval := toNat_ofNat_of_valid hvalid
    dsimp only [utf8EncodeChar]
    rw [hval, if_neg (by omega), if_neg (by omega), if_pos (by omega), hbytes b _ (by omega),
      hbytes t _ (by omega), hbytes u _ (by omega)]
  · obtain ⟨t, u, w, rfl⟩ := List.length_eq_three.mp hlen
    obtain ⟨ht, _, hmore⟩ := tails_cons htails
    obtain ⟨hu, _, hmore⟩ := tails_cons hmore
    obtain ⟨hw, -⟩ := tails_cons hmore
    have hspell : spell b.toNat 3 [t, u, w] =
        (((b.toNat % 8) * 64 + t.toNat % 64) * 64 + u.toNat % 64) * 64 + w.toNat % 64 := rfl
    have hval := toNat_ofNat_of_valid (v := spell b.toNat 3 [t, u, w])
      (.inr ⟨by omega, by omega⟩)
    dsimp only [utf8EncodeChar]
    rw [hval, if_neg (by omega), if_neg (by omega), if_neg (by omega), hbytes b _ (by omega),
      hbytes t _ (by omega), hbytes u _ (by omega), hbytes w _ (by omega)]

/-! ### Cells -/

/-- A character of a text, and the bytes it was read from. -/
structure Cell where
  char : Char
  source : List UInt8
  deriving DecidableEq

/-- The bytes that a character is written as. -/
def Cell.written (cell : Cell) : List UInt8 := utf8EncodeChar cell.char

/-- A character that is written as it was read. -/
def Cell.Plain (cell : Cell) : Prop := cell.source = cell.written

instance (cell : Cell) : Decidable cell.Plain := inferInstanceAs (Decidable (_ = _))

/-- The cell of a character that is put into a text. -/
def Cell.ofChar (c : Char) : Cell := ⟨c, utf8EncodeChar c⟩

/-- The characters of some bytes before the line ends are made one. The fuel is the number of bytes. -/
def rawFrom : ℕ → List UInt8 → List Cell
  | _, [] => []
  | 0, _ => []
  | fuel + 1, b :: bs =>
    match follow b.toNat with
    | none => ⟨Char.ofNat 0xFFFD, [b]⟩ :: rawFrom fuel bs
    | some (n, lo, hi) =>
      let more := tails n lo hi bs
      ⟨if more.length = n then Char.ofNat (spell b.toNat n more) else Char.ofNat 0xFFFD, b :: more⟩ ::
        rawFrom fuel (bs.drop more.length)

/-- Universal newlines. -/
def joinEnds : List Cell → List Cell
  | [] => []
  | ⟨'\r', s⟩ :: ⟨'\n', t⟩ :: cells => ⟨'\n', s ++ t⟩ :: joinEnds cells
  | cell :: cells => (if cell.char = '\r' then ⟨'\n', cell.source⟩ else cell) :: joinEnds cells

/-- The characters of a file that is read with `errors="replace"`, with their bytes. -/
def cells (bs : List UInt8) : List Cell := joinEnds (rawFrom bs.length bs)

theorem map_char_rawFrom : ∀ (fuel : ℕ) (bs : List UInt8), (rawFrom fuel bs).map Cell.char =
    (decodeFrom fuel bs).map fun c => c.getD (Char.ofNat 0xFFFD)
  | 0, [] => rfl
  | 0, _ :: _ => rfl
  | _ + 1, [] => rfl
  | fuel + 1, b :: bs => by
    rw [rawFrom, decodeFrom]
    cases follow b.toNat with
    | none => simp [map_char_rawFrom fuel]
    | some bounds =>
      simp only [List.map_cons, map_char_rawFrom fuel]
      congr 1
      split_ifs <;> rfl

theorem flatMap_source_rawFrom : ∀ (fuel : ℕ) (bs : List UInt8), bs.length ≤ fuel →
    (rawFrom fuel bs).flatMap Cell.source = bs
  | 0, [], _ => rfl
  | 0, _ :: _, h => absurd h (by simp)
  | _ + 1, [], _ => rfl
  | fuel + 1, b :: bs, h => by
    rw [rawFrom]
    have hle : bs.length ≤ fuel := Nat.le_of_succ_le_succ h
    cases follow b.toNat with
    | none => simp [flatMap_source_rawFrom fuel bs hle]
    | some bounds =>
      have hdrop : (bs.drop (tails bounds.1 bounds.2.1 bounds.2.2 bs).length).length ≤ fuel := by
        rw [List.length_drop]
        omega
      simp only [List.flatMap_cons, flatMap_source_rawFrom fuel _ hdrop, List.cons_append,
        tails_prefix]

theorem map_char_joinEnds (l : List Cell) :
    (joinEnds l).map Cell.char = newlines (l.map Cell.char) := by
  fun_induction joinEnds l with
  | case1 => rfl
  | case2 s t l ih => simp [newlines, ih]
  | case3 cell l hne ih =>
    obtain ⟨c, s⟩ := cell
    have hnewlines : newlines (c :: l.map Cell.char) =
        (if c = '\r' then '\n' else c) :: newlines (l.map Cell.char) := by
      refine newlines.eq_3 c _ ?_
      intro rest hc hl
      obtain ⟨⟨c', t⟩, l', rfl, rfl, -⟩ := List.map_eq_cons_iff.mp hl
      exact hne s t l' (by rw [hc]) rfl
    rw [List.map_cons, List.map_cons, hnewlines, ih]
    split_ifs <;> rfl

theorem flatMap_source_joinEnds (l : List Cell) :
    (joinEnds l).flatMap Cell.source = l.flatMap Cell.source := by
  fun_induction joinEnds l with
  | case1 => rfl
  | case2 s t l ih => simp [ih]
  | case3 cell l hne ih =>
    rw [List.flatMap_cons, List.flatMap_cons, ih]
    split_ifs <;> rfl

/-- The text of a file. -/
theorem map_char_cells (bs : List UInt8) : (cells bs).map Cell.char = (replacing bs).toList := by
  rw [cells, map_char_joinEnds, map_char_rawFrom, replacing, String.toList_ofList, decode]

/-- The bytes of a file. -/
theorem flatMap_source_cells (bs : List UInt8) : (cells bs).flatMap Cell.source = bs := by
  rw [cells, flatMap_source_joinEnds, flatMap_source_rawFrom _ _ le_rfl]

/-! ### How a character can have been read -/

/-- A faulty sequence: a byte that can only stand inside a character stands alone, and what begins
like the replacement character ends before it is one. -/
def Faulty : List UInt8 → Prop
  | [] => False
  | b :: bs => (IsTail b → bs = []) ∧ (b = 0xEF → bs.length ≤ 1)

/-- How a character can have been read. -/
inductive Cell.Sound : Cell → Prop
  | plain {cell : Cell} : cell.Plain → cell.Sound
  | lineEnd {bs : List UInt8} : Sound ⟨'\n', 13 :: bs⟩
  | fault {bs : List UInt8} : Faulty bs → Sound ⟨Char.ofNat 0xFFFD, bs⟩

/-- The same, before the line ends are made one. -/
inductive Cell.Raw : Cell → Prop
  | plain {cell : Cell} : cell.Plain → cell.Raw
  | fault {bs : List UInt8} : Faulty bs → Raw ⟨Char.ofNat 0xFFFD, bs⟩

theorem raw_of_mem : ∀ (fuel : ℕ) (bs : List UInt8), ∀ cell ∈ rawFrom fuel bs, cell.Raw
  | 0, [], _, h => by cases h
  | 0, _ :: _, _, h => by cases h
  | _ + 1, [], _, h => by cases h
  | fuel + 1, b :: bs, cell, h => by
    rw [rawFrom] at h
    cases hfollow : follow b.toNat with
    | none =>
      rw [hfollow] at h
      rcases List.mem_cons.mp h with rfl | h
      · exact .fault ⟨fun _ => rfl, fun _ => Nat.zero_le _⟩
      · exact raw_of_mem fuel _ cell h
    | some bounds =>
      obtain ⟨n, lo, hi⟩ := bounds
      rw [hfollow] at h
      rcases List.mem_cons.mp h with rfl | h
      · by_cases hlen : (tails n lo hi bs).length = n
        · rw [if_pos hlen]
          exact .plain (encode_spell hfollow hlen).symm
        · -- it ends too early
          rw [if_neg hlen]
          have hle := length_tails_le n lo hi bs
          have hcases := follow_cases hfollow
          refine .fault ⟨fun htail => ?_, fun hlead => ?_⟩
          · obtain ⟨hlo, hhi⟩ := htail
            omega
          · have hlead' : b.toNat = 0xEF := congrArg UInt8.toNat hlead
            omega
      · exact raw_of_mem fuel _ cell h

theorem sound_of_raw {l : List Cell} (h : ∀ cell ∈ l, cell.Raw) :
    ∀ cell ∈ joinEnds l, cell.Sound := by
  have hreturn : ∀ {s : List UInt8}, (⟨'\r', s⟩ : Cell).Raw → s = [13] := by
    rintro s (hplain | hfault)
    · exact hplain
  fun_induction joinEnds l with
  | case1 => simp
  | case2 s t l ih =>
    intro cell hcell
    rcases List.mem_cons.mp hcell with rfl | hcell
    · obtain rfl := hreturn (h _ List.mem_cons_self)
      exact .lineEnd
    · exact ih (fun cell hcell => h cell (by simp [hcell])) cell hcell
  | case3 first l hne ih =>
    intro cell hcell
    rcases List.mem_cons.mp hcell with rfl | hcell
    · obtain ⟨c, s⟩ := first
      have hraw := h _ List.mem_cons_self
      by_cases hc : c = '\r'
      · subst hc
        obtain rfl := hreturn hraw
        exact .lineEnd
      · rw [if_neg hc]
        cases hraw with
        | plain hplain => exact .plain hplain
        | fault hfault => exact .fault hfault
    · exact ih (fun cell hcell => h cell (List.mem_cons_of_mem _ hcell)) cell hcell

theorem sound_of_mem_cells (bs : List UInt8) : ∀ cell ∈ cells bs, cell.Sound :=
  sound_of_raw (raw_of_mem _ _)

/-! ### Writing what was read -/

/-- The bytes that some cells were read from. -/
def sources (l : List Cell) : List UInt8 := l.flatMap Cell.source

/-- The bytes that their characters are written as. -/
def writes (l : List Cell) : List UInt8 := l.flatMap Cell.written

@[simp] theorem sources_cons (cell : Cell) (l : List Cell) :
    sources (cell :: l) = cell.source ++ sources l := rfl

@[simp] theorem writes_cons (cell : Cell) (l : List Cell) :
    writes (cell :: l) = cell.written ++ writes l := rfl

/-- So many replacement characters. -/
def replacements (k : ℕ) : List UInt8 := (List.replicate k [0xEF, 0xBF, 0xBD]).flatten

theorem replacements_succ (k : ℕ) :
    replacements (k + 1) = 0xEF :: 0xBF :: 0xBD :: replacements k := rfl

theorem replacements_add (k m : ℕ) : replacements k ++ replacements m = replacements (k + m) := by
  rw [replacements, replacements, replacements, ← List.flatten_append, List.replicate_append_replicate]

theorem written_replacement (bs : List UInt8) :
    (⟨Char.ofNat 0xFFFD, bs⟩ : Cell).written = replacements 1 := by
  have hval := toNat_ofNat_of_valid (v := 0xFFFD) (by decide)
  dsimp only [Cell.written, utf8EncodeChar]
  rw [hval]
  rfl

/-- A byte from the inside of a character, read at the front, is a fault of its own. -/
theorem eq_cons_of_isTail {l : List Cell} (hsound : ∀ cell ∈ l, cell.Sound) {b : UInt8}
    (htail : IsTail b) (h : sources l = b :: rest) :
    ∃ l', l = ⟨Char.ofNat 0xFFFD, [b]⟩ :: l' ∧ sources l' = rest := by
  cases l with
  | nil => cases h
  | cons cell l =>
    rw [sources_cons] at h
    cases hsound cell List.mem_cons_self with
    | plain hplain =>
      exfalso
      rw [hplain, Cell.written] at h
      cases hbytes : utf8EncodeChar cell.char with
      | nil => exact utf8EncodeChar_ne_nil hbytes
      | cons b' bs =>
        rw [hbytes] at h
        exact not_isTail_of_encode hbytes ((List.cons.inj h).1 ▸ htail)
    | lineEnd =>
      obtain rfl := (List.cons.inj h).1
      exact absurd htail (by simp [IsTail])
    | @fault bs hfault =>
      cases bs with
      | nil => exact hfault.elim
      | cons b' bs =>
        obtain ⟨rfl, hrest⟩ := List.cons.inj h
        obtain rfl := hfault.1 htail
        exact ⟨l, rfl, hrest⟩

/-- **What is written stays ahead.** If what was read is what is written after some replacement
characters, then there are none of these, and all was written as it was read. -/
theorem not_ahead {l : List Cell} (hsound : ∀ cell ∈ l, cell.Sound) {k : ℕ}
    (h : sources l = replacements k ++ writes l) : k = 0 ∧ ∀ cell ∈ l, cell.Plain := by
  -- the faults at the front take three cells at once
  induction hn : l.length using Nat.strong_induction_on generalizing l k with
  | _ n ih =>
    cases l with
    | nil =>
      cases k with
      | zero => exact ⟨rfl, by simp⟩
      | succ k => cases h
    | cons cell l =>
      have hrest : ∀ cell ∈ l, cell.Sound := fun c hc => hsound c (List.mem_cons_of_mem _ hc)
      have hlt : l.length < n := by
        rw [← hn]
        exact Nat.lt_succ_self _
      rw [sources_cons, writes_cons] at h
      cases hsound cell List.mem_cons_self with
      | plain hplain =>
        rw [hplain] at h
        cases k with
        | zero =>
          obtain ⟨-, hall⟩ := ih _ hlt (k := 0) hrest (List.append_cancel_left h) rfl
          exact ⟨rfl, by simpa using ⟨hplain, hall⟩⟩
        | succ k =>
          -- it is a replacement character, and moves to the end of the others
          obtain ⟨hchar, htail⟩ := eq_replacement h
          have hwritten : cell.written = replacements 1 := by
            rw [← written_replacement [], Cell.written, Cell.written, hchar]
          have hmoved : sources l = replacements (k + 1) ++ writes l := by
            rw [← replacements_add, List.append_assoc, ← hwritten]
            exact htail
          exact absurd (ih _ hlt hrest hmoved rfl).1 (Nat.succ_ne_zero k)
      | @lineEnd bs =>
        exfalso
        cases k with
        | zero => exact absurd (List.cons.inj h).1 (by simp)
        | succ k => cases h
      | @fault bs hfault =>
        exfalso
        rw [written_replacement, ← List.append_assoc, replacements_add, replacements_succ] at h
        cases bs with
        | nil => exact hfault
        | cons b bs =>
          simp only [List.cons_append, List.cons.injEq] at h
          obtain ⟨rfl, h⟩ := h
          have hle := hfault.2 rfl
          have htailBF : IsTail 0xBF := by simp [IsTail]
          have htailBD : IsTail 0xBD := by simp [IsTail]
          -- the rest of the replacement character stands in cells of its own
          rcases bs with _ | ⟨b, bs⟩
          · obtain ⟨l₁, rfl, h₁⟩ := eq_cons_of_isTail hrest htailBF h
            have hrest₁ : ∀ cell ∈ l₁, cell.Sound := fun c hc => hrest c (List.mem_cons_of_mem _ hc)
            obtain ⟨l₂, rfl, h₂⟩ := eq_cons_of_isTail hrest₁ htailBD h₁
            have hrest₂ : ∀ cell ∈ l₂, cell.Sound := fun c hc => hrest₁ c (List.mem_cons_of_mem _ hc)
            rw [writes_cons, writes_cons, written_replacement, written_replacement,
              ← List.append_assoc, ← List.append_assoc, replacements_add, replacements_add] at h₂
            have hlt₂ : l₂.length < n := by
              rw [List.length_cons, List.length_cons] at hlt
              omega
            exact absurd (ih _ hlt₂ hrest₂ h₂ rfl).1 (Nat.succ_ne_zero _)
          · obtain rfl : bs = [] := by
              rw [List.length_cons] at hle
              exact List.length_eq_zero_iff.mp (by omega)
            simp only [List.cons_append, List.nil_append, List.cons.injEq] at h
            obtain ⟨rfl, h⟩ := h
            obtain ⟨l₁, rfl, h₁⟩ := eq_cons_of_isTail hrest htailBD h
            have hrest₁ : ∀ cell ∈ l₁, cell.Sound := fun c hc => hrest c (List.mem_cons_of_mem _ hc)
            rw [writes_cons, written_replacement, ← List.append_assoc, replacements_add] at h₁
            have hlt₁ : l₁.length < n := by
              rw [List.length_cons] at hlt
              omega
            exact absurd (ih _ hlt₁ hrest₁ h₁ rfl).1 (Nat.succ_ne_zero _)

/-- **A text is written as it was read just when each of its characters is.** -/
theorem written_eq_source_iff {l : List Cell} (hsound : ∀ cell ∈ l, cell.Sound) :
    writes l = sources l ↔ ∀ cell ∈ l, cell.Plain := by
  constructor
  · intro h
    exact (not_ahead hsound (k := 0) h.symm).2
  · intro h
    exact List.flatMap_congr fun cell hcell => (h cell hcell).symm

example : (cells [0x61, 0xE2, 0x82, 0x0D, 0x0A]).map Cell.source = [[0x61], [0xE2, 0x82], [0x0D, 0x0A]] := by
  decide +kernel

end Utf8

end DeltaBox
