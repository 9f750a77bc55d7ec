import DeltaBox.Actions.Edits
import Mathlib.Data.List.Forall2

/-!
# Only what was asked for

An action that succeeds should leave every byte outside of the places it replaces, and one that does
not succeed should leave the file. Reading with replacement and universal newlines makes the first
false for a file with a carriage return or a faulty byte outside of these places. The second is false
for a text with a surrogate: the file is empty by the time the text is encoded.

## Main definitions

* `Call`, `Call.run`, `Call.asked` — the calls of the actions, and the places they ask to replace
* `splice` — the bytes of a file with these places replaced
* `OnlyAsked` — what should hold of a call
* `Call.Safe` — when it does

## Main results

* `onlyAsked_iff` — an action changes only what was asked for just when its call is safe
* `line_ends_rewritten` — an edit that rewrites the other lines
-/

namespace DeltaBox

namespace Actions

open Utf8 Text

/-! ### Calls -/

/-- A call of an editing action, apart from its path. -/
inductive Call where
  | stringReplace (old new : Str)
  | regexReplace (pattern replacement : Str) (count : Option Value)
  | replaceLines (startLine endLine : Option Value) (new : Str)
  | appendFile (new : Str)

variable (re : Regex) (path : String)

def Call.run (file : Option (List UInt8)) : Call → Result
  | .stringReplace old new => Actions.stringReplace path file old new
  | .regexReplace pattern replacement count => Actions.regexReplace re path file pattern replacement count
  | .replaceLines startLine endLine new => Actions.replaceLines path file startLine endLine new
  | .appendFile new => Actions.appendFile path file new

/-- The places that a call asks to replace in a text. There are none if it is to be refused. -/
def Call.asked (cs : List Char) : Call → Option (List Hit)
  | .stringReplace old new =>
    if old = new ∨ count old (ofChars cs) ≠ 1 then none
    else (find old (ofChars cs)).map fun e => [⟨e.1.length, old.length, new⟩]
  | .regexReplace pattern replacement count =>
    match re.compile pattern, intOr count 1 with
    | .ok subn, some n => (subn replacement cs (max 1 (min n 20)).toNat).filter fun hits =>
        hits ≠ [] ∧ substitute hits (ofChars cs) ≠ ofChars cs
    | _, _ => none
  | .replaceLines startLine endLine new => do
    let lines := splitlinesKeep cs
    let start ← startLine.bind Value.int?
    let stop ← intOr endLine start
    let block := ((lines.take stop.toNat).drop (start.toNat - 1)).flatten
    if 1 ≤ start ∧ start ≤ stop ∧ stop ≤ lines.length ∧ ofChars block ≠ lineText new then
      some [⟨(lines.take (start.toNat - 1)).flatten.length, block.length, lineText new⟩]
    else none
  | .appendFile new => some [⟨cs.length, 0, separator cs ++ new⟩]

/-- The bytes of a file with some places replaced, none if the new text cannot be written. -/
def splice : List Hit → List Cell → Option (List UInt8)
  | [], cells => some (sources cells)
  | hit :: hits, cells => do
    let new ← encode? hit.new
    let rest ← splice hits (cells.drop (hit.skip + hit.length))
    some (sources (cells.take hit.skip) ++ new ++ rest)

/-- The characters outside of the places. -/
def kept : List Hit → List Cell → List Cell
  | [], cells => cells
  | hit :: hits, cells => cells.take hit.skip ++ kept hits (cells.drop (hit.skip + hit.length))

/-- What should hold of a call: if it succeeds then nothing else has changed, and if it does not
then nothing has. -/
def OnlyAsked (call : Call) (bs : List UInt8) : Prop :=
  if (call.run re path (some bs)).report = .edited then
    ∃ hits, call.asked re (readText bs) = some hits ∧
      (call.run re path (some bs)).file = splice hits (cells bs)
  else (call.run re path (some bs)).file = some bs

/-- A string without surrogates. -/
def Encodable (cs : Str) : Prop := ∀ c ∈ cs, ∃ c', c = Code.char c'

/-- A call that is refused; or else its new text can be written, and outside of its places the file
has neither carriage returns nor faulty bytes. -/
def Call.Safe (bs : List UInt8) (call : Call) : Prop :=
  ∀ hits, call.asked re (readText bs) = some hits →
    ((∀ hit ∈ hits, Encodable hit.new) ∨ bs = []) ∧ ∀ cell ∈ kept hits (cells bs), cell.Plain

variable {re path} {bs : List UInt8} {cs : Str} {hits : List Hit} {call : Call}

/-! ### Strings -/

theorem ofChars_append (xs ys : List Char) : ofChars (xs ++ ys) = ofChars xs ++ ofChars ys :=
  List.map_append

theorem encode?_ofChars (xs : List Char) :
    encode? (ofChars xs) = some (xs.flatMap String.utf8EncodeChar) := by
  induction xs with
  | nil => rfl
  | cons x xs ih =>
    rw [ofChars, List.map_cons, encode?, ← ofChars, ih]
    rfl

theorem encodable_iff : Encodable cs ↔ ∃ xs, cs = ofChars xs := by
  induction cs with
  | nil => exact ⟨fun _ => ⟨[], rfl⟩, fun _ => by simp [Encodable]⟩
  | cons c cs ih =>
    constructor
    · intro h
      obtain ⟨x, rfl⟩ := h c List.mem_cons_self
      obtain ⟨xs, rfl⟩ := ih.mp fun c hc => h c (List.mem_cons_of_mem _ hc)
      exact ⟨x :: xs, rfl⟩
    · rintro ⟨xs, hxs⟩ c' hc'
      rw [hxs] at hc'
      obtain ⟨x, -, rfl⟩ := List.mem_map.mp hc'
      exact ⟨x, rfl⟩

theorem encode?_eq_none (h : ¬ Encodable cs) : encode? cs = none := by
  induction cs with
  | nil => exact absurd (by simp [Encodable]) h
  | cons c cs ih =>
    cases c with
    | surrogate n => rfl
    | char c =>
      have hrest : ¬ Encodable cs := fun hcs => h fun c' hc' => by
        rcases List.mem_cons.mp hc' with rfl | hc'
        · exact ⟨c, rfl⟩
        · exact hcs c' hc'
      rw [encode?, ih hrest]
      rfl

theorem find_eq_some {sub before behind : Str} (h : find sub cs = some (before, behind)) :
    cs = before ++ sub ++ behind := by
  induction cs generalizing before with
  | nil =>
    rw [find] at h
    split_ifs at h with hsub
    obtain ⟨rfl, rfl⟩ := Prod.mk.inj (Option.some.inj h)
    rw [hsub]
    rfl
  | cons c cs ih =>
    rw [find] at h
    split_ifs at h with hprefix
    · obtain ⟨rfl, rfl⟩ := Prod.mk.inj (Option.some.inj h)
      rw [List.nil_append]
      exact List.prefix_iff_eq_append.mp hprefix |>.symm
    · obtain ⟨⟨before', behind'⟩, hfind, heq⟩ := Option.map_eq_some_iff.mp h
      obtain ⟨rfl, rfl⟩ := Prod.mk.inj heq
      rw [ih hfind]
      rfl

theorem exists_find {sub : Str} (h : count sub cs ≠ 0) : ∃ e, find sub cs = some e := by
  unfold count at h
  cases hfind : find sub cs with
  | some e => exact ⟨e, rfl⟩
  | none =>
    exfalso
    split_ifs at h with hsub
    · -- the empty string is everywhere
      subst hsub
      cases cs with
      | nil => cases hfind
      | cons c cs => simp [find] at hfind
    · cases hlen : cs.length with
      | zero => simp [hlen, countFrom] at h
      | succ n => simp [hlen, countFrom, hfind] at h

/-! ### The text behind the replacements -/

/-- One place that is replaced. -/
theorem substitute_singleton {before old behind : Str} (new : Str) :
    substitute [⟨before.length, old.length, new⟩] (before ++ old ++ behind) =
      before ++ new ++ behind := by
  have hdrop : (before ++ old ++ behind).drop (before.length + old.length) = behind := by
    rw [← List.length_append, List.drop_left]
  rw [substitute, substitute, hdrop, List.append_assoc before old, List.take_left]

/-- The characters of a file and of the new text, in their places. -/
def merged : List Hit → List Cell → List Cell
  | [], cells => cells
  | hit :: hits, cells =>
    cells.take hit.skip ++
      (hit.new.filterMap fun c => match c with
        | .char c => some (Cell.ofChar c)
        | .surrogate _ => none) ++
      merged hits (cells.drop (hit.skip + hit.length))

theorem filterMap_ofChars (xs : List Char) : ((ofChars xs).filterMap fun c => match c with
    | .char c => some (Cell.ofChar c)
    | .surrogate _ => none) = xs.map Cell.ofChar := by
  rw [ofChars, List.filterMap_map, ← List.filterMap_eq_map]
  rfl

/-- What is asked for, in terms of the characters in their places. -/
theorem substitute_eq {l : List Cell} (h : ∀ hit ∈ hits, Encodable hit.new) :
    substitute hits (ofChars (l.map Cell.char)) = ofChars ((merged hits l).map Cell.char) ∧
      splice hits l = some (sources (merged hits l)) := by
  induction hits generalizing l with
  | nil => exact ⟨rfl, rfl⟩
  | cons hit hits ih =>
    obtain ⟨xs, hxs⟩ := encodable_iff.mp (h hit List.mem_cons_self)
    obtain ⟨htext, hbytes⟩ := @ih (l.drop (hit.skip + hit.length))
      fun hit' hhit' => h hit' (List.mem_cons_of_mem _ hhit')
    constructor
    · rw [substitute, merged, hxs, filterMap_ofChars, List.map_append, List.map_append,
        ofChars_append, ofChars_append, ← htext]
      congr 2
      · rw [ofChars, ofChars, List.map_take, List.map_take]
      · simp [ofChars, Cell.ofChar, Function.comp_def]
      · rw [ofChars, ofChars, List.map_drop, List.map_drop]
    · have hnew : sources (xs.map Cell.ofChar) = xs.flatMap String.utf8EncodeChar := by
        rw [sources, List.flatMap_map]
        rfl
      rw [splice, merged, hxs, filterMap_ofChars, encode?_ofChars, hbytes]
      simp only [Option.bind_eq_bind, Option.bind_some, sources, List.flatMap_append] at hnew ⊢
      rw [hnew]

theorem mem_merged_sound {l : List Cell} (hsound : ∀ cell ∈ l, cell.Sound) :
    ∀ cell ∈ merged hits l, cell.Sound := by
  induction hits generalizing l with
  | nil => exact hsound
  | cons hit hits ih =>
    intro cell hcell
    rcases List.mem_append.mp hcell with hcell | hcell
    · rcases List.mem_append.mp hcell with hcell | hcell
      · exact hsound cell (List.mem_of_mem_take hcell)
      · obtain ⟨c, -, hc⟩ := List.mem_filterMap.mp hcell
        cases c with
        | surrogate n => cases hc
        | char c =>
          obtain rfl := Option.some.inj hc
          exact .plain rfl
    · exact ih (fun cell hcell => hsound cell (List.mem_of_mem_drop hcell)) cell hcell

/-- The new text is written as it is, so that only the other characters count. -/
theorem merged_plain_iff {l : List Cell} :
    (∀ cell ∈ merged hits l, cell.Plain) ↔ ∀ cell ∈ kept hits l, cell.Plain := by
  induction hits generalizing l with
  | nil => rfl
  | cons hit hits ih =>
    have hnew : ∀ cell ∈ (hit.new.filterMap fun c => match c with
        | .char c => some (Cell.ofChar c)
        | .surrogate _ => none), cell.Plain := by
      intro cell hcell
      obtain ⟨c, -, hc⟩ := List.mem_filterMap.mp hcell
      cases c with
      | surrogate n => cases hc
      | char c =>
        obtain rfl := Option.some.inj hc
        rfl
    rw [merged, kept]
    simp only [List.forall_mem_append, ih]
    exact ⟨fun h => ⟨h.1.1, h.2⟩, fun h => ⟨⟨h.1, hnew⟩, h.2⟩⟩

/-- A surrogate of the new text is in the text. -/
theorem not_encodable_substitute (h : ¬ ∀ hit ∈ hits, Encodable hit.new) :
    ¬ Encodable (substitute hits cs) := by
  induction hits generalizing cs with
  | nil => exact absurd (by simp) h
  | cons hit hits ih =>
    intro hall
    rw [substitute] at hall
    have hnew : Encodable hit.new := fun c hc => hall c (by simp [hc])
    have hrest : Encodable (substitute hits (cs.drop (hit.skip + hit.length))) :=
      fun c hc => hall c (by simp [hc])
    refine ih (fun hhits => h fun hit' hhit' => ?_) hrest
    rcases List.mem_cons.mp hhit' with rfl | hhit'
    · exact hnew
    · exact hhits hit' hhit'

/-! ### What the actions do -/

/-- A call is refused and leaves the file, or it writes the text with the places that it asks for
replaced. -/
def Spec (re : Regex) (path : String) (call : Call) (bs : List UInt8) : Prop :=
  (call.asked re (readText bs) = none ∧ (call.run re path (some bs)).report ≠ .edited ∧
    (call.run re path (some bs)).file = some bs) ∨
  ∃ hits, call.asked re (readText bs) = some hits ∧
    call.run re path (some bs) = writeText (substitute hits (ofChars (readText bs)))

theorem stringReplace_spec (old new : Str) : Spec re path (.stringReplace old new) bs := by
  by_cases heq : old = new
  · refine .inl ⟨by simp [Call.asked, heq], ?_, ?_⟩ <;> simp [Call.run, stringReplace, heq]
  by_cases hzero : count old (ofChars (readText bs)) = 0
  · refine .inl ⟨by simp [Call.asked, hzero], ?_, ?_⟩ <;> simp [Call.run, stringReplace, heq, hzero]
  by_cases hmany : 1 < count old (ofChars (readText bs))
  · refine .inl ⟨by simp [Call.asked, Nat.ne_of_gt hmany], ?_, ?_⟩ <;>
      simp [Call.run, stringReplace, heq, hzero, hmany]
  · have hone : count old (ofChars (readText bs)) = 1 := by omega
    obtain ⟨⟨before, behind⟩, hfind⟩ := exists_find hzero
    refine .inr ⟨[⟨before.length, old.length, new⟩], by simp [Call.asked, heq, hone, hfind], ?_⟩
    simp only [Call.run, stringReplace, if_neg heq, if_neg hzero, if_neg hmany, replaceFirst, hfind]
    conv_rhs => rw [find_eq_some hfind, substitute_singleton]

theorem regexReplace_spec (pattern replacement : Str) (count : Option Value) :
    Spec re path (.regexReplace pattern replacement count) bs := by
  cases hcompile : re.compile pattern with
  | error e =>
    refine .inl ⟨by simp [Call.asked, hcompile], ?_, ?_⟩ <;> simp [Call.run, regexReplace, hcompile]
  | ok subn =>
    cases hcount : intOr count 1 with
    | none =>
      refine .inl ⟨by simp [Call.asked, hcompile, hcount], ?_, ?_⟩ <;>
        simp [Call.run, regexReplace, hcompile, hcount]
    | some n =>
      cases hsubn : subn replacement (readText bs) (max 1 (min n 20)).toNat with
      | none =>
        refine .inl ⟨by simp [Call.asked, hcompile, hcount, hsubn], ?_, ?_⟩ <;>
          simp [Call.run, regexReplace, hcompile, hcount, hsubn]
      | some hits =>
        by_cases hnil : hits = []
        · refine .inl ⟨by simp [Call.asked, hcompile, hcount, hsubn, Option.filter, hnil], ?_, ?_⟩ <;>
            simp [Call.run, regexReplace, hcompile, hcount, hsubn, hnil]
        by_cases hsame : substitute hits (ofChars (readText bs)) = ofChars (readText bs)
        · refine .inl ⟨by simp [Call.asked, hcompile, hcount, hsubn, Option.filter, hsame], ?_, ?_⟩ <;>
            simp [Call.run, regexReplace, hcompile, hcount, hsubn, hnil, hsame]
        · refine .inr ⟨hits, ?_, ?_⟩
          · simp [Call.asked, hcompile, hcount, hsubn, Option.filter, hnil, hsame]
          · simp [Call.run, regexReplace, hcompile, hcount, hsubn, hnil, hsame]

theorem flatten_splitlinesKeep (xs : List Char) : (splitlinesKeep xs).flatten = xs := by
  fun_induction splitlinesKeep xs with
  | case1 => rfl
  | case2 cs ih => simp [ih]
  | case3 c cs hne hbreak ih => simp [ih]
  | case4 c cs hne hbreak hnil ih =>
    rw [hnil] at ih
    simp [← ih]
  | case5 c cs hne hbreak l ls hcons ih =>
    rw [hcons] at ih
    simp [← ih]

theorem replaceLines_spec (startLine endLine : Option Value) (new : Str) :
    Spec re path (.replaceLines startLine endLine new) bs := by
  cases hstart : startLine.bind Value.int? with
  | none =>
    refine .inl ⟨by simp [Call.asked, hstart], ?_, ?_⟩ <;> simp [Call.run, replaceLines, hstart]
  | some start =>
    cases hstop : intOr endLine start with
    | none =>
      refine .inl ⟨by simp [Call.asked, hstart, hstop], ?_, ?_⟩ <;>
        simp [Call.run, replaceLines, hstart, hstop]
    | some stop =>
      generalize hlines : splitlinesKeep (readText bs) = lines
      by_cases hbad : start < 1 ∨ stop < start ∨ (lines.length : ℤ) < stop
      · refine .inl ⟨?_, ?_, ?_⟩
        · simp only [Call.asked, hstart, hstop, hlines, Option.bind_eq_bind, Option.bind_some]
          rw [if_neg]
          omega
        · simp [Call.run, replaceLines, hstart, hstop, hlines, hbad]
        · simp [Call.run, replaceLines, hstart, hstop, hlines, hbad]
      have hgood : 1 ≤ start ∧ start ≤ stop ∧ stop ≤ lines.length := by omega
      by_cases hsame : ofChars ((lines.take stop.toNat).drop (start.toNat - 1)).flatten = lineText new
      · refine .inl ⟨?_, ?_, ?_⟩
        · simp only [Call.asked, hstart, hstop, hlines, Option.bind_eq_bind, Option.bind_some]
          rw [if_neg]
          exact fun h => h.2.2.2 hsame
        · simp [Call.run, replaceLines, hstart, hstop, hlines, if_neg hbad, hsame]
        · simp [Call.run, replaceLines, hstart, hstop, hlines, if_neg hbad, hsame]
      · refine .inr ⟨[⟨(lines.take (start.toNat - 1)).flatten.length,
          ((lines.take stop.toNat).drop (start.toNat - 1)).flatten.length, lineText new⟩], ?_, ?_⟩
        · simp only [Call.asked, hstart, hstop, hlines, Option.bind_eq_bind, Option.bind_some]
          rw [if_pos ⟨hgood.1, hgood.2.1, hgood.2.2, hsame⟩]
        · simp only [Call.run, replaceLines, hstart, hstop, hlines, if_neg hbad, if_neg hsame]
          -- the text is the lines before, the block and the lines behind
          have htext : ofChars (readText bs) = ofChars (lines.take (start.toNat - 1)).flatten ++
              ofChars ((lines.take stop.toNat).drop (start.toNat - 1)).flatten ++
              ofChars (lines.drop stop.toNat).flatten := by
            have hle : start.toNat - 1 ≤ stop.toNat := by omega
            have hblock : (lines.take (start.toNat - 1)) ++
                ((lines.take stop.toNat).drop (start.toNat - 1)) = lines.take stop.toNat := by
              have := List.take_append_drop (start.toNat - 1) (lines.take stop.toNat)
              rwa [List.take_take, Nat.min_eq_left hle] at this
            rw [← ofChars_append, ← List.flatten_append, hblock, ← ofChars_append,
              ← List.flatten_append, List.take_append_drop, ← hlines, flatten_splitlinesKeep]
          have hsub := @substitute_singleton (ofChars (lines.take (start.toNat - 1)).flatten)
            (ofChars ((lines.take stop.toNat).drop (start.toNat - 1)).flatten)
            (ofChars (lines.drop stop.toNat).flatten) (lineText new)
          rw [htext, ← hsub, ofChars, ofChars, List.length_map, List.length_map]

theorem appendFile_spec (new : Str) : Spec re path (.appendFile new) bs := by
  refine .inr ⟨_, rfl, ?_⟩
  have hlen : (readText bs).length = (ofChars (readText bs)).length := by simp [ofChars]
  simp only [Call.run, appendFile, substitute, hlen, List.take_length, Nat.add_zero, List.drop_length,
    List.append_nil, List.append_assoc]

/-- **What a call does.** -/
theorem run_spec (call : Call) : Spec re path call bs := by
  cases call with
  | stringReplace old new => exact stringReplace_spec old new
  | regexReplace pattern replacement count => exact regexReplace_spec pattern replacement count
  | replaceLines startLine endLine new => exact replaceLines_spec startLine endLine new
  | appendFile new => exact appendFile_spec new

/-! ### Safe calls -/

/-- A text with its places replaced is written: nothing else has changed just when the new text can be
written and the other characters are written as they were read. -/
theorem writeText_iff (hits : List Hit) :
    (if (writeText (substitute hits (ofChars (readText bs)))).report = .edited then
        (writeText (substitute hits (ofChars (readText bs)))).file = splice hits (cells bs)
      else (writeText (substitute hits (ofChars (readText bs)))).file = some bs) ↔
      ((∀ hit ∈ hits, Encodable hit.new) ∨ bs = []) ∧ ∀ cell ∈ kept hits (cells bs), cell.Plain := by
  have htext : readText bs = (cells bs).map Cell.char := (map_char_cells bs).symm
  by_cases hclean : ∀ hit ∈ hits, Encodable hit.new
  · obtain ⟨hsub, hsplice⟩ := substitute_eq (l := cells bs) hclean
    have hwrite : writeText (substitute hits (ofChars (readText bs))) =
        ⟨.edited, some (writes (merged hits (cells bs)))⟩ := by
      rw [htext, hsub, writeText, encode?_ofChars, List.flatMap_map]
      rfl
    rw [hwrite, if_pos rfl, hsplice, Option.some.injEq, written_eq_source_iff
      (mem_merged_sound (sound_of_mem_cells bs)), merged_plain_iff]
    exact ⟨fun h => ⟨.inl hclean, h⟩, fun h => h.2⟩
  · -- the file has been emptied
    have hwrite : writeText (substitute hits (ofChars (readText bs))) = ⟨.raised, some []⟩ := by
      rw [writeText, encode?_eq_none (not_encodable_substitute hclean)]
    rw [hwrite, if_neg (by simp), Option.some.injEq]
    constructor
    · rintro rfl
      have hkept : ∀ hits : List Hit, kept hits [] = [] := by
        intro hits
        induction hits with
        | nil => rfl
        | cons hit hits ih => rw [kept, List.drop_nil, ih, List.take_nil, List.append_nil]
      refine ⟨.inr rfl, ?_⟩
      rw [show cells [] = [] from rfl, hkept]
      simp
    · rintro ⟨hall | rfl, -⟩
      · exact absurd hall hclean
      · rfl

/-! ### The lines that are numbered -/

/-- What ends a line: a line break, or the end of the text. -/
def IsEnding (cs : List Char) : Prop := cs = [] ∨ cs = ['\r', '\n'] ∨ ∃ c, isBreak c ∧ cs = [c]

/-- The lines with their ends are the lines. -/
theorem splitlines_ends (xs : List Char) :
    List.Forall₂ (fun line whole => ∃ ending, IsEnding ending ∧ whole = line ++ ending)
      (splitlines xs) (splitlinesKeep xs) := by
  fun_induction splitlinesKeep xs with
  | case1 => exact .nil
  | case2 cs ih => exact .cons ⟨['\r', '\n'], .inr (.inl rfl), rfl⟩ ih
  | case3 c cs hne hbreak ih =>
    rw [splitlines.eq_3 c cs hne, if_pos hbreak]
    exact .cons ⟨[c], .inr (.inr ⟨c, hbreak, rfl⟩), rfl⟩ ih
  | case4 c cs hne hbreak hnil ih =>
    rw [hnil] at ih
    rw [splitlines.eq_3 c cs hne, if_neg hbreak, List.forall₂_nil_right_iff.mp ih]
    exact .cons ⟨[], .inl rfl, rfl⟩ .nil
  | case5 c cs hne hbreak l ls hcons ih =>
    rw [hcons] at ih
    obtain ⟨line, lines, ⟨ending, hending, hline⟩, hlines, heq⟩ := List.forall₂_cons_right_iff.mp ih
    rw [splitlines.eq_3 c cs hne, if_neg hbreak, heq]
    exact .cons ⟨ending, hending, by rw [hline, List.cons_append]⟩ hlines

theorem getElem?_splitlinesKeep {xs line : List Char} {k : ℕ} (h : (splitlines xs)[k]? = some line) :
    ∃ ending, IsEnding ending ∧ (splitlinesKeep xs)[k]? = some (line ++ ending) := by
  obtain ⟨hk, rfl⟩ := List.getElem?_eq_some_iff.mp h
  have hends := splitlines_ends xs
  have hk' : k < (splitlinesKeep xs).length := hends.length_eq ▸ hk
  obtain ⟨ending, hending, hwhole⟩ := hends.get hk hk'
  exact ⟨ending, hending, List.getElem?_eq_some_iff.mpr ⟨hk', hwhole⟩⟩

theorem mem_numbered {xs : List Char} {lo : ℤ} {n : ℕ} {shown : List (ℤ × List Char)} (hlo : 1 ≤ lo)
    (h : numbered (splitlines xs) lo n = some shown) :
    ∀ e ∈ shown, 1 ≤ e.1 ∧ ∃ ending, IsEnding ending ∧
      (splitlinesKeep xs)[e.1.toNat - 1]? = some (e.2 ++ ending) := by
  induction n generalizing lo shown with
  | zero =>
    obtain rfl := Option.some.inj h
    simp
  | succ n ih =>
    obtain ⟨line, hline, h⟩ := Option.bind_eq_some_iff.mp h
    obtain ⟨more, hmore, rfl⟩ := Option.map_eq_some_iff.mp h
    intro e he
    rcases List.mem_cons.mp he with rfl | he
    · exact ⟨hlo, getElem?_splitlinesKeep hline⟩
    · exact ih (by omega) hmore e he

/-- The numbers of the lines that are shown are those of the lines that are replaced. -/
theorem lineWindow_spec {xs : List Char} {start stop : Option Value} {window : Window}
    (h : lineWindow xs start stop = some window) :
    ∀ e ∈ window.shown, 1 ≤ e.1 ∧ ∃ ending, IsEnding ending ∧
      (splitlinesKeep xs)[e.1.toNat - 1]? = some (e.2 ++ ending) := by
  obtain ⟨⟨lo, hi⟩, hbounds, h⟩ := Option.bind_eq_some_iff.mp h
  obtain ⟨shown, hshown, rfl⟩ := Option.map_eq_some_iff.mp h
  have hlo : 1 ≤ lo := by
    unfold windowBounds at hbounds
    split_ifs at hbounds with hnone
    · obtain ⟨rfl, -⟩ := Prod.mk.inj (Option.some.inj hbounds)
      exact le_rfl
    · obtain ⟨first, -, hbounds⟩ := Option.bind_eq_some_iff.mp hbounds
      obtain ⟨last, -, heq⟩ := Option.map_eq_some_iff.mp hbounds
      obtain ⟨rfl, -⟩ := Prod.mk.inj heq
      exact le_max_left _ _
  by_cases hnil : splitlines xs = []
  · rw [if_pos hnil] at hshown
    obtain rfl := Option.some.inj hshown
    simp
  · rw [if_neg hnil] at hshown
    exact mem_numbered hlo hshown

/-! ### The result -/

/-- **An action changes only what was asked for just when its call is safe**, and `ViewCode` numbers
the lines that are replaced. -/
theorem onlyAsked_iff (re : Regex) (path : String) (call : Call) (bs : List UInt8) :
    (OnlyAsked re path call bs ↔ call.Safe re bs) ∧
      ∀ start stop window, lineWindow (readText bs) start stop = some window →
        ∀ e ∈ window.shown, 1 ≤ e.1 ∧ ∃ ending, IsEnding ending ∧
          (splitlinesKeep (readText bs))[e.1.toNat - 1]? = some (e.2 ++ ending) := by
  refine ⟨?_, fun start stop window h => lineWindow_spec h⟩
  rcases @run_spec re path bs call with
    ⟨hnone, hreport, hfile⟩ | ⟨hits, hasked, hrun⟩
  · unfold OnlyAsked Call.Safe
    rw [if_neg hreport, hnone]
    exact ⟨fun _ _ h => (nomatch h), fun _ => hfile⟩
  · have hsafe : call.Safe re bs ↔ ((∀ hit ∈ hits, Encodable hit.new) ∨ bs = []) ∧
        ∀ cell ∈ kept hits (cells bs), cell.Plain := by
      unfold Call.Safe
      rw [hasked]
      exact ⟨fun h => h hits rfl, fun h hits' heq => Option.some.inj heq ▸ h⟩
    rw [hsafe, ← writeText_iff, OnlyAsked, hrun, hasked]
    split_ifs
    · exact ⟨fun ⟨hits', heq, h⟩ => Option.some.inj heq ▸ h, fun h => ⟨hits, rfl, h⟩⟩
    · exact Iff.rfl

/-- A module `re` that refuses every pattern. -/
def noPattern : Regex := ⟨fun _ => .error ""⟩

/-- An edit of the second line that rewrites the end of the first, and a text that cannot be written
and leaves an empty file. -/
theorem line_ends_rewritten :
    ((Call.stringReplace (str "b") (str "c")).run noPattern "f" (some (encode "a\r\nb\n")) =
        ⟨.edited, some (encode "a\nc\n")⟩ ∧
      ¬ OnlyAsked noPattern "f" (.stringReplace (str "b") (str "c")) (encode "a\r\nb\n")) ∧
    (Call.appendFile [.surrogate 0]).run noPattern "f" (some (encode "a")) = ⟨.raised, some []⟩ ∧
      ¬ OnlyAsked noPattern "f" (.appendFile [.surrogate 0]) (encode "a") := by
  have hrun : (Call.stringReplace (str "b") (str "c")).run noPattern "f"
      (some (encode "a\r\nb\n")) = ⟨.edited, some (encode "a\nc\n")⟩ := by decide +kernel
  have hasked : (Call.stringReplace (str "b") (str "c")).asked noPattern
      (readText (encode "a\r\nb\n")) = some [⟨2, 1, str "c"⟩] := by decide +kernel
  have hsplice : splice [⟨2, 1, str "c"⟩] (cells (encode "a\r\nb\n")) =
      some (encode "a\r\nc\n") := by decide +kernel
  have hrun' : (Call.appendFile [.surrogate 0]).run noPattern "f" (some (encode "a")) =
      ⟨.raised, some []⟩ := by decide +kernel
  refine ⟨⟨hrun, fun h => ?_⟩, hrun', fun h => ?_⟩
  · rw [OnlyAsked, hrun, if_pos rfl, hasked] at h
    obtain ⟨hits, heq, hfile⟩ := h
    rw [← Option.some.inj heq, hsplice] at hfile
    exact absurd hfile (by decide)
  · rw [OnlyAsked, hrun', if_neg (by decide)] at h
    exact absurd h (by decide)

end Actions

end DeltaBox
