import DeltaBox.Completion.ActionJson
import DeltaBox.Lib.Json

/-!
# Relaxed arguments become strict ones

Each of the two repairs is a loop with a flag, and over a piece of a JSON text that begins and ends
outside of strings it does what the grammar asks for: the first takes the freedom of bare characters
away, the second that of the words, and neither touches what the other is for. So they can be run one
after the other, over a text of any depth.

The second looks at the characters on both sides of a word. A piece may therefore need something of
its surroundings, and two pieces one behind the other must not run into one word.

## Main definitions

* `Completion.Escapes`, `Completion.Repairs` — what a loop puts out for a piece

## Main results

* `Completion.escapes_reads`, `Completion.repairs_reads` — the loops against the grammar
-/

namespace DeltaBox

namespace Completion

open Json OverList

/-! ### The first loop -/

/-- Over this piece, outside of strings, the loop puts out that one. -/
def Escapes (t t' : List Char) : Prop :=
  ∀ out changed, ∃ changed',
    t.foldl escapeStep ⟨out, false, false, changed⟩ = ⟨out ++ t', false, false, changed'⟩

theorem Escapes.append {a a' b b' : List Char} (ha : Escapes a a') (hb : Escapes b b') :
    Escapes (a ++ b) (a' ++ b') := by
  intro out changed
  obtain ⟨c₁, h₁⟩ := ha out changed
  obtain ⟨c₂, h₂⟩ := hb (out ++ a') c₁
  refine ⟨c₂, ?_⟩
  rw [List.foldl_append, h₁, h₂, List.append_assoc]

/-- Outside of strings nothing is escaped. -/
theorem escapes_of_notMem {t : List Char} (h : '"' ∉ t) : Escapes t t := by
  induction t with
  | nil => exact fun out changed => ⟨changed, by simp⟩
  | cons c t ih =>
    obtain ⟨hc, ht⟩ := not_or.mp (List.mem_cons.not.mp h)
    intro out changed
    obtain ⟨changed', hrest⟩ := ih ht (out ++ [c]) changed
    refine ⟨changed', ?_⟩
    rw [List.foldl_cons, escapeStep, if_neg (by simp), if_neg (Ne.symm hc), hrest]
    simp

theorem escapes_char {c : Char} (h : c ≠ '"') : Escapes [c] [c] :=
  escapes_of_notMem (by simpa using Ne.symm h)

theorem Escapes.cons {c : Char} (h : c ≠ '"') {t t' : List Char} (ht : Escapes t t') :
    Escapes (c :: t) (c :: t') := (escapes_char h).append ht

/-- A character that stands in a string as it is. -/
def PlainChar (c : Char) : Prop := c ≠ '"' ∧ c ≠ '\\' ∧ 32 ≤ c.toNat

theorem plainChar_of_isHex {c : Char} (h : isHex c) : PlainChar c := by
  refine ⟨?_, ?_, ?_⟩
  · rintro rfl
    revert h
    decide
  · rintro rfl
    revert h
    decide
  · by_contra hsmall
    have hnone : ∀ n < 32, isHex (Char.ofNat n) = false := by decide
    have hc := hnone c.toNat (by omega)
    rw [Char.ofNat_toNat, h] at hc
    cases hc

theorem escapeStep_plain {c : Char} (h : PlainChar c) (out : List Char) (changed : Bool) :
    escapeStep ⟨out, true, false, changed⟩ c = ⟨out ++ [c], true, false, changed⟩ := by
  obtain ⟨hquote, hslash, hcontrol⟩ := h
  have hbare : c ≠ '\n' ∧ c ≠ '\r' ∧ c ≠ '\t' := by
    refine ⟨?_, ?_, ?_⟩ <;> rintro rfl <;> revert hcontrol <;> decide
  rw [escapeStep]
  simp only [if_true, Bool.false_eq_true, if_false, hslash, hquote, hbare.1, hbare.2.1, hbare.2.2]

theorem foldl_escapeStep_plain {ds : List Char} (h : ∀ d ∈ ds, PlainChar d) (out : List Char)
    (changed : Bool) :
    ds.foldl escapeStep ⟨out, true, false, changed⟩ = ⟨out ++ ds, true, false, changed⟩ := by
  induction ds generalizing out with
  | nil => simp
  | cons d ds ih =>
    rw [List.foldl_cons, escapeStep_plain (h d List.mem_cons_self),
      ih fun e he => h e (List.mem_cons_of_mem _ he), List.append_assoc]
    rfl

/-- What the loop does between two quotes. -/
theorem escapes_body {bare : Bool} {cs : List Char} {us : List ℕ} (h : Body bare cs us) :
    ∃ cs', Body false cs' us ∧ (bare = false → cs' = cs) ∧ ∀ out changed, ∃ changed',
      cs.foldl escapeStep ⟨out, true, false, changed⟩ =
        ⟨out ++ cs', true, false, changed'⟩ := by
  induction h with
  | nil => exact ⟨[], .nil, fun _ => rfl, fun out changed => ⟨changed, by simp⟩⟩
  | @plain c cs us hquote hslash hcontrol _ ih =>
    obtain ⟨cs', hbody, hsame, hrun⟩ := ih
    refine ⟨c :: cs', .plain hquote hslash hcontrol hbody, fun hb => by rw [hsame hb], ?_⟩
    intro out changed
    obtain ⟨changed', hrest⟩ := hrun (out ++ [c]) changed
    refine ⟨changed', ?_⟩
    rw [List.foldl_cons, escapeStep_plain ⟨hquote, hslash, hcontrol⟩, hrest, List.append_assoc]
    rfl
  | @bare c cs us hb hc _ ih =>
    obtain ⟨cs', hbody, -, hrun⟩ := ih
    have hescape : ∃ e, (e, c.toNat) ∈ escapes ∧ ∀ out changed,
        escapeStep ⟨out, true, false, changed⟩ c = ⟨out ++ ['\\', e], true, false, true⟩ := by
      simp only [bareChars, List.mem_cons, List.not_mem_nil, or_false] at hc
      rcases hc with rfl | rfl | rfl
      · exact ⟨'n', by decide, fun _ _ => rfl⟩
      · exact ⟨'r', by decide, fun _ _ => rfl⟩
      · exact ⟨'t', by decide, fun _ _ => rfl⟩
    obtain ⟨e, he, hstep⟩ := hescape
    refine ⟨'\\' :: e :: cs', .escape he hbody, fun h => absurd (hb.symm.trans h) (by decide), ?_⟩
    intro out changed
    obtain ⟨changed', hrest⟩ := hrun (out ++ ['\\', e]) true
    refine ⟨changed', ?_⟩
    rw [List.foldl_cons, hstep, hrest]
    simp
  | @escape c u cs us hc _ ih =>
    obtain ⟨cs', hbody, hsame, hrun⟩ := ih
    refine ⟨'\\' :: c :: cs', .escape hc hbody, fun hb => by rw [hsame hb], ?_⟩
    intro out changed
    obtain ⟨changed', hrest⟩ := hrun (out ++ ['\\'] ++ [c]) changed
    refine ⟨changed', ?_⟩
    have hstep : escapeStep (escapeStep ⟨out, true, false, changed⟩ '\\') c =
        ⟨out ++ ['\\'] ++ [c], true, false, changed⟩ := rfl
    rw [List.foldl_cons, List.foldl_cons, hstep, hrest]
    simp
  | @unicode ds cs us hlen hds _ ih =>
    obtain ⟨cs', hbody, hsame, hrun⟩ := ih
    refine ⟨'\\' :: 'u' :: (ds ++ cs'), .unicode hlen hds hbody, fun hb => by rw [hsame hb], ?_⟩
    intro out changed
    obtain ⟨changed', hrest⟩ := hrun (out ++ ['\\'] ++ ['u'] ++ ds) changed
    refine ⟨changed', ?_⟩
    have hstep : escapeStep (escapeStep ⟨out, true, false, changed⟩ '\\') 'u' =
        ⟨out ++ ['\\'] ++ ['u'], true, false, changed⟩ := rfl
    rw [List.foldl_cons, List.foldl_cons, hstep, List.foldl_append,
      foldl_escapeStep_plain fun d hd => plainChar_of_isHex (hds d hd), hrest]
    simp

/-- What the loop does to a string. -/
theorem escapes_string {bare : Bool} {cs : List Char} {us : List ℕ} (h : Body bare cs us) :
    ∃ cs', Body false cs' us ∧ (bare = false → cs' = cs) ∧
      Escapes ('"' :: (cs ++ ['"'])) ('"' :: (cs' ++ ['"'])) := by
  obtain ⟨cs', hbody, hsame, hrun⟩ := escapes_body h
  refine ⟨cs', hbody, hsame, fun out changed => ?_⟩
  obtain ⟨changed', hrest⟩ := hrun (out ++ ['"']) changed
  refine ⟨changed', ?_⟩
  have hopen : escapeStep ⟨out, false, false, changed⟩ '"' =
      ⟨out ++ ['"'], true, false, changed⟩ := rfl
  have hclose : ∀ out, escapeStep ⟨out, true, false, changed'⟩ '"' =
      ⟨out ++ ['"'], false, false, changed'⟩ := fun _ => rfl
  rw [List.foldl_cons, hopen, List.foldl_append, hrest, List.foldl_cons, hclose, List.foldl_nil]
  simp

theorem quote_notMem_blank {w : List Char} (h : IsBlank w) : '"' ∉ w := fun hmem => by
  have hblank := h '"' hmem
  revert hblank
  decide

theorem quote_notMem_word {words : Bool} {t : List Char} {v : Value} (h : Word words t v) :
    '"' ∉ t := by
  cases h <;> decide

theorem quote_notMem_number {t : List Char} (h : IsNumber t) : '"' ∉ t := fun hmem => by
  have hchar := h.chars '"' hmem
  revert hchar
  decide

/-- **The first loop takes the freedom of bare characters away**, and nothing else. -/
theorem escapes_reads {free : Freedom} {t : List Char} {item : Item} (h : Reads free t item) :
    ∃ t', Escapes t t' ∧ Reads ⟨false, free.words⟩ t' item ∧ (free.bare = false → t' = t) := by
  induction h with
  | word hw => exact ⟨_, escapes_of_notMem (quote_notMem_word hw), .word hw, fun _ => rfl⟩
  | num hn => exact ⟨_, escapes_of_notMem (quote_notMem_number hn), .num hn, fun _ => rfl⟩
  | str hs =>
    obtain ⟨cs', hbody, hsame, hrun⟩ := escapes_string hs
    exact ⟨_, hrun, .str hbody, fun hb => by rw [hsame hb]⟩
  | emptyArr hw =>
    refine ⟨_, escapes_of_notMem ?_, .emptyArr hw, fun _ => rfl⟩
    simpa using quote_notMem_blank hw
  | arr _ ih =>
    obtain ⟨t', hrun, hreads, hsame⟩ := ih
    exact ⟨_, (hrun.append (escapes_char (by decide))).cons (by decide), .arr hreads,
      fun hb => by rw [hsame hb]⟩
  | emptyObj hw =>
    refine ⟨_, escapes_of_notMem ?_, .emptyObj hw, fun _ => rfl⟩
    simpa using quote_notMem_blank hw
  | obj _ ih =>
    obtain ⟨t', hrun, hreads, hsame⟩ := ih
    exact ⟨_, (hrun.append (escapes_char (by decide))).cons (by decide), .obj hreads,
      fun hb => by rw [hsame hb]⟩
  | element hw _ hw' ih =>
    obtain ⟨t', hrun, hreads, hsame⟩ := ih
    exact ⟨_, (escapes_of_notMem (quote_notMem_blank hw)).append
      (hrun.append (escapes_of_notMem (quote_notMem_blank hw'))), .element hw hreads hw',
      fun hb => by rw [hsame hb]⟩
  | elements _ _ ih ih' =>
    obtain ⟨t', hrun, hreads, hsame⟩ := ih
    obtain ⟨ts', hruns, hreadss, hsames⟩ := ih'
    exact ⟨_, hrun.append (hruns.cons (by decide)), .elements hreads hreadss,
      fun hb => by rw [hsame hb, hsames hb]⟩
  | @member w cs w' t us v hw hs hw' _ ih =>
    obtain ⟨cs', hbody, hsames, hruns⟩ := escapes_string hs
    obtain ⟨t', hrun, hreads, hsame⟩ := ih
    refine ⟨_, ?_, .member hw hbody hw' hreads, fun hb => by rw [hsames hb, hsame hb]⟩
    have hrest : Escapes (w' ++ ':' :: t) (w' ++ ':' :: t') :=
      (escapes_of_notMem (quote_notMem_blank hw')).append (hrun.cons (by decide))
    refine (escapes_of_notMem (quote_notMem_blank hw)).append ?_
    simpa using hruns.append hrest
  | members _ _ ih ih' =>
    obtain ⟨t', hrun, hreads, hsame⟩ := ih
    obtain ⟨ts', hruns, hreadss, hsames⟩ := ih'
    exact ⟨_, hrun.append (hruns.cons (by decide)), .members hreads hreadss,
      fun hb => by rw [hsame hb, hsames hb]⟩

/-! ### The second loop -/

variable {cls : CharClass}

def startsWord (cls : CharClass) (t : List Char) : Bool := t.head?.any cls.wordChar

def endsWord (cls : CharClass) (t : List Char) : Bool := t.getLast?.any cls.wordChar

/-- What a piece needs of its surroundings: where it begins or ends like a word, there is no word
next to it. -/
def Fits (cls : CharClass) (prev : Option Char) (t rest : List Char) : Prop :=
  (startsWord cls t → prev.any cls.wordChar = false) ∧ (endsWord cls t → startsWord cls rest = false)

/-- Over this piece, outside of strings and where it fits, the loop puts out that one. -/
def Repairs (cls : CharClass) (t t' : List Char) : Prop :=
  ∀ prev rest, Fits cls prev t rest → (repairLoop cls 0 prev false false (t ++ rest)).1 =
    t' ++ (repairLoop cls 0 (t.getLast?.or prev) false false rest).1

theorem wordChar_ascii {c : Char} (h : c.toNat < 128) :
    cls.wordChar c = (c.isAlphanum || c = '_') := by
  rw [CharClass.wordChar, cls.ascii c h]

theorem Repairs.append {a a' b b' : List Char} (ha : Repairs cls a a') (hb : Repairs cls b b')
    (hapart : endsWord cls a → startsWord cls b = false) : Repairs cls (a ++ b) (a' ++ b') := by
  intro prev rest hfits
  have hfirst : Fits cls prev a (b ++ rest) := by
    refine ⟨fun h => hfits.1 ?_, fun h => ?_⟩
    · cases a with
      | nil => cases h
      | cons c a => exact h
    · cases b with
      | nil =>
        refine hfits.2 ?_
        rwa [List.append_nil]
      | cons c b => exact hapart h
  have hsecond : Fits cls (a.getLast?.or prev) b rest := by
    refine ⟨fun h => ?_, fun h => hfits.2 ?_⟩
    · cases hlast : a.getLast? with
      | none =>
        rw [List.getLast?_eq_none_iff.mp hlast, List.nil_append] at hfits
        exact hfits.1 h
      | some c =>
        by_contra hword
        have hends : endsWord cls a := by
          rw [endsWord, hlast]
          simpa using hword
        exact absurd h (by rw [hapart hends]; decide)
    · cases b with
      | nil => cases h
      | cons c b =>
        rw [endsWord, List.getLast?_append_of_ne_nil a (by simp)]
        exact h
  rw [List.append_assoc, ha prev _ hfirst, hb _ rest hsecond, List.append_assoc,
    List.getLast?_append, Option.or_assoc]

/-- A character at which the loop looks for nothing. -/
def Passes (c : Char) : Prop := c ∉ ['"', 'T', 'F', 'N']

instance (c : Char) : Decidable (Passes c) := inferInstanceAs (Decidable (c ∉ _))

theorem not_hasWordAt {c d : Char} (h : c ≠ d) (prev : Option Char) (cs word : List Char) :
    hasWordAt cls prev (c :: cs) (d :: word) = false := by
  have hpre : ¬ d :: word <+: c :: cs := by
    rintro ⟨more, hmore⟩
    exact h (List.cons.inj hmore).1.symm
  simp [hasWordAt, hpre]

theorem repairLoop_pass {c : Char} (h : Passes c) (prev : Option Char) (cs : List Char) :
    (repairLoop cls 0 prev false false (c :: cs)).1 =
      c :: (repairLoop cls 0 (some c) false false cs).1 := by
  simp only [Passes, List.mem_cons, List.not_mem_nil, or_false, not_or] at h
  obtain ⟨hquote, hT, hF, hN⟩ := h
  have htrue : hasWordAt cls prev (c :: cs) "True".toList = false := not_hasWordAt hT prev cs _
  have hfalse : hasWordAt cls prev (c :: cs) "False".toList = false := not_hasWordAt hF prev cs _
  have hnone : hasWordAt cls prev (c :: cs) "None".toList = false := not_hasWordAt hN prev cs _
  rw [repairLoop, if_neg hquote, htrue, hfalse, hnone]
  rfl

theorem getLast?_cons_or (c : Char) (t : List Char) (prev : Option Char) :
    (c :: t).getLast?.or prev = t.getLast?.or (some c) := by
  rw [List.getLast?_cons]
  cases t.getLast? <;> rfl

theorem repairs_of_passes {t : List Char} (h : ∀ c ∈ t, Passes c) : Repairs cls t t := by
  intro prev rest hfits
  clear hfits
  induction t generalizing prev with
  | nil => rfl
  | cons c t ih =>
    rw [List.cons_append, repairLoop_pass (h c List.mem_cons_self),
      ih (fun d hd => h d (List.mem_cons_of_mem _ hd)), getLast?_cons_or]
    rfl

/-- Between two quotes the loop changes nothing. -/
theorem repairLoop_body {bare : Bool} {cs : List Char} {us : List ℕ} (h : Body bare cs us)
    (prev : Option Char) (rest : List Char) :
    (repairLoop cls 0 prev true false (cs ++ '"' :: rest)).1 =
      cs ++ '"' :: (repairLoop cls 0 (some '"') false false rest).1 := by
  have hplain : ∀ {c : Char}, c ≠ '"' → c ≠ '\\' → ∀ prev cs,
      (repairLoop cls 0 prev true false (c :: cs)).1 =
        c :: (repairLoop cls 0 (some c) true false cs).1 := by
    intro c hquote hslash prev cs
    rw [repairLoop, if_neg Bool.false_ne_true, if_neg hslash, if_neg hquote]
  have hslash : ∀ (c : Char) prev cs, (repairLoop cls 0 prev true false ('\\' :: c :: cs)).1 =
      '\\' :: c :: (repairLoop cls 0 (some c) true false cs).1 := fun _ _ _ => rfl
  induction h generalizing prev with
  | nil => rfl
  | plain hq hs _ _ ih =>
    rw [List.cons_append, hplain hq hs, ih]
    rfl
  | @bare c cs us _ hc _ ih =>
    have hne : c ≠ '"' ∧ c ≠ '\\' := by
      revert c
      decide
    rw [List.cons_append, hplain hne.1 hne.2, ih]
    rfl
  | escape _ _ ih =>
    rw [List.cons_append, List.cons_append, hslash, ih]
    rfl
  | @unicode ds cs us _ hds _ ih =>
    have hdigits : ∀ ds, (∀ d ∈ ds, isHex d) → ∀ prev more,
        (repairLoop cls 0 prev true false (ds ++ more)).1 =
          ds ++ (repairLoop cls 0 (ds.getLast?.or prev) true false more).1 := by
      intro ds hds
      induction ds with
      | nil => exact fun prev more => rfl
      | cons d ds ihd =>
        intro prev more
        obtain ⟨hq, hs, -⟩ := plainChar_of_isHex (hds d List.mem_cons_self)
        rw [List.cons_append, hplain hq hs, ihd fun e he => hds e (List.mem_cons_of_mem _ he),
          getLast?_cons_or]
        rfl
    rw [List.cons_append, List.cons_append, List.append_assoc, hslash, hdigits ds hds, ih]
    simp

theorem repairs_string {bare : Bool} {cs : List Char} {us : List ℕ} (h : Body bare cs us) :
    Repairs cls ('"' :: (cs ++ ['"'])) ('"' :: (cs ++ ['"'])) := by
  intro prev rest _
  have hopen : (repairLoop cls 0 prev false false ('"' :: (cs ++ '"' :: rest))).1 =
      '"' :: (repairLoop cls 0 (some '"') true false (cs ++ '"' :: rest)).1 := rfl
  have hlast : ('"' :: (cs ++ ['"'])).getLast?.or prev = some '"' := by
    rw [getLast?_cons_or, List.getLast?_append]
    rfl
  rw [hlast]
  simpa [repairLoop_body h] using hopen

/-- The characters of a replaced word are skipped. -/
theorem repairLoop_skip (ds : List Char) (prev : Option Char) (rest : List Char) :
    repairLoop cls ds.length prev false false (ds ++ rest) =
      repairLoop cls 0 (ds.getLast?.or prev) false false rest := by
  induction ds generalizing prev with
  | nil => rfl
  | cons d ds ih =>
    rw [getLast?_cons_or, ← ih]
    rfl

theorem hasWordAt_of_fits {c : Char} {word rest : List Char} {prev : Option Char}
    (hstart : cls.wordChar c) (hend : endsWord cls (c :: word))
    (h : Fits cls prev (c :: word) rest) :
    hasWordAt cls prev (c :: (word ++ rest)) (c :: word) = true := by
  have hprev := h.1 hstart
  have hrest := h.2 hend
  have hpre : c :: word <+: c :: (word ++ rest) := List.prefix_append (c :: word) rest
  have hdrop : (c :: (word ++ rest)).drop (c :: word).length = rest :=
    (List.drop_left : ((c :: word) ++ rest).drop (c :: word).length = rest)
  rw [hasWordAt, hdrop]
  simp only [startsWord] at hrest
  simp [hpre, hprev, hrest]

/-- A word that the loop replaces is replaced where it fits. -/
theorem repairs_of_step {c : Char} {word new : List Char} (hstart : cls.wordChar c)
    (hend : endsWord cls (c :: word))
    (hstep : ∀ prev cs, hasWordAt cls prev (c :: cs) (c :: word) →
      (repairLoop cls 0 prev false false (c :: cs)).1 =
        new ++ (repairLoop cls word.length (some c) false false cs).1) :
    Repairs cls (c :: word) new := by
  intro prev rest hfits
  rw [List.cons_append, hstep prev _ (hasWordAt_of_fits hstart hend hfits), repairLoop_skip,
    getLast?_cons_or]

theorem repairs_true : Repairs cls "True".toList "true".toList := by
  have hend : endsWord cls ['T', 'r', 'u', 'e'] := by
    rw [endsWord]
    exact wordChar_ascii (by decide)
  show Repairs cls ['T', 'r', 'u', 'e'] _
  refine repairs_of_step (wordChar_ascii (by decide)) hend fun prev cs hat => ?_
  have hat : hasWordAt cls prev ('T' :: cs) "True".toList = true := hat
  rw [repairLoop, if_neg (by decide), if_pos hat]
  rfl

theorem repairs_false : Repairs cls "False".toList "false".toList := by
  have hend : endsWord cls ['F', 'a', 'l', 's', 'e'] := by
    rw [endsWord]
    exact wordChar_ascii (by decide)
  show Repairs cls ['F', 'a', 'l', 's', 'e'] _
  refine repairs_of_step (wordChar_ascii (by decide)) hend fun prev cs hat => ?_
  have hat : hasWordAt cls prev ('F' :: cs) "False".toList = true := hat
  have htrue : hasWordAt cls prev ('F' :: cs) "True".toList = false :=
    not_hasWordAt (show 'F' ≠ 'T' by decide) prev cs ['r', 'u', 'e']
  rw [repairLoop, if_neg (by decide), if_neg (by rw [htrue]; decide), if_pos hat]
  rfl

theorem repairs_none : Repairs cls "None".toList "null".toList := by
  have hend : endsWord cls ['N', 'o', 'n', 'e'] := by
    rw [endsWord]
    exact wordChar_ascii (by decide)
  show Repairs cls ['N', 'o', 'n', 'e'] _
  refine repairs_of_step (wordChar_ascii (by decide)) hend fun prev cs hat => ?_
  have hat : hasWordAt cls prev ('N' :: cs) "None".toList = true := hat
  have htrue : hasWordAt cls prev ('N' :: cs) "True".toList = false :=
    not_hasWordAt (show 'N' ≠ 'T' by decide) prev cs ['r', 'u', 'e']
  have hfalse : hasWordAt cls prev ('N' :: cs) "False".toList = false :=
    not_hasWordAt (show 'N' ≠ 'F' by decide) prev cs ['a', 'l', 's', 'e']
  rw [repairLoop, if_neg (by decide), if_neg (by rw [htrue]; decide),
    if_neg (by rw [hfalse]; decide), if_pos hat]
  rfl

theorem repairs_word {words : Bool} {t : List Char} {v : Value} (h : Word words t v) :
    ∃ t', Repairs cls t t' ∧ Word false t' v ∧ (words = false → t' = t) := by
  cases h with
  | null => exact ⟨_, repairs_of_passes (by decide), .null, fun _ => rfl⟩
  | true => exact ⟨_, repairs_of_passes (by decide), .true, fun _ => rfl⟩
  | false => exact ⟨_, repairs_of_passes (by decide), .false, fun _ => rfl⟩
  | pyNone hw => exact ⟨_, repairs_none, .null, fun h => absurd (hw.symm.trans h) (by decide)⟩
  | pyTrue hw => exact ⟨_, repairs_true, .true, fun h => absurd (hw.symm.trans h) (by decide)⟩
  | pyFalse hw => exact ⟨_, repairs_false, .false, fun h => absurd (hw.symm.trans h) (by decide)⟩

/-! ### The second loop against the grammar -/

theorem startsWord_cons_of {c : Char} (h : cls.wordChar c = false) (t : List Char) :
    startsWord cls (c :: t) = false := h

theorem endsWord_of_last {t : List Char} {c : Char} (h : cls.wordChar c = false) :
    endsWord cls (t ++ [c]) = false := by
  rw [endsWord, List.getLast?_append_of_ne_nil t (by simp)]
  exact h

theorem wordChar_blank {w : List Char} (h : IsBlank w) : ∀ c ∈ w, cls.wordChar c = false := by
  intro c hc
  have hblank : ∀ c ∈ blanks, c.toNat < 128 ∧ (c.isAlphanum || c = '_') = false := by decide
  obtain ⟨hsmall, hno⟩ := hblank c (h c hc)
  rw [wordChar_ascii hsmall, hno]

theorem startsWord_blank {w : List Char} (h : IsBlank w) : startsWord cls w = false := by
  cases w with
  | nil => rfl
  | cons c w => exact wordChar_blank h c List.mem_cons_self

theorem startsWord_blank_cons {w : List Char} (h : IsBlank w) {c : Char}
    (hc : cls.wordChar c = false) (t : List Char) : startsWord cls (w ++ c :: t) = false := by
  cases w with
  | nil => exact hc
  | cons d w => exact wordChar_blank h d List.mem_cons_self

theorem endsWord_blank {w : List Char} (h : IsBlank w) : endsWord cls w = false := by
  unfold endsWord
  cases hlast : w.getLast? with
  | none => rfl
  | some c => exact wordChar_blank h c (List.mem_of_getLast? hlast)

theorem repairs_blank {w : List Char} (h : IsBlank w) : Repairs cls w w := by
  have hblank : ∀ c ∈ blanks, Passes c := by decide
  exact repairs_of_passes fun c hc => hblank c (h c hc)

theorem repairs_number {t : List Char} (h : IsNumber t) : Repairs cls t t := by
  refine repairs_of_passes fun c hc => ?_
  rcases h.chars c hc with hdigit | hother
  · intro hmem
    simp only [List.mem_cons, List.not_mem_nil, or_false] at hmem
    rcases hmem with rfl | rfl | rfl | rfl <;> revert hdigit <;> decide
  · have hpass : ∀ c ∈ ['-', '+', '.', 'e', 'E'], Passes c := by decide
    exact hpass c hother

/-- Brackets around a piece, or a separator in front of it. -/
theorem Repairs.cons {c : Char} (hpass : Passes c) (hword : cls.wordChar c = false)
    {t t' : List Char} (ht : Repairs cls t t') : Repairs cls (c :: t) (c :: t') := by
  have hsingle : Repairs cls [c] [c] := repairs_of_passes (by simpa using hpass)
  exact hsingle.append ht fun h => absurd h (by rw [endsWord]; simp [hword])

theorem Repairs.snoc {c : Char} (hpass : Passes c) (hword : cls.wordChar c = false)
    {t t' : List Char} (ht : Repairs cls t t') : Repairs cls (t ++ [c]) (t' ++ [c]) :=
  ht.append (repairs_of_passes (by simpa using hpass)) fun _ => hword

theorem wordChar_punct : ∀ c ∈ ['[', ']', '{', '}', ',', ':', '"'], cls.wordChar c = false := by
  have hpunct : ∀ c ∈ ['[', ']', '{', '}', ',', ':', '"'],
      c.toNat < 128 ∧ (c.isAlphanum || c = '_') = false := by decide
  intro c hc
  obtain ⟨hsmall, hno⟩ := hpunct c hc
  rw [wordChar_ascii hsmall, hno]

/-- **The second loop takes the freedom of the words away**, and nothing else. -/
theorem repairs_reads {free : Freedom} {t : List Char} {item : Item} (h : Reads free t item) :
    ∃ t', Repairs cls t t' ∧ Reads ⟨free.bare, false⟩ t' item ∧ (free.words = false → t' = t) := by
  have hpunct : ∀ c ∈ ['[', ']', '{', '}', ',', ':', '"'], cls.wordChar c = false := wordChar_punct
  induction h with
  | word hw =>
    obtain ⟨t', hrun, hword, hsame⟩ := repairs_word hw
    exact ⟨t', hrun, .word hword, hsame⟩
  | num hn => exact ⟨_, repairs_number hn, .num hn, fun _ => rfl⟩
  | str hs => exact ⟨_, repairs_string hs, .str hs, fun _ => rfl⟩
  | emptyArr hw =>
    exact ⟨_, ((repairs_blank hw).snoc (by decide) (hpunct _ (by decide))).cons (by decide)
      (hpunct _ (by decide)), .emptyArr hw, fun _ => rfl⟩
  | arr _ ih =>
    obtain ⟨t', hrun, hreads, hsame⟩ := ih
    exact ⟨_, (hrun.snoc (by decide) (hpunct _ (by decide))).cons (by decide)
      (hpunct _ (by decide)), .arr hreads, fun hb => by rw [hsame hb]⟩
  | emptyObj hw =>
    exact ⟨_, ((repairs_blank hw).snoc (by decide) (hpunct _ (by decide))).cons (by decide)
      (hpunct _ (by decide)), .emptyObj hw, fun _ => rfl⟩
  | obj _ ih =>
    obtain ⟨t', hrun, hreads, hsame⟩ := ih
    exact ⟨_, (hrun.snoc (by decide) (hpunct _ (by decide))).cons (by decide)
      (hpunct _ (by decide)), .obj hreads, fun hb => by rw [hsame hb]⟩
  | element hw _ hw' ih =>
    obtain ⟨t', hrun, hreads, hsame⟩ := ih
    refine ⟨_, (repairs_blank hw).append (hrun.append (repairs_blank hw') ?_) ?_,
      .element hw hreads hw', fun hb => by rw [hsame hb]⟩
    · exact fun _ => startsWord_blank hw'
    · exact fun hends => absurd hends (by rw [endsWord_blank hw]; decide)
  | elements _ _ ih ih' =>
    obtain ⟨t', hrun, hreads, hsame⟩ := ih
    obtain ⟨ts', hruns, hreadss, hsames⟩ := ih'
    exact ⟨_, hrun.append (hruns.cons (by decide) (hpunct _ (by decide))) fun _ =>
      startsWord_cons_of (hpunct _ (by decide)) _, .elements hreads hreadss,
      fun hb => by rw [hsame hb, hsames hb]⟩
  | @member w cs w' t us v hw hs hw' _ ih =>
    obtain ⟨t', hrun, hreads, hsame⟩ := ih
    refine ⟨_, ?_, .member hw hs hw' hreads, fun hb => by rw [hsame hb]⟩
    have hrest : Repairs cls (w' ++ ':' :: t) (w' ++ ':' :: t') :=
      (repairs_blank hw').append (hrun.cons (by decide) (hpunct _ (by decide))) fun _ =>
        startsWord_cons_of (hpunct _ (by decide)) _
    have hstring : Repairs cls ('"' :: (cs ++ ['"']) ++ (w' ++ ':' :: t))
        ('"' :: (cs ++ ['"']) ++ (w' ++ ':' :: t')) :=
      (repairs_string hs).append hrest fun _ =>
        startsWord_blank_cons hw' (hpunct _ (by decide)) _
    refine (repairs_blank hw).append ?_ fun _ => startsWord_cons_of (hpunct _ (by decide)) _
    simpa using hstring
  | members _ _ ih ih' =>
    obtain ⟨t', hrun, hreads, hsame⟩ := ih
    obtain ⟨ts', hruns, hreadss, hsames⟩ := ih'
    exact ⟨_, hrun.append (hruns.cons (by decide) (hpunct _ (by decide))) fun _ =>
      startsWord_cons_of (hpunct _ (by decide)) _, .members hreads hreadss,
      fun hb => by rw [hsame hb, hsames hb]⟩

end Completion

end DeltaBox
