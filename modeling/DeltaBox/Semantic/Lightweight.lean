import DeltaBox.Semantic.Parser
import Mathlib.Data.List.Infix
import Mathlib.Data.List.TakeWhile

/-!
# When lightweight commands only read

A checkpoint is left out behind a command that is called lightweight, so everything in the command
should only read. The classifier looks at little of it: at the arrows that survive a regular
expression, and at the first words of each part between `&&` and `;`.

What makes it answer is `quiet`. What it may miss in a command is `Slips`: a command behind a bar, a
single `&` or a line break, a path that begins like `/dev/null` or like a descriptor, another
spelling of `sed -i`, a `find` that deletes. A script has the property if and only if nothing slips
or something else in it is not quiet.

The scripts in which everything is looked at are those of `Watched`: they are chains of `&&` and `;`
with none of these characters in quotes.

## Main definitions

* `quiet` — what the classifier looks at
* `OnlyIfAll` — a lightweight script only reads
* `Slips` — what it may miss
* `Watched` — nothing is missed

## Main results

* `parseStrategy_lightweight` — a command is lightweight if and only if it is quiet
* `mem_pieces` — the commands of a chain are its parts
* `skips_exact` — when a lightweight script only reads
* `slipped` — some that do not
-/

namespace DeltaBox

namespace Semantic

open Shell

variable {s p sub : List Char} {more : List String → Bool}

/-! ### Texts -/

theorem contains_iff : contains sub s = true ↔ sub <:+: s := by
  rw [contains, List.any_eq_true]
  constructor
  · rintro ⟨t, ht, hsub⟩
    exact (List.isPrefixOf_iff_prefix.mp hsub).isInfix.trans ((List.mem_tails _ _).mp ht).isInfix
  · intro h
    obtain ⟨t, hsub, ht⟩ := List.infix_iff_prefix_suffix.mp h
    exact ⟨t, (List.mem_tails _ _).mpr ht, List.isPrefixOf_iff_prefix.mpr hsub⟩

theorem strip_part (s : List Char) : strip s <:+: s := by
  have hrstrip : ∀ t : List Char, Text.rstrip t <+: t := fun t => by
    rw [Text.rstrip, ← List.reverse_suffix, List.reverse_reverse]
    exact List.dropWhile_suffix _
  exact (hrstrip _).isInfix.trans (List.dropWhile_suffix _).isInfix

/-- A part of a text that is no chain is none. -/
theorem compound_part (hp : p <:+: s) (h : compound s = false) : compound p = false := by
  rw [compound, Bool.or_eq_false_iff] at h ⊢
  refine ⟨?_, ?_⟩
  · by_contra hin
    rw [Bool.not_eq_false, contains_iff] at hin
    rw [contains_iff.mpr (hin.trans hp)] at h
    cases h.1
  · simp only [decide_eq_false_iff_not] at h ⊢
    exact fun hin => h.2 (hp.subset hin)

theorem compound_eq_false_iff : compound s = false ↔ ¬ ['&', '&'] <:+: s ∧ ';' ∉ s := by
  rw [compound, Bool.or_eq_false_iff, decide_eq_false_iff_not, ← contains_iff, Bool.not_eq_true]

/-- One more character in front makes no chain. -/
theorem compound_cons {c : Char} (hc : c ≠ ';') (hamp : ∀ t, c = '&' → s = '&' :: t → False)
    (h : compound s = false) : compound (c :: s) = false := by
  rw [compound_eq_false_iff] at h ⊢
  refine ⟨fun hin => ?_, fun hin => ?_⟩
  · rcases List.infix_cons_iff.mp hin with ⟨t, ht⟩ | hin
    · obtain ⟨hamp', hs⟩ := List.cons.inj ht
      exact hamp t hamp'.symm hs.symm
    · exact h.1 hin
  · rcases List.mem_cons.mp hin with heq | hin
    · exact hc heq.symm
    · exact h.2 hin

/-- The parts of a chain are no chains. The first one is a front part of the text. -/
theorem splitCompound_parts (s : List Char) :
    (∀ p ∈ splitCompound s, compound p = false) ∧
      ∃ p ps, splitCompound s = p :: ps ∧ p <+: s := by
  have hnil : compound [] = false := by decide
  induction s using splitCompound.induct with
  | case1 =>
    exact ⟨fun p hp => by rw [List.mem_singleton.mp hp]; exact hnil, [], [], rfl, List.prefix_rfl⟩
  | case2 cs ih =>
    rw [splitCompound]
    exact ⟨List.forall_mem_cons.mpr ⟨hnil, ih.1⟩, [], _, rfl, List.nil_prefix⟩
  | case3 cs hne ih =>
    rw [splitCompound.eq_3 _ _ hne, if_pos rfl]
    exact ⟨List.forall_mem_cons.mpr ⟨hnil, ih.1⟩, [], _, rfl, List.nil_prefix⟩
  | case4 c cs hne hsemi ih =>
    obtain ⟨hall, p, ps, hsplit, hfront⟩ := ih
    rw [hsplit] at hall
    obtain ⟨hp, hps⟩ := List.forall_mem_cons.mp hall
    rw [splitCompound.eq_3 _ _ hne, if_neg hsemi, hsplit]
    refine ⟨List.forall_mem_cons.mpr ⟨?_, hps⟩, c :: p, ps, rfl,
      List.cons_prefix_cons.mpr ⟨rfl, hfront⟩⟩
    refine compound_cons hsemi (fun t hc ht => ?_) hp
    obtain ⟨u, hu⟩ := hfront
    exact hne (t ++ u) hc (by rw [← hu, ht, List.cons_append])

/-- What is looked at is no chain. -/
theorem compound_of_mem_pieces (hp : p ∈ pieces s) : compound p = false := by
  obtain ⟨hp, -⟩ := List.mem_filter.mp hp
  obtain ⟨q, hq, rfl⟩ := List.mem_map.mp hp
  exact compound_part (strip_part q) ((splitCompound_parts s).1 q hq)

/-! ### What the classifier looks at -/

/-- The first word of a part, and what stands behind it, are harmless. -/
def harmless (s : List Char) : Bool :=
  match tokens s with
  | [] => false
  | token :: rest =>
    baseCmd token ∉ backgroundCommands && (strip s).getLast? ≠ some '&' &&
      (baseCmd token ∈ readonlyCommands || (baseCmd token = "sed" && "-i" ∉ token :: rest) ||
        baseCmd token ∈ builtinCommands)

/-- A part without an arrow, and with a harmless first word. -/
def quietPart (s : List Char) : Bool := !blank s && !writesFile (stripSafe s) && harmless s

/-- A command without an arrow whose parts are all like this. -/
def quiet (s : List Char) : Bool :=
  if compound s then
    !blank s && !writesFile (stripSafe s) && pieces s ≠ [] && (pieces s).all quietPart
  else quietPart s

theorem glance_lightweight : glance s = .lightweight ↔ harmless s = true := by
  have hpython : ∀ base, base ∈ ["python", "python3", "pytest", "tox"] →
      base ∉ readonlyCommands ∧ base ≠ "sed" ∧ base ∉ builtinCommands := by decide
  have hread : "sed" ∉ readonlyCommands := by decide
  rw [glance, harmless]
  cases tokens s with
  | nil => simp
  | cons token rest =>
    dsimp only
    by_cases hback : baseCmd token ∈ backgroundCommands
    · simp [hback]
    · by_cases hlast : (strip s).getLast? = some '&'
      · simp [hlast]
      · by_cases hpy : baseCmd token ∈ ["python", "python3", "pytest", "tox"]
        · obtain ⟨h1, h2, h3⟩ := hpython _ hpy
          rw [if_neg (by simp [hback, hlast]), if_neg h1, if_neg h2, if_neg h3]
          simp only [h1, h2, h3, decide_false, Bool.false_and, Bool.or_false, Bool.and_false]
          split
          · exact ⟨fun h => (by cases h), fun h => (by cases h)⟩
          · exact ⟨fun h => (by cases h), fun h => (by cases h)⟩
        · by_cases hro : baseCmd token ∈ readonlyCommands
          · simp [hback, hlast, hpy, hro]
          · by_cases hsed : baseCmd token = "sed"
            · by_cases hi : "-i" ∈ token :: rest
              · have hbuiltin : "sed" ∉ builtinCommands := by decide
                simp only [hsed] at hback hpy ⊢
                simp [hback, hlast, hread, hi, hbuiltin]
              · simp only [hsed] at hback hpy ⊢
                simp [hback, hlast, hread, hi]
            · simp [hback, hlast, hpy, hro, hsed]

theorem parseStep_of_not_compound (parse : List Char → Strategy) (h : compound s = false) :
    parseStep parse s = .lightweight ↔ quietPart s = true := by
  rw [parseStep, quietPart]
  cases hblank : blank s
  · cases hwrites : writesFile (stripSafe s)
    · simp [h, glance_lightweight]
    · simp
  · simp

theorem merge_lightweight {l : List Strategy} :
    merge l = .lightweight ↔ l ≠ [] ∧ ∀ x ∈ l, x = .lightweight := by
  rw [merge]
  by_cases hp : Strategy.predump ∈ l
  · rw [if_pos hp]
    exact ⟨fun h => (by cases h), fun h => (by cases h.2 _ hp)⟩
  · rw [if_neg hp]
    by_cases hs : Strategy.standard ∈ l
    · rw [if_pos hs]
      exact ⟨fun h => (by cases h), fun h => (by cases h.2 _ hs)⟩
    · rw [if_neg hs]
      by_cases hl : l = []
      · simp [hl]
      · simp [hl]

/-- **A command is lightweight if and only if it is quiet.** The calls for the parts make no more
calls. -/
theorem parseStrategy_lightweight (command : String) :
    parseStrategy command = .lightweight ↔ quiet command.toList = true := by
  rw [parseStrategy, parseFuel]
  generalize command.toList = s
  by_cases hcompound : compound s = true
  · obtain ⟨n, hn⟩ : ∃ n, s.length = n + 1 := by
      cases s with
      | nil => cases hcompound
      | cons c s => exact ⟨s.length, rfl⟩
    have hpart : ∀ p ∈ pieces s, (parseFuel s.length p = .lightweight ↔ quietPart p = true) := by
      intro p hp
      rw [hn, parseFuel]
      exact parseStep_of_not_compound _ (compound_of_mem_pieces hp)
    rw [parseStep, quiet, if_pos hcompound, if_pos hcompound]
    cases hblank : blank s
    · cases hwrites : writesFile (stripSafe s)
      · simp only [Bool.false_eq_true, if_false, merge_lightweight, List.forall_mem_map, ne_eq,
          List.map_eq_nil_iff, Bool.not_false, Bool.true_and, Bool.and_eq_true, List.all_eq_true,
          decide_not, Bool.not_eq_eq_eq_not, Bool.not_true, decide_eq_false_iff_not]
        exact and_congr_right fun _ => forall₂_congr hpart
      · simp
    · simp
  · rw [Bool.not_eq_true] at hcompound
    rw [parseStep_of_not_compound _ hcompound, quiet, if_neg (by simp [hcompound])]

/-! ### The parts of a chain -/

/-- The text of a command with no chain in its quotes, and without odd blanks at its ends. -/
structure Clean (s : List Char) : Prop where
  noChain : compound s = false
  head : ∃ c t, s = c :: t ∧ Text.isSpace c = false
  last : ∃ t c, s = t ++ [c] ∧ Text.isSpace c = false ∧ c ≠ '&'

theorem isSpace_of_gap (g : Gap) {c : Char} (hc : c ∈ g.chars) :
    Text.isSpace c = true ∧ c ≠ '&' ∧ c ≠ ';' := by
  have h := List.all_eq_true.mp g.ok c hc
  simp only [Bool.or_eq_true, decide_eq_true_eq] at h
  rcases h with rfl | rfl
  · decide
  · decide

theorem dropWhile_gap (g : Gap) (t : List Char) :
    (g.chars ++ t).dropWhile Text.isSpace = t.dropWhile Text.isSpace := by
  rw [List.dropWhile_append, if_pos]
  rw [List.isEmpty_iff, List.dropWhile_eq_nil_iff]
  exact fun c hc => (isSpace_of_gap g hc).1

/-- Without the blanks around it. -/
theorem Clean.strip (h : Clean s) (g g' : Gap) : strip (g.chars ++ s ++ g'.chars) = s := by
  obtain ⟨c, t, hhead, hc⟩ := h.head
  obtain ⟨u, d, hlast, hd, -⟩ := h.last
  have hfront : (s ++ g'.chars).dropWhile Text.isSpace = s ++ g'.chars := by
    rw [hhead, List.cons_append, List.dropWhile_cons_of_neg (by simp [hc])]
  have hback : (g'.chars.reverse ++ s.reverse).dropWhile Text.isSpace = s.reverse := by
    rw [List.dropWhile_append, if_pos]
    · rw [hlast, List.reverse_append, List.reverse_singleton, List.singleton_append,
        List.dropWhile_cons_of_neg (by simp [hd])]
    · rw [List.isEmpty_iff, List.dropWhile_eq_nil_iff]
      exact fun c hc => (isSpace_of_gap g' (List.mem_reverse.mp hc)).1
  rw [Semantic.strip, List.append_assoc, dropWhile_gap, hfront, Text.rstrip, List.reverse_append,
    hback, List.reverse_reverse]

/-- In front of a text that does not begin with the second half of a connector. -/
theorem splitCompound_cons {c : Char} (hc : c ≠ ';') (hamp : ∀ t, c = '&' → s = '&' :: t → False) :
    splitCompound (c :: s) = (splitCompound s).modifyHead (c :: ·) := by
  rw [splitCompound.eq_3 _ _ hamp, if_neg hc]

/-- **A part ends at the first connector.** -/
theorem splitCompound_connector {conn : Connector} (hconn : conn = .and ∨ conn = .semi)
    (h : compound s = false) (hlast : ∀ t, s ≠ t ++ ['&']) (rest : List Char) :
    splitCompound (s ++ conn.text ++ rest) = s :: splitCompound rest := by
  induction s with
  | nil =>
    rcases hconn with rfl | rfl
    · rw [List.nil_append, Connector.text, List.cons_append, List.cons_append, List.nil_append,
        splitCompound]
    · rw [List.nil_append, Connector.text, List.cons_append, List.nil_append,
        splitCompound.eq_3 _ _ (fun _ hc => by cases hc), if_pos rfl]
  | cons c s ih =>
    have hs : compound s = false := compound_part (List.suffix_cons c s).isInfix h
    have hne : c ≠ ';' := by
      rintro rfl
      exact (compound_eq_false_iff.mp h).2 List.mem_cons_self
    rw [List.cons_append, List.cons_append, splitCompound_cons hne, ih hs]
    · rfl
    · intro t ht
      exact hlast (c :: t) (by rw [ht, List.cons_append])
    · rintro t rfl ht
      cases s with
      | nil => exact hlast [] rfl
      | cons d s =>
        obtain rfl : d = '&' := (List.cons.inj ht).1
        exact (compound_eq_false_iff.mp h).1 ⟨[], s, rfl⟩

/-- Blanks around a command make no chain. -/
theorem Clean.compound_gaps (h : Clean s) (g g' : Gap) :
    compound (g.chars ++ s ++ g'.chars) = false ∧ ∀ t, g.chars ++ s ++ g'.chars ≠ t ++ ['&'] := by
  have hfront : ∀ (l t : List Char), (∀ c ∈ l, c ≠ '&' ∧ c ≠ ';') → compound t = false →
      compound (l ++ t) = false := by
    intro l t hl ht
    induction l with
    | nil => exact ht
    | cons c l ih =>
      obtain ⟨hc, hl⟩ := List.forall_mem_cons.mp hl
      exact compound_cons hc.2 (fun _ heq => absurd heq hc.1) (ih hl)
  have hreverse : ∀ t : List Char, compound t.reverse = compound t := by
    intro t
    rw [Bool.eq_iff_iff, compound, compound, Bool.or_eq_true, Bool.or_eq_true, contains_iff,
      contains_iff, ← List.reverse_infix, List.reverse_reverse]
    simp
  have hgap : ∀ (g : Gap), ∀ c ∈ g.chars, c ≠ '&' ∧ c ≠ ';' := fun g c hc =>
    (isSpace_of_gap g hc).2
  constructor
  · rw [List.append_assoc]
    refine hfront _ _ (hgap g) ?_
    rw [← hreverse, List.reverse_append]
    refine hfront _ _ (fun c hc => hgap g' c (List.mem_reverse.mp hc)) ?_
    rw [hreverse]
    exact h.noChain
  · intro t ht
    rcases List.eq_nil_or_concat' g'.chars with hnil | ⟨l, c, hl⟩
    · obtain ⟨u, d, hlast, -, hd⟩ := h.last
      rw [hnil, List.append_nil, hlast, ← List.append_assoc] at ht
      exact hd (List.cons.inj (List.append_inj' ht rfl).2).1
    · rw [hl, ← List.append_assoc] at ht
      have hc : c = '&' := (List.cons.inj (List.append_inj' ht rfl).2).1
      exact (hgap g' c (hl ▸ List.mem_append_right _ List.mem_cons_self)).1 hc

/-- The text of the commands behind the first one. -/
def tailChars (rest : List ((Gap × Connector × Gap) × Simple)) (last : Option (Gap × Connector)) :
    List Char :=
  (rest.flatMap fun e => e.1.1.chars ++ e.1.2.1.text ++ e.1.2.2.chars ++ e.2.chars) ++
    last.elim [] fun e => e.1.chars ++ e.2.text

/-- Only `&&` and `;` join the commands. -/
def Chained (rest : List ((Gap × Connector × Gap) × Simple)) (last : Option (Gap × Connector)) :
    Prop :=
  (∀ e ∈ rest, e.1.2.1 = .and ∨ e.1.2.1 = .semi) ∧ ∀ e ∈ last, e.2 = .semi

/-- **The commands of a chain are its parts.** -/
theorem mem_splitCompound {rest : List ((Gap × Connector × Gap) × Simple)}
    {last : Option (Gap × Connector)} (hchain : Chained rest last) (g : Gap) (c : Simple)
    (hclean : ∀ d ∈ c :: rest.map Prod.snd, Clean d.chars) :
    ∀ d ∈ c :: rest.map Prod.snd,
      d.chars ∈ (splitCompound (g.chars ++ c.chars ++ tailChars rest last)).map strip := by
  obtain ⟨hc, hrest⟩ := List.forall_mem_cons.mp hclean
  have hempty : ∃ e : Gap, e.chars = [] := ⟨⟨[], rfl⟩, rfl⟩
  induction rest generalizing g c with
  | nil =>
    intro d hd
    obtain rfl := List.mem_singleton.mp hd
    cases last with
    | none =>
      obtain ⟨e, he⟩ := hempty
      have hsingle : ∀ t : List Char, compound t = false → splitCompound t = [t] := by
        intro t
        induction t with
        | nil => exact fun _ => rfl
        | cons a t ih =>
          intro ht
          rw [splitCompound_cons, ih (compound_part (List.suffix_cons a t).isInfix ht)]
          · rfl
          · rintro rfl
            exact (compound_eq_false_iff.mp ht).2 List.mem_cons_self
          · rintro u rfl rfl
            exact (compound_eq_false_iff.mp ht).1 ⟨[], u, rfl⟩
      have htext : g.chars ++ d.chars ++ tailChars [] none = g.chars ++ d.chars ++ e.chars := by
        rw [he]
        rfl
      rw [htext, hsingle _ (hc.compound_gaps g e).1, List.map_singleton, hc.strip]
      exact List.mem_cons_self
    | some e =>
      obtain ⟨g', conn⟩ := e
      obtain rfl : conn = .semi := hchain.2 _ rfl
      have htext : g.chars ++ d.chars ++ tailChars [] (some (g', .semi)) =
          (g.chars ++ d.chars ++ g'.chars) ++ Connector.semi.text ++ [] := by
        simp [tailChars]
      rw [htext, splitCompound_connector (.inr rfl) (hc.compound_gaps g g').1
        (hc.compound_gaps g g').2, List.map_cons, hc.strip]
      exact List.mem_cons_self
  | cons e rest ih =>
    obtain ⟨⟨g₁, conn, g₂⟩, c'⟩ := e
    have htext : g.chars ++ c.chars ++ tailChars (((g₁, conn, g₂), c') :: rest) last =
        (g.chars ++ c.chars ++ g₁.chars) ++ conn.text ++
          (g₂.chars ++ c'.chars ++ tailChars rest last) := by
      simp [tailChars]
    obtain ⟨hconn, hrest'⟩ := List.forall_mem_cons.mp hchain.1
    rw [htext, splitCompound_connector hconn (hc.compound_gaps g g₁).1 (hc.compound_gaps g g₁).2]
    simp only [List.map_cons]
    rw [hc.strip]
    intro d hd
    rcases List.mem_cons.mp hd with rfl | hd
    · exact List.mem_cons_self
    · have hclean' : ∀ d ∈ c' :: rest.map Prod.snd, Clean d.chars := hrest
      exact List.mem_cons_of_mem _ (ih ⟨hrest', hchain.2⟩ g₂ c' hclean'
        (hclean' c' List.mem_cons_self) (fun d hd => hclean' d (List.mem_cons_of_mem _ hd)) d hd)

theorem mem_pieces {script : Script} (hchain : Chained script.rest script.last)
    (hclean : ∀ c ∈ script.commands, Clean c.chars) :
    ∀ c ∈ script.commands, c.chars ∈ pieces script.chars := by
  intro c hc
  refine List.mem_filter.mpr ⟨?_, ?_⟩
  · have hchars : script.chars =
        script.lead.chars ++ script.first.chars ++ tailChars script.rest script.last := by
      rw [Script.chars, tailChars, List.append_assoc]
    rw [hchars]
    exact mem_splitCompound hchain script.lead script.first hclean c hc
  · obtain ⟨x, t, heq, -⟩ := (hclean c hc).head
    simp [heq]

/-! ### The result -/

/-- Whenever a script is lightweight, each of its commands is lightweight alone, sends no output to a
path, does not edit in place, and is no read command that writes. Beside `find`, `more` says which
ones are. -/
def OnlyIfAll (more : List String → Bool) (script : Script) : Prop :=
  parseStrategy script.text = .lightweight → ∀ c ∈ script.commands,
    parseStrategy c.text = .lightweight ∧ (∀ r ∈ c.redirects, r.toPath = false) ∧
      c.editsInPlace = false ∧ c.findsAndWrites = false ∧ more c.argv = false

/-- What may be missed in a command. -/
inductive Slips (more : List String → Bool) (c : Simple) : Prop where
  /-- It is not quiet itself. -/
  | loud (h : quiet c.chars = false)
  /-- It sends its output to a path. -/
  | redirect {r : Redirect} (hr : r ∈ c.redirects) (h : r.toPath = true)
  | inPlace (h : c.editsInPlace = true)
  | writes (h : c.findsAndWrites = true ∨ more c.argv = true)

/-- Nothing is missed. The commands are the parts of a chain, the arrows to a path survive, `-i` is a
word of its own in front of them, and no read command writes. -/
structure Watched (more : List String → Bool) (script : Script) : Prop where
  chained : Chained script.rest script.last
  clean : ∀ c ∈ script.commands, Clean c.chars
  single : script.rest = [] → script.last = none → script.lead.chars = []
  redirects : ∀ c ∈ script.commands, ∀ r ∈ c.redirects, r.toPath = true →
    writesFile (stripSafe c.chars) = true
  inPlace : ∀ c ∈ script.commands, c.editsInPlace = true →
    ∃ token rest, tokens c.chars = token :: rest ∧ baseCmd token = "sed" ∧ "-i" ∈ token :: rest
  writes : ∀ c ∈ script.commands, c.findsAndWrites = false ∧ more c.argv = false

theorem parseStrategy_text {script : Script} :
    parseStrategy script.text = .lightweight ↔ quiet script.chars = true := by
  rw [parseStrategy_lightweight, Script.text, String.toList_ofList]

theorem parseStrategy_simple {c : Simple} :
    parseStrategy c.text = .lightweight ↔ quiet c.chars = true := by
  rw [parseStrategy_lightweight, Simple.text, String.toList_ofList]

/-- The `-i` of `sed` is not harmless. -/
theorem harmless_sed {token : String} {rest : List String} (h : tokens s = token :: rest)
    (hsed : baseCmd token = "sed") (hi : "-i" ∈ token :: rest) : harmless s = false := by
  have hread : "sed" ∉ readonlyCommands := by decide
  have hbuiltin : "sed" ∉ builtinCommands := by decide
  rw [harmless, h]
  simp only [hsed, hread, hbuiltin, hi, not_true_eq_false, decide_false,
    Bool.and_false, Bool.or_false]

/-- The parts of a script in which nothing is missed. -/
theorem Watched.quietPart {script : Script} (h : Watched more script)
    (hquiet : quiet script.chars = true) {c : Simple} (hc : c ∈ script.commands) :
    quietPart c.chars = true := by
  by_cases hcompound : compound script.chars = true
  · rw [quiet, if_pos hcompound, Bool.and_eq_true, List.all_eq_true] at hquiet
    exact hquiet.2 _ (mem_pieces h.chained h.clean c hc)
  · rw [quiet, if_neg hcompound] at hquiet
    rw [Bool.not_eq_true, compound_eq_false_iff] at hcompound
    obtain ⟨hamp, hsemi⟩ := hcompound
    have hrest : script.rest = [] := by
      cases hrest : script.rest with
      | nil => rfl
      | cons e rest =>
        rcases h.chained.1 e (hrest ▸ List.mem_cons_self) with hconn | hconn
        · refine absurd ⟨script.lead.chars ++ script.first.chars ++ e.1.1.chars,
            e.1.2.2.chars ++ e.2.chars ++ tailChars rest script.last, ?_⟩ hamp
          simp [Script.chars, tailChars, hrest, hconn, Connector.text]
        · refine absurd ?_ hsemi
          simp [Script.chars, hrest, hconn, Connector.text]
    have hlast : script.last = none := by
      cases hlast : script.last with
      | none => rfl
      | some e =>
        have hconn := h.chained.2 e hlast
        refine absurd ?_ hsemi
        simp [Script.chars, hlast, hconn, Connector.text]
    have hchars : script.chars = script.first.chars := by
      simp [Script.chars, hrest, hlast, h.single hrest hlast]
    rw [Script.commands, hrest] at hc
    obtain rfl := List.mem_singleton.mp hc
    exact hchars ▸ hquiet

/-- **When nothing is missed, a lightweight script only reads.** -/
theorem Watched.onlyIfAll {script : Script} (h : Watched more script) : OnlyIfAll more script := by
  intro hlight c hc
  have hpart := h.quietPart (parseStrategy_text.mp hlight) hc
  have hquiet : quiet c.chars = true := by
    rw [quiet, if_neg (by simp [(h.clean c hc).noChain])]
    exact hpart
  rw [Semantic.quietPart, Bool.and_eq_true, Bool.and_eq_true, Bool.not_eq_true'] at hpart
  obtain ⟨⟨-, harrow⟩, hharmless⟩ := hpart
  refine ⟨parseStrategy_simple.mpr hquiet, fun r hr => ?_, ?_, h.writes c hc⟩
  · by_contra hpath
    rw [Bool.not_eq_false] at hpath
    rw [h.redirects c hc r hr hpath] at harrow
    cases harrow
  · by_contra hedits
    rw [Bool.not_eq_false] at hedits
    obtain ⟨token, rest, htokens, hsed, hi⟩ := h.inPlace c hc hedits
    rw [harmless_sed htokens hsed hi] at hharmless
    cases hharmless

/-- **When a lightweight script only reads.** This is so if and only if nothing in it slips, or it is
not quiet anyway. It is so for every script in which nothing is missed. -/
theorem skips_exact (more : List String → Bool) (script : Script) :
    (OnlyIfAll more script ↔
      (quiet script.text.toList = true → ∀ c ∈ script.commands, ¬ Slips more c)) ∧
    (Watched more script → OnlyIfAll more script) := by
  refine ⟨?_, Watched.onlyIfAll⟩
  rw [OnlyIfAll, parseStrategy_lightweight]
  refine forall_congr' fun _ => forall₂_congr fun c _ => ?_
  rw [parseStrategy_simple]
  constructor
  · rintro ⟨hquiet, hpath, hedits, hfinds, hmore⟩ hslips
    cases hslips with
    | loud h => cases hquiet.symm.trans h
    | redirect hr h => cases (hpath _ hr).symm.trans h
    | inPlace h => cases hedits.symm.trans h
    | writes h =>
      rcases h with h | h
      · cases hfinds.symm.trans h
      · cases hmore.symm.trans h
  · intro hnot
    refine ⟨?_, fun r hr => ?_, ?_, ?_, ?_⟩
    · exact Bool.not_eq_false _ ▸ fun h => hnot (.loud h)
    · exact Bool.not_eq_true _ ▸ fun h => hnot (.redirect hr h)
    · exact Bool.not_eq_true _ ▸ fun h => hnot (.inPlace h)
    · exact Bool.not_eq_true _ ▸ fun h => hnot (.writes (.inl h))
    · exact Bool.not_eq_true _ ▸ fun h => hnot (.writes (.inr h))

/-! ### Some scripts -/

/-- A blank. -/
def aGap : Gap := ⟨[' '], rfl⟩

/-- No blank. -/
def noGap : Gap := ⟨[], rfl⟩

/-- A script of one command. -/
def alone (c : Simple) : Script := ⟨noGap, c, [], none, rfl⟩

/-- `cd src && ls` -/
def listing : Script where
  lead := noGap
  first := ⟨.word (Word.bare "cd" (by decide) (by decide)),
    [(aGap, .word (Word.bare "src" (by decide) (by decide)))], by decide⟩
  rest := [((aGap, .and, aGap), ⟨.word (Word.bare "ls" (by decide) (by decide)), [], by decide⟩)]
  last := none
  ok := rfl

/-- Nothing is missed in `cd src && ls`. -/
theorem skips_exact_listing : OnlyIfAll (fun _ => false) listing := by
  refine (skips_exact (fun _ => false) listing).2 ⟨?_, ?_, ?_, ?_, ?_, ?_⟩
  · exact ⟨by simp [listing], by simp [listing]⟩
  · intro c hc
    rcases List.mem_cons.mp hc with rfl | hc
    · exact ⟨by decide +kernel, ⟨'c', "d src".toList, by decide +kernel, by decide⟩,
        "cd sr".toList, 'c', by decide +kernel, by decide, by decide⟩
    · obtain rfl := List.mem_singleton.mp hc
      exact ⟨by decide +kernel, ⟨'l', ['s'], by decide +kernel, by decide⟩,
        ['l'], 's', by decide +kernel, by decide, by decide⟩
  · intro hrest
    cases hrest
  · simp [listing, Script.commands, Simple.redirects, Simple.items]
  · intro c hc
    have hnot : ∀ d ∈ listing.commands, d.editsInPlace = false := by decide +kernel
    exact fun h => (by cases (hnot c hc).symm.trans h)
  · intro c hc
    rcases List.mem_cons.mp hc with rfl | hc
    · decide +kernel
    · obtain rfl := List.mem_singleton.mp hc
      decide +kernel

/-- `tee out.txt` -/
def teeOut : Simple := ⟨.word (Word.bare "tee" (by decide) (by decide)),
  [(aGap, .word (Word.bare "out.txt" (by decide) (by decide)))], by decide⟩

/-- `ls | tee out.txt` -/
def piped : Script where
  lead := noGap
  first := ⟨.word (Word.bare "ls" (by decide) (by decide)), [], by decide⟩
  rest := [((aGap, .pipe, aGap), teeOut)]
  last := none
  ok := rfl

/-- `echo x >/dev/nullx` -/
def hidden : Simple := ⟨.word (Word.bare "echo" (by decide) (by decide)),
  [(aGap, .word (Word.bare "x" (by decide) (by decide))),
    (aGap, .redirect ⟨[], .out, noGap, Word.bare "/dev/nullx" (by decide) (by decide), rfl⟩)],
  by decide⟩

/-- `sed -i.bak s/a/b/ f` -/
def sedBak : Simple := ⟨.word (Word.bare "sed" (by decide) (by decide)),
  [(aGap, .word (Word.bare "-i.bak" (by decide) (by decide))),
    (aGap, .word (Word.bare "s/a/b/" (by decide) (by decide))),
    (aGap, .word (Word.bare "f" (by decide) (by decide)))], by decide⟩

/-- `find . -delete` -/
def findDelete : Simple := ⟨.word (Word.bare "find" (by decide) (by decide)),
  [(aGap, .word (Word.bare "." (by decide) (by decide))),
    (aGap, .word (Word.bare "-delete" (by decide) (by decide)))], by decide⟩

/-- **Lightweight commands that write.** One is behind a bar, one writes to a path that begins like
`/dev/null`, one edits in place and keeps a copy, and one deletes. -/
theorem slipped : piped.text = "ls | tee out.txt" ∧ ∀ more : List String → Bool,
    ¬ OnlyIfAll more piped ∧ ¬ OnlyIfAll more (alone hidden) ∧ ¬ OnlyIfAll more (alone sedBak) ∧
      ¬ OnlyIfAll more (alone findDelete) := by
  refine ⟨by decide +kernel, fun more => ⟨fun h => ?_, fun h => ?_, fun h => ?_, fun h => ?_⟩⟩
  · have hlight : parseStrategy piped.text = .lightweight := by decide +kernel
    have htee : parseStrategy teeOut.text = .standard := by decide +kernel
    have hboth := (h hlight teeOut (List.mem_cons_of_mem _ List.mem_cons_self)).1
    cases htee.symm.trans hboth
  · have hlight : parseStrategy (alone hidden).text = .lightweight := by decide +kernel
    have hpath : ∃ r ∈ hidden.redirects, r.toPath = true := ⟨_, List.mem_cons_self, by decide +kernel⟩
    obtain ⟨r, hr, hpath⟩ := hpath
    cases ((h hlight hidden List.mem_cons_self).2.1 r hr).symm.trans hpath
  · have hlight : parseStrategy (alone sedBak).text = .lightweight := by decide +kernel
    have hedits : sedBak.editsInPlace = true := by decide +kernel
    cases (h hlight sedBak List.mem_cons_self).2.2.1.symm.trans hedits
  · have hlight : parseStrategy (alone findDelete).text = .lightweight := by decide +kernel
    have hfinds : findDelete.findsAndWrites = true := by decide +kernel
    cases (h hlight findDelete List.mem_cons_self).2.2.2.1.symm.trans hfinds

end Semantic

end DeltaBox
