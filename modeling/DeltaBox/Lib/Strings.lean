import DeltaBox.Lib.Lines
import DeltaBox.Lib.Text
import Mathlib.Data.List.Infix
import Mathlib.Data.List.TakeWhile

/-!
# Cutting a text into lines and putting it together again

A text whose lines each end in a line feed, read by `str.splitlines`. The splitter knows more line
breaks than the line feed, so a line of the text is one line of the result only when it has none of
the others in it.

## Main definitions

* `Text.NoBreak` — a line without a line break
* `Text.strip`, `Text.words`, `Text.removePrefix`, `Text.after` — methods of `str`
* `Text.joined` — lines put together

## Main results

* `Text.splitlines_join` — the lines of a text are cut one by one
* `Text.join_injective` — a text has one list of lines
* `Text.flatMap_eq_flatMap_iff` — blocks that are not shorter than others agree with them one by one
-/

namespace DeltaBox

namespace Text

open OverList

/-- A line without a line break. -/
def NoBreak (l : List Char) : Prop := ∀ c ∈ l, isBreak c = false

instance (l : List Char) : Decidable (NoBreak l) := inferInstanceAs (Decidable (∀ c ∈ l, _))

/-- `str.strip()`. -/
def strip (cs : List Char) : List Char := rstrip (cs.dropWhile isSpace)

/-- `str.split()`. -/
def words (cs : List Char) : List (List Char) := (cs.splitOnP isSpace).filter (· ≠ [])

/-- `str.removeprefix`. -/
def removePrefix (pre cs : List Char) : List Char := if pre <+: cs then cs.drop pre.length else cs

/-- `cs.split(sub, 1)[1]`, if `sub` is in the text. It is not empty. -/
def after (sub : List Char) : List Char → Option (List Char)
  | [] => none
  | c :: cs => if sub <+: c :: cs then some ((c :: cs).drop sub.length) else after sub cs

/-- `"\n".join(out) + ("\n" if out else "")`. -/
def joined (out : List (List Char)) : List Char :=
  ['\n'].intercalate out ++ if out = [] then [] else ['\n']

theorem joined_eq (out : List (List Char)) : joined out = Lines.join '\n' out := by
  induction out with
  | nil => rfl
  | cons l out ih =>
    cases out with
    | nil => simp [joined]
    | cons m out =>
      rw [Lines.join_cons, ← ih]
      simp [joined]

/-! ### Lines -/

theorem isBreak_of_newline : isBreak '\n' = true := rfl

theorem NoBreak.newline_notMem {l : List Char} (h : NoBreak l) : '\n' ∉ l := by
  intro hmem
  have hbreak := h '\n' hmem
  rw [isBreak_of_newline] at hbreak
  cases hbreak

theorem NoBreak.mono {l m : List Char} (h : NoBreak m) (hsub : l ⊆ m) : NoBreak l :=
  fun c hc => h c (hsub hc)

theorem NoBreak.append {l m : List Char} (hl : NoBreak l) (hm : NoBreak m) : NoBreak (l ++ m) := by
  intro c hc
  rcases List.mem_append.mp hc with hc | hc
  · exact hl c hc
  · exact hm c hc

/-- A character in front of the first line. -/
def consHead (c : Char) : List (List Char) → List (List Char)
  | [] => [[c]]
  | l :: ls => (c :: l) :: ls

theorem splitlines_cons {c : Char} (hc : c ≠ '\r') (cs : List Char) :
    splitlines (c :: cs) =
      if isBreak c then [] :: splitlines cs else consHead c (splitlines cs) := by
  rw [splitlines.eq_3 c cs fun _ hr _ => hc hr]
  cases splitlines cs <;> rfl

theorem splitlines_return {cs : List Char} (h : ∀ rest, cs ≠ '\n' :: rest) :
    splitlines ('\r' :: cs) = [] :: splitlines cs := by
  rw [splitlines.eq_3 _ cs fun rest _ hcs => h rest hcs]
  rfl

theorem splitlines_newline (cs : List Char) : splitlines ('\n' :: cs) = [] :: splitlines cs := by
  rw [splitlines_cons (by decide)]
  rfl

theorem consHead_append {c : Char} {ls ms : List (List Char)} (h : ls ≠ []) :
    consHead c (ls ++ ms) = consHead c ls ++ ms := by
  cases ls with
  | nil => exact absurd rfl h
  | cons l ls => rfl

theorem splitlines_ne_nil {cs : List Char} (h : cs ≠ []) : splitlines cs ≠ [] := by
  induction cs using splitlines.induct <;> simp_all [splitlines]

/-- A line feed ends what stands before it, whatever that is. -/
theorem splitlines_append : ∀ l rest : List Char,
    splitlines (l ++ '\n' :: rest) = splitlines (l ++ ['\n']) ++ splitlines rest
  | [], rest => by
    rw [List.nil_append, List.nil_append, splitlines_newline, splitlines_newline]
    rfl
  | [c], rest => by
    by_cases hr : c = '\r'
    · subst hr
      rfl
    · rw [List.singleton_append, List.singleton_append, splitlines_cons hr, splitlines_cons hr,
        splitlines_newline, splitlines_newline]
      split_ifs <;> rfl
  | c :: d :: cs, rest => by
    have ih := splitlines_append (d :: cs) rest
    show splitlines (c :: (d :: cs ++ '\n' :: rest)) =
      splitlines (c :: (d :: cs ++ ['\n'])) ++ splitlines rest
    by_cases hr : c = '\r'
    · subst hr
      by_cases hn : d = '\n'
      · -- the two together are one line break
        subst hn
        exact congrArg ([] :: ·) (splitlines_append cs rest)
      · have hlone : ∀ more tail, d :: cs ++ more ≠ '\n' :: tail :=
          fun more tail h => hn (List.cons.inj h).1
        rw [splitlines_return (hlone _), splitlines_return (hlone _), ih]
        rfl
    · rw [splitlines_cons hr, splitlines_cons hr, ih]
      split_ifs
      · rfl
      · exact consHead_append (splitlines_ne_nil (by simp))

/-- The lines of a text are cut one by one. -/
theorem splitlines_join (ls : List (List Char)) :
    splitlines (Lines.join '\n' ls) = ls.flatMap fun l => splitlines (l ++ ['\n']) := by
  induction ls with
  | nil => rfl
  | cons l ls ih => rw [Lines.join_cons, splitlines_append, ih, List.flatMap_cons]

theorem splitlines_of_noBreak {l : List Char} (h : NoBreak l) : splitlines (l ++ ['\n']) = [l] := by
  induction l with
  | nil => exact splitlines_newline []
  | cons c l ih =>
    have hc : isBreak c = false := h c List.mem_cons_self
    have hr : c ≠ '\r' := by
      rintro rfl
      cases hc
    rw [List.cons_append, splitlines_cons hr, ih (h.mono (List.subset_cons_self c l)), hc]
    rfl

theorem noBreak_of_mem_splitlines {cs l : List Char} (h : l ∈ splitlines cs) : NoBreak l := by
  have hnil : NoBreak [] := fun c hc => nomatch hc
  induction cs using splitlines.induct generalizing l with
  | case1 => cases h
  | case2 cs ih =>
    rw [splitlines] at h
    rcases List.mem_cons.mp h with rfl | h
    · exact hnil
    · exact ih h
  | case3 c cs hcr hc ih =>
    rw [splitlines.eq_3 _ _ hcr, if_pos hc] at h
    rcases List.mem_cons.mp h with rfl | h
    · exact hnil
    · exact ih h
  | case4 c cs hcr hc hlast ih =>
    rw [splitlines.eq_3 _ _ hcr, if_neg hc, hlast] at h
    obtain rfl := List.mem_singleton.mp h
    simpa [NoBreak] using hc
  | case5 c cs hcr hc first rest hcons ih =>
    rw [splitlines.eq_3 _ _ hcr, if_neg hc, hcons] at h
    rcases List.mem_cons.mp h with rfl | h
    · have hfirst : NoBreak first := ih (hcons ▸ List.mem_cons_self)
      intro d hd
      rcases List.mem_cons.mp hd with rfl | hd
      · exact eq_false_of_ne_true hc
      · exact hfirst d hd
    · exact ih (hcons ▸ List.mem_cons_of_mem _ h)

/-- A text has one list of lines. -/
theorem join_injective {ls ms : List (List Char)} (hl : ∀ l ∈ ls, '\n' ∉ l)
    (hm : ∀ l ∈ ms, '\n' ∉ l) (h : Lines.join '\n' ls = Lines.join '\n' ms) : ls = ms := by
  have hcut : Lines.lines '\n' (Lines.join '\n' ls) = ls := by
    simpa [Lines.lines] using Lines.lines_join hl []
  rw [← hcut, h]
  simpa [Lines.lines] using Lines.lines_join hm []

/-- **Blocks that are not shorter than others agree with them one by one.** -/
theorem flatMap_eq_flatMap_iff {α β : Type*} {f g : α → List β} {l : List α}
    (h : ∀ x ∈ l, (g x).length ≤ (f x).length) :
    l.flatMap f = l.flatMap g ↔ ∀ x ∈ l, f x = g x := by
  refine ⟨fun heq => ?_, fun heq => List.flatMap_congr heq⟩
  have hlen : ∀ l : List α, (∀ x ∈ l, (g x).length ≤ (f x).length) →
      (l.flatMap g).length ≤ (l.flatMap f).length := by
    intro l hl
    induction l with
    | nil => exact Nat.le_refl _
    | cons x l ih =>
      have htail := ih fun y hy => hl y (List.mem_cons_of_mem _ hy)
      have hhead := hl x List.mem_cons_self
      simp only [List.flatMap_cons, List.length_append]
      omega
  induction l with
  | nil => exact fun x hx => nomatch hx
  | cons x l ih =>
    have htail := fun y hy => h y (List.mem_cons_of_mem x hy)
    have hhead := h x List.mem_cons_self
    have hrest := hlen l htail
    have hsum := congrArg List.length heq
    simp only [List.flatMap_cons, List.length_append] at heq hsum
    obtain ⟨hx, hl⟩ := List.append_inj heq (by omega)
    intro y hy
    rcases List.mem_cons.mp hy with rfl | hy
    · exact hx
    · exact ih htail hl y hy

/-! ### Ends of a text -/

/-- What is left of a text without blanks at its end ends as the text does. -/
theorem rstrip_of_suffix {r p : List Char} (h : r <:+ rstrip p) : rstrip r = r := by
  cases hr : r.reverse with
  | nil =>
    rw [List.reverse_eq_nil_iff.mp hr]
    rfl
  | cons c cs =>
    have hpre : c :: cs <+: p.reverse.dropWhile isSpace := by
      rw [← hr]
      simpa [rstrip] using List.reverse_prefix.mpr h
    obtain ⟨more, hmore⟩ := hpre
    have hc : isSpace c = false := by
      have hhead := List.head?_dropWhile_not isSpace p.reverse
      rw [← hmore] at hhead
      simpa using hhead
    rw [rstrip, hr, List.dropWhile_cons_of_neg (by simp [hc]), ← hr, List.reverse_reverse]

theorem rstrip_isPrefix (p : List Char) : rstrip p <+: p := by
  rw [← List.reverse_suffix, rstrip, List.reverse_reverse]
  exact List.dropWhile_suffix _

theorem rstrip_rstrip (p : List Char) : rstrip (rstrip p) = rstrip p :=
  rstrip_of_suffix List.suffix_rfl

/-- What is stripped off at the ends does not matter. -/
theorem strip_between {lead trail cs : List Char} (hlead : ∀ c ∈ lead, isSpace c = true)
    (htrail : ∀ c ∈ trail, isSpace c = true) : strip (lead ++ cs ++ trail) = strip cs := by
  have hrstrip : ∀ l : List Char, rstrip (l ++ trail) = rstrip l := by
    intro l
    rw [rstrip, rstrip, List.reverse_append, List.dropWhile_append_of_pos]
    exact fun c hc => htrail c (List.mem_reverse.mp hc)
  rw [strip, strip, List.append_assoc, List.dropWhile_append_of_pos hlead, List.dropWhile_append]
  split_ifs with hnil
  · -- there are only blanks
    have hcs : cs.dropWhile isSpace = [] := List.isEmpty_iff.mp hnil
    rw [hcs, List.dropWhile_eq_nil_iff.mpr htrail]
  · exact hrstrip _

/-- A front that ends in no blank stays. -/
theorem rstrip_append {front : List Char} (h : rstrip front = front) (q : List Char) :
    rstrip (front ++ q) = front ++ rstrip q := by
  rw [rstrip, List.reverse_append, List.dropWhile_append]
  split_ifs with hq
  · have hnil : rstrip q = [] := by
      rw [rstrip, List.isEmpty_iff.mp hq]
      rfl
    rw [hnil, List.append_nil]
    exact h
  · rw [List.reverse_append, List.reverse_reverse]
    rfl

theorem removePrefix_append (pre cs : List Char) : removePrefix pre (pre ++ cs) = cs := by
  rw [removePrefix, if_pos (List.prefix_append ..), List.drop_left]

theorem removePrefix_of_not {pre cs : List Char} (h : ¬ pre <+: cs) : removePrefix pre cs = cs :=
  if_neg h

theorem removePrefix_suffix (pre cs : List Char) : removePrefix pre cs <:+ cs := by
  unfold removePrefix
  split_ifs
  · exact List.drop_suffix ..
  · exact List.suffix_rfl

theorem after_eq_none_iff {sub : List Char} (hsub : sub ≠ []) {cs : List Char} :
    after sub cs = none ↔ ¬ sub <:+: cs := by
  induction cs with
  | nil => simp [after, hsub]
  | cons c cs ih =>
    rw [after, List.infix_cons_iff, not_or, ← ih]
    split_ifs with h <;> simp [h]

theorem of_after_eq_some {sub cs r : List Char} (h : after sub cs = some r) :
    r <:+ cs ∧ r.length + sub.length ≤ cs.length := by
  induction cs with
  | nil => cases h
  | cons c cs ih =>
    rw [after] at h
    split_ifs at h with hpre
    · obtain rfl := Option.some.inj h
      have hlen := hpre.length_le
      refine ⟨List.drop_suffix .., ?_⟩
      rw [List.length_drop]
      omega
    · obtain ⟨hsuffix, hlen⟩ := ih h
      refine ⟨hsuffix.trans (List.suffix_cons ..), ?_⟩
      rw [List.length_cons]
      omega

/-! ### Words -/

theorem of_mem_splitOnP {α : Type*} {p : α → Bool} {cs w : List α} (h : w ∈ cs.splitOnP p) :
    (∀ c ∈ w, p c = false) ∧ w ⊆ cs := by
  induction cs generalizing w with
  | nil => simp_all
  | cons x xs ih =>
    rw [List.splitOnP_cons_eq_if_modifyHead] at h
    split_ifs at h with hx
    · rcases List.mem_cons.mp h with rfl | h
      · simp
      · exact ⟨(ih h).1, List.subset_cons_of_subset x (ih h).2⟩
    · obtain ⟨first, rest, hsplit⟩ := List.exists_cons_of_ne_nil (List.splitOnP_ne_nil p xs)
      rw [hsplit, List.modifyHead_cons] at h
      rcases List.mem_cons.mp h with rfl | h
      · obtain ⟨hfirst, hsub⟩ := ih (hsplit ▸ List.mem_cons_self)
        simp only [Bool.not_eq_true] at hx
        simpa [hx, List.subset_cons_of_subset x hsub] using hfirst
      · obtain ⟨hw, hsub⟩ := ih (hsplit ▸ List.mem_cons_of_mem _ h)
        exact ⟨hw, List.subset_cons_of_subset x hsub⟩

/-- A word has no blank in it. -/
theorem of_mem_words {cs w : List Char} (h : w ∈ words cs) :
    (∀ c ∈ w, isSpace c = false) ∧ w ⊆ cs :=
  of_mem_splitOnP (List.mem_filter.mp h).1

theorem words_cons {w cs : List Char} (hw : w ≠ []) (hspace : ∀ c ∈ w, isSpace c = false) :
    words (w ++ ' ' :: cs) = w :: words cs := by
  rw [words, List.splitOnP_append_cons_of_forall_mem hspace ' ' rfl cs]
  simp [words, hw]

theorem words_singleton {w : List Char} (hw : w ≠ []) (hspace : ∀ c ∈ w, isSpace c = false) :
    words w = [w] := by
  rw [words, List.splitOnP_eq_singleton hspace]
  simp [hw]

end Text

end DeltaBox
