import DeltaBox.Lib.Strings

/-!
# Patches and what is done to their sections

A patch is a sequence of sections, one for each file: a line that opens it, more header lines, and
the lines of its hunks. Git quotes paths with control characters or bytes outside ASCII, so a header
line has no line break of any kind in it; a line of a hunk has its marker at the front and after it
whatever the file has there, up to the line feed.

A pass over a patch cuts the text with `str.splitlines`, which knows more line breaks, and puts it
together with line feeds. It is to drop the sections of some paths and to leave the hunks of the
others alone, and a second pass over the result is to change nothing.

## Main definitions

* `Patch.Section`, `Patch.text` — a section, and the text of a patch
* `Patch.sections` — the loop that gathers the lines of a text into sections
* `Patch.Pass.Meets` — what a pass is to do to a patch

## Main results

* `Patch.Pass.meets_iff` — a pass does it to a patch when it does it to each section
-/

namespace DeltaBox

namespace Patch

open Text

/-- A line of a patch, without the line feed. -/
abbrev Line := List Char

/-- What a section begins with. -/
def diffGit : Line := ['d', 'i', 'f', 'f', ' ', '-', '-', 'g', 'i', 't', ' ']

/-- What the lines of a hunk begin with: its head, its three kinds of line, and the remark that the
file has no line feed at its end. -/
def markers : List Char := ['@', ' ', '-', '+', '\\']

/-- The part of a patch that is about one file. -/
structure Section where
  first : Line
  headers : List Line
  hunks : List Line
  opens : diffGit <+: first
  noBreak_first : NoBreak first
  headers_ok : ∀ l ∈ headers, NoBreak l ∧ ¬ diffGit <+: l
  hunks_ok : ∀ l ∈ hunks, '\n' ∉ l ∧ ∃ c ∈ markers, ∃ cs, l = c :: cs

/-- The lines of a section. -/
def Section.lines (s : Section) : List Line := s.first :: (s.headers ++ s.hunks)

/-- The text of a patch. -/
def text (ps : List Section) : List Char := Lines.join '\n' (ps.flatMap Section.lines)

/-! ### Gathering the lines of a text -/

/-- `if cur: hunks.append(cur)`. -/
def flush (s : List (List Line) × List Line) : List (List Line) :=
  if s.2 = [] then s.1 else s.1 ++ [s.2]

/-- One turn of the loop over the lines. -/
def gather (s : List (List Line) × List Line) (line : Line) : List (List Line) × List Line :=
  if diffGit <+: line then (flush s, [line])
  else if s.2 = [] then s else (s.1, s.2 ++ [line])

/-- The loop over the lines, and the flush behind it. -/
def sections (ls : List Line) : List (List Line) := flush (ls.foldl gather ([], []))

theorem flush_append (H : List (List Line)) (s : List (List Line) × List Line) :
    flush (H ++ s.1, s.2) = H ++ flush s := by
  unfold flush
  split_ifs <;> simp

theorem gather_append (H : List (List Line)) (s : List (List Line) × List Line) (l : Line) :
    gather (H ++ s.1, s.2) l = (H ++ (gather s l).1, (gather s l).2) := by
  unfold gather
  rw [flush_append]
  split_ifs <;> rfl

/-- What has been gathered before stays at the front. -/
theorem foldl_gather_append (ls : List Line) (H : List (List Line))
    (s : List (List Line) × List Line) :
    flush (ls.foldl gather (H ++ s.1, s.2)) = H ++ flush (ls.foldl gather s) := by
  induction ls generalizing s with
  | nil => exact flush_append H s
  | cons l ls ih =>
    rw [List.foldl_cons, List.foldl_cons, gather_append]
    exact ih _

/-- A line that opens a section closes the one before it. -/
theorem sections_append (ls : List Line) {l : Line} (hl : diffGit <+: l) (ms : List Line) :
    sections (ls ++ l :: ms) = sections ls ++ sections (l :: ms) := by
  have hopen : ∀ s, gather s l = (flush s ++ [], [l]) := by
    intro s
    rw [gather, if_pos hl, List.append_nil]
  have hnil : gather ([], []) l = ([], [l]) := by rw [hopen]; rfl
  unfold sections
  rw [List.foldl_append, List.foldl_cons, List.foldl_cons, hnil, hopen]
  exact foldl_gather_append ms _ ([], [l])

theorem foldl_gather_of_not {ls : List Line} (h : ∀ l ∈ ls, ¬ diffGit <+: l)
    {H : List (List Line)} {cur : List Line} (hcur : cur ≠ []) :
    ls.foldl gather (H, cur) = (H, cur ++ ls) := by
  induction ls generalizing cur with
  | nil => simp
  | cons l ls ih =>
    have hgather : gather (H, cur) l = (H, cur ++ [l]) := by
      rw [gather, if_neg (h l List.mem_cons_self), if_neg hcur]
    rw [List.foldl_cons, hgather, ih (fun m hm => h m (List.mem_cons_of_mem _ hm)) (by simp),
      List.append_assoc]
    rfl

/-- Lines of which only the first opens a section are one section. -/
theorem sections_single {first : Line} (hfirst : diffGit <+: first) {ls : List Line}
    (h : ∀ l ∈ ls, ¬ diffGit <+: l) : sections (first :: ls) = [first :: ls] := by
  have hopen : gather ([], []) first = ([], [first]) := by
    rw [gather, if_pos hfirst]
    rfl
  rw [sections, List.foldl_cons, hopen, foldl_gather_of_not h (by simp)]
  rfl

/-- The lines that open the sections, in order. -/
theorem heads_sections (ls : List Line) :
    (sections ls).filterMap List.head? = ls.filter (diffGit <+: ·) ∧
      ∀ h ∈ sections ls, h ≠ [] := by
  have hstep : ∀ s l, (flush (gather s l)).filterMap List.head? =
      (flush s).filterMap List.head? ++ [l].filter (diffGit <+: ·) := by
    intro s l
    unfold gather
    split_ifs with hl hcur
    · simp [flush, hl]
    · simp [hl]
    · obtain ⟨c, cs, hcons⟩ := List.exists_cons_of_ne_nil hcur
      simp [flush, hcons, hl]
  have hne : ∀ s l, (∀ h ∈ flush s, h ≠ []) → ∀ h ∈ flush (gather s l), h ≠ [] := by
    intro s l hs
    have hpush : ∀ (H : List (List Line)) (cur : List Line), cur ≠ [] → (∀ h ∈ H, h ≠ []) →
        ∀ h ∈ flush (H, cur), h ≠ [] := by
      intro H cur hcur hH h hh
      rw [flush, if_neg hcur] at hh
      rcases List.mem_append.mp hh with hh | hh
      · exact hH h hh
      · rwa [List.mem_singleton.mp hh]
    unfold gather
    split_ifs with hl hcur
    · exact hpush _ _ (by simp) hs
    · exact hs
    · rw [flush, if_neg hcur] at hs
      exact hpush _ _ (by simp) fun h hh => hs h (List.mem_append_left _ hh)
  have hfold : ∀ s, (∀ h ∈ flush s, h ≠ []) →
      (flush (ls.foldl gather s)).filterMap List.head? =
        (flush s).filterMap List.head? ++ ls.filter (diffGit <+: ·) ∧
      ∀ h ∈ flush (ls.foldl gather s), h ≠ [] := by
    induction ls with
    | nil => simp
    | cons l ls ih =>
      intro s hs
      obtain ⟨hheads, hall⟩ := ih (gather s l) (hne s l hs)
      refine ⟨?_, hall⟩
      rw [List.foldl_cons, hheads, hstep, List.append_assoc, ← List.filter_append]
      rfl
  exact hfold ([], []) (by simp [flush])

/-! ### The lines of a patch -/

/-- What the splitter makes of a section. -/
def Section.pieces (s : Section) : List Line := s.lines.flatMap fun l => splitlines (l ++ ['\n'])

theorem splitlines_text (ps : List Section) : splitlines (text ps) = ps.flatMap Section.pieces := by
  rw [text, splitlines_join, List.flatMap_assoc]
  rfl

theorem Section.newline_notMem (s : Section) : ∀ l ∈ s.lines, '\n' ∉ l := by
  intro l hl
  rcases List.mem_cons.mp hl with rfl | hl
  · exact s.noBreak_first.newline_notMem
  · rcases List.mem_append.mp hl with hl | hl
    · exact (s.headers_ok l hl).1.newline_notMem
    · exact (s.hunks_ok l hl).1

/-- No line of a hunk opens a section. -/
theorem Section.not_diffGit (s : Section) : ∀ l ∈ s.headers ++ s.hunks, ¬ diffGit <+: l := by
  intro l hl
  rcases List.mem_append.mp hl with hl | hl
  · exact (s.headers_ok l hl).2
  · obtain ⟨-, c, hc, cs, rfl⟩ := s.hunks_ok l hl
    rintro ⟨more, hmore⟩
    have hfirst : 'd' = c := (List.cons.inj hmore).1
    rw [← hfirst] at hc
    revert hc
    decide

/-- A section whose hunks have no other line breaks is cut at its line feeds. -/
theorem Section.pieces_eq (s : Section) (h : ∀ l ∈ s.hunks, NoBreak l) : s.pieces = s.lines := by
  have hlines : ∀ l ∈ s.lines, splitlines (l ++ ['\n']) = [l] := by
    intro l hl
    refine splitlines_of_noBreak ?_
    rcases List.mem_cons.mp hl with rfl | hl
    · exact s.noBreak_first
    · rcases List.mem_append.mp hl with hl | hl
      · exact (s.headers_ok l hl).1
      · exact h l hl
  rw [pieces, List.flatMap_congr hlines]
  simp

/-- The first piece opens the section. -/
theorem Section.pieces_cons (s : Section) : ∃ more, s.pieces = s.first :: more := by
  refine ⟨(s.headers ++ s.hunks).flatMap fun l => splitlines (l ++ ['\n']), ?_⟩
  rw [pieces, lines, List.flatMap_cons, splitlines_of_noBreak s.noBreak_first]
  rfl

/-- Sections are gathered one by one. -/
theorem sections_text (ps : List Section) :
    sections (splitlines (text ps)) = ps.flatMap fun s => sections s.pieces := by
  rw [splitlines_text]
  induction ps using List.reverseRecOn with
  | nil => rfl
  | append_singleton ps s ih =>
    obtain ⟨more, hpieces⟩ := s.pieces_cons
    rw [List.flatMap_append, List.flatMap_append, List.flatMap_singleton, List.flatMap_singleton,
      hpieces, sections_append _ s.opens, ih]

/-! ### Passes -/

/-- A function on texts, the first lines of the sections it is to keep, and what it does to the
header lines of these. -/
structure Pass where
  run : List Char → List Char
  keeps : Line → Bool
  retouch : Section → Section
  hunks_retouch : ∀ s, (retouch s).hunks = s.hunks

/-- The sections a pass is to keep, in their order and with their hunks. -/
def Pass.rest (pass : Pass) (ps : List Section) : List Section :=
  (ps.filter fun s => pass.keeps s.first).map pass.retouch

/-- **What a pass is to do to a patch.** It keeps whole sections, leaves their hunks alone, and does
nothing the second time. -/
def Pass.Meets (pass : Pass) (ps : List Section) : Prop :=
  pass.run (text ps) = text (pass.rest ps) ∧
    pass.run (pass.run (text ps)) = pass.run (text ps)

/-- A pass that goes from section to section: the lines it puts out for each of them. -/
structure Pass.Emits (pass : Pass) (emit : Section → List Line) : Prop where
  run_eq : ∀ ps, pass.run (text ps) = joined (ps.flatMap emit)
  noBreak : ∀ s, ∀ l ∈ emit s, NoBreak l
  length_eq : ∀ s, pass.keeps s.first → (∀ l ∈ s.hunks, NoBreak l) →
    (emit s).length = (pass.retouch s).lines.length
  length_le : ∀ s, (∀ l ∈ s.hunks, NoBreak l) → (emit s).length ≤ s.lines.length

variable {pass : Pass} {emit : Section → List Line}

theorem joined_eq_text_iff {out : List Line} (hout : ∀ l ∈ out, NoBreak l) (ps : List Section) :
    joined out = text ps ↔ out = ps.flatMap Section.lines := by
  rw [joined_eq, text]
  refine ⟨join_injective (fun l hl => (hout l hl).newline_notMem) ?_, fun h => by rw [h]⟩
  intro l hl
  obtain ⟨s, -, hs⟩ := List.mem_flatMap.mp hl
  exact s.newline_notMem l hs

theorem Pass.flatMap_rest (pass : Pass) (ps : List Section) :
    (pass.rest ps).flatMap Section.lines =
      ps.flatMap fun s => if pass.keeps s.first then (pass.retouch s).lines else [] := by
  induction ps with
  | nil => rfl
  | cons s ps ih =>
    rw [rest] at ih ⊢
    rw [List.filter_cons, List.flatMap_cons, ← ih]
    split_ifs <;> rfl

/-- The first run does what it is to do when it does it to each section. -/
theorem Pass.Emits.run_eq_iff (h : pass.Emits emit) (ps : List Section) :
    pass.run (text ps) = text (pass.rest ps) ↔
      ∀ s ∈ ps, emit s = if pass.keeps s.first then (pass.retouch s).lines else [] := by
  have hall : ∀ l ∈ ps.flatMap emit, NoBreak l := by
    intro l hl
    obtain ⟨s, -, hs⟩ := List.mem_flatMap.mp hl
    exact h.noBreak s l hs
  rw [h.run_eq, joined_eq_text_iff hall, pass.flatMap_rest]
  refine ⟨fun heq => ?_, fun heq => List.flatMap_congr heq⟩
  refine (flatMap_eq_flatMap_iff fun s hs => ?_).mp heq
  split_ifs with hkeep
  · refine (h.length_eq s hkeep fun l hl => ?_).ge
    -- a line of a kept hunk is a line that was put out
    refine hall l (heq ▸ List.mem_flatMap.mpr ⟨s, hs, ?_⟩)
    rw [if_pos hkeep]
    refine List.mem_cons_of_mem _ (List.mem_append_right _ ?_)
    rwa [pass.hunks_retouch]
  · exact Nat.zero_le _

/-- **A pass does to a patch what it is to do when it does it to each section.** -/
theorem Pass.Emits.meets_iff (h : pass.Emits emit) (ps : List Section) :
    pass.Meets ps ↔ ∀ s ∈ ps, if pass.keeps s.first then
      emit s = (pass.retouch s).lines ∧ emit (pass.retouch s) = (pass.retouch s).lines
      else emit s = [] := by
  have hfirst := h.run_eq_iff ps
  have hsecond : (∀ s ∈ ps, emit s = if pass.keeps s.first then (pass.retouch s).lines else []) →
      (pass.run (text (pass.rest ps)) = text (pass.rest ps) ↔
        ∀ s ∈ pass.rest ps, emit s = s.lines) := by
    intro hemit
    have hall : ∀ l ∈ (pass.rest ps).flatMap emit, NoBreak l := by
      intro l hl
      obtain ⟨s, -, hs⟩ := List.mem_flatMap.mp hl
      exact h.noBreak s l hs
    rw [h.run_eq, joined_eq_text_iff hall, eq_comm, flatMap_eq_flatMap_iff]
    · exact forall₂_congr fun s _ => eq_comm
    · intro s hs
      obtain ⟨s₀, hs₀, rfl⟩ := List.mem_map.mp hs
      obtain ⟨hmem, hkeep⟩ := List.mem_filter.mp hs₀
      refine h.length_le _ fun l hl => h.noBreak s₀ l ?_
      rw [hemit s₀ hmem, if_pos hkeep]
      exact List.mem_cons_of_mem _ (List.mem_append_right _ hl)
  constructor
  · rintro ⟨hrun, hagain⟩ s hs
    have hemit := hfirst.mp hrun
    rw [hrun] at hagain
    have hrest := (hsecond hemit).mp hagain
    have hs' := hemit s hs
    split_ifs at hs' ⊢ with hkeep
    · exact ⟨hs', hrest _ (List.mem_map_of_mem (List.mem_filter.mpr ⟨hs, hkeep⟩))⟩
    · exact hs'
  · intro hall
    have hemit : ∀ s ∈ ps, emit s = if pass.keeps s.first then (pass.retouch s).lines else [] := by
      intro s hs
      have hs' := hall s hs
      split_ifs at hs' ⊢
      · exact hs'.1
      · exact hs'
    have hrun := hfirst.mpr hemit
    refine ⟨hrun, ?_⟩
    rw [hrun]
    refine (hsecond hemit).mpr fun s hs => ?_
    obtain ⟨s₀, hs₀, rfl⟩ := List.mem_map.mp hs
    obtain ⟨hmem, hkeep⟩ := List.mem_filter.mp hs₀
    have hs' := hall s₀ hmem
    rw [if_pos hkeep] at hs'
    exact hs'.2

end Patch

end DeltaBox
