import DeltaBox.Patch.Clean

/-!
# Hunks that a pass leaves alone

The passes over a patch know a header by its beginning, wherever it stands, and a line by what the
splitter calls one. So a removed line of a file that begins with `-- ` is taken for the header of the
old file and gets an `a/`; a line with a form feed or a carriage return in it is cut in two; and what
stands behind such a break can even open a section. Here is what none of this happens to, and what a
section that is dropped needs.

## Main definitions

* `Patch.HunksHeld` — hunks in which no line is taken for another thing
* `Patch.NoneKept` — hunks in which nothing opens a section that is kept

## Main results

* `Patch.Judges.nil_iff` — when a dropped section puts nothing out
-/

namespace DeltaBox

namespace Patch

open Text

/-! ### The conditions -/

/-- A path as a header line has it: none, or one that is read back behind its mark. -/
def Written (mark : Line) (ok : Line → Prop) (p : Line) : Prop :=
  p = devNull ∨ ∃ q, p = mark ++ q ∧ ok q

/-- A path that `clean` reads back behind `a/`. -/
def OldPath (q : Line) : Prop := Plain q ∧ ¬ newMark <+: q

/-- What looks like the header of the old file names a path of the one kind, and what looks like the
header of the new file one of the other. -/
def Names (oldOk newOk : Line → Prop) (l : Line) : Prop :=
  (∀ p, l = oldHead ++ p → oldOk p) ∧ ∀ p, l = newHead ++ p → newOk p

/-- The hunks of a section have no line break but the line feed, and what looks like a header in them
names a path as it would be written. -/
def HunksHeld (oldOk newOk : Line → Prop) (s : Section) : Prop :=
  ∀ l ∈ s.hunks, NoBreak l ∧ Names (Written oldMark oldOk) (Written newMark newOk) l

/-- The paths of the header lines are read back once `clean` has written them. -/
def HeadersRead (s : Section) : Prop :=
  (∀ x y, parts s.first = some (x, y) → OldPath (normPath x) ∧ Plain (normPath y)) ∧
  ∀ l ∈ s.headers, Names (fun p => normPath p = devNull ∨ OldPath (normPath p))
    (fun p => normPath p = devNull ∨ Plain (normPath p)) l

/-- No piece of a hunk opens a section that is kept. -/
def NoneKept (keeps : Line → Bool) (s : Section) : Prop :=
  ∀ l ∈ s.hunks, ∀ piece ∈ splitlines (l ++ ['\n']), diffGit <+: piece → keeps piece = false

theorem old_ne_new (p q : Line) : oldHead ++ p ≠ newHead ++ q := by simp [oldHead, newHead]

section Names

variable {oldOk newOk : Line → Prop}

@[simp] theorem names_old (p : Line) : Names oldOk newOk (oldHead ++ p) ↔ oldOk p :=
  ⟨fun h => h.1 p rfl, fun h => ⟨fun _ hq => List.append_cancel_left hq ▸ h,
    fun q hq => absurd hq (old_ne_new p q)⟩⟩

@[simp] theorem names_new (p : Line) : Names oldOk newOk (newHead ++ p) ↔ newOk p :=
  ⟨fun h => h.2 p rfl, fun h => ⟨fun q hq => absurd hq.symm (old_ne_new q p),
    fun _ hq => List.append_cancel_left hq ▸ h⟩⟩

theorem names_other {l : Line} (hold : ¬ oldHead <+: l) (hnew : ¬ newHead <+: l) :
    Names oldOk newOk l :=
  ⟨fun _ h => absurd ⟨_, h.symm⟩ hold, fun _ h => absurd ⟨_, h.symm⟩ hnew⟩

end Names

/-- A line of a hunk is no remark on binary files. -/
theorem not_binary {s : Section} {l : Line} (hl : l ∈ s.hunks) : ¬ binaryHead <+: l := by
  obtain ⟨-, c, hc, cs, rfl⟩ := s.hunks_ok l hl
  rintro ⟨more, hmore⟩
  have hfirst : 'B' = c := (List.cons.inj hmore).1
  rw [← hfirst] at hc
  revert hc
  decide

theorem mem_of_mem_sections {ls h : List Line} (hh : h ∈ sections ls) : h ⊆ ls := by
  suffices hfold : ∀ ls s, ∀ h ∈ flush (ls.foldl gather s), h ⊆ (flush s).flatten ++ ls by
    simpa [flush] using hfold ls ([], []) h hh
  intro ls
  induction ls with
  | nil =>
    intro s h hh l hl
    rw [List.append_nil]
    exact List.mem_flatten.mpr ⟨h, hh, hl⟩
  | cons l ls ih =>
    intro s h hh
    refine List.Subset.trans (ih _ h hh) ?_
    have hgather : (flush (gather s l)).flatten ⊆ (flush s).flatten ++ [l] := by
      unfold gather
      split_ifs with hl hcur
      · simp [flush]
      · simp
      · simp [flush, hcur]
    intro x hx
    rcases List.mem_append.mp hx with hx | hx
    · rcases List.mem_append.mp (hgather hx) with hx | hx
      · exact List.mem_append_left _ hx
      · rw [List.mem_singleton.mp hx]
        simp
    · simp [hx]

theorem noBreak_of_mem_pieces {s : Section} : ∀ l ∈ s.pieces, NoBreak l := by
  intro l hl
  obtain ⟨m, -, hm⟩ := List.mem_flatMap.mp hl
  exact noBreak_of_mem_splitlines hm

/-- The pieces that open a section: the first line, and those of the hunks that do. -/
theorem filter_pieces (s : Section) : s.pieces.filter (diffGit <+: ·) =
    s.first :: (s.hunks.flatMap fun l => splitlines (l ++ ['\n'])).filter (diffGit <+: ·) := by
  have hheaders : s.headers.flatMap (fun l => splitlines (l ++ ['\n'])) = s.headers := by
    rw [List.flatMap_congr fun l hl => splitlines_of_noBreak (s.headers_ok l hl).1]
    simp
  have hnone : s.headers.filter (diffGit <+: ·) = [] := by
    rw [List.filter_eq_nil_iff]
    intro l hl
    simp [(s.headers_ok l hl).2]
  rw [Section.pieces, Section.lines, List.flatMap_cons, List.flatMap_append, hheaders,
    splitlines_of_noBreak s.noBreak_first, List.filter_append, List.filter_append, hnone]
  simp [s.opens]

/-- A pass that judges each gathered section by its first line. -/
structure Judges (keeps : Line → Bool) (out : List Line → List Line) : Prop where
  kept : ∀ first ls, diffGit <+: first → keeps first → out (first :: ls) ≠ []
  dropped : ∀ first ls, keeps first = false → out (first :: ls) = []

/-- **A section puts nothing out** when it is dropped and nothing in its hunks is kept. -/
theorem Judges.nil_iff {keeps : Line → Bool} {out : List Line → List Line} (h : Judges keeps out)
    {s : Section} (hs : keeps s.first = false) :
    (sections s.pieces).flatMap out = [] ↔ NoneKept keeps s := by
  obtain ⟨hheads, hne⟩ := heads_sections s.pieces
  rw [filter_pieces] at hheads
  have hpieces : (∀ g ∈ sections s.pieces, out g = []) ↔
      ∀ first ∈ (sections s.pieces).filterMap List.head?, keeps first = false := by
    constructor
    · intro hout first hfirst
      obtain ⟨g, hg, hhead⟩ := List.mem_filterMap.mp hfirst
      obtain ⟨ls, rfl⟩ := List.head?_eq_some_iff.mp hhead
      have hopen : diffGit <+: first := by
        rw [hheads, ← filter_pieces] at hfirst
        simpa using (List.mem_filter.mp hfirst).2
      by_contra hkeep
      exact h.kept first ls hopen (by simpa using hkeep) (hout _ hg)
    · intro hall g hg
      obtain ⟨first, ls, rfl⟩ := List.exists_cons_of_ne_nil (hne g hg)
      exact h.dropped first ls (hall first (List.mem_filterMap.mpr ⟨_, hg, rfl⟩))
  rw [List.flatMap_eq_nil_iff, hpieces, hheads]
  constructor
  · intro hall l hl piece hpiece hopen
    refine hall piece (List.mem_cons_of_mem _ (List.mem_filter.mpr ⟨?_, by simpa using hopen⟩))
    exact List.mem_flatMap.mpr ⟨l, hl, hpiece⟩
  · intro hnone first hfirst
    rcases List.mem_cons.mp hfirst with rfl | hfirst
    · exact hs
    · obtain ⟨hmem, hopen⟩ := List.mem_filter.mp hfirst
      obtain ⟨l, hl, hpiece⟩ := List.mem_flatMap.mp hmem
      exact hnone l hl first hpiece (by simpa using hopen)

/-- A section without other line breaks is gathered as it is. -/
theorem sections_pieces {s : Section} (h : ∀ l ∈ s.hunks, NoBreak l) :
    sections s.pieces = [s.lines] := by
  rw [s.pieces_eq h]
  exact sections_single s.opens s.not_diffGit

/-! ### Paths and lines, written and read -/

theorem mem_drop_four {l : Line} (h : NoBreak l) : NoBreak (l.drop 4) := h.mono (List.drop_subset ..)

theorem noBreak_parts {first x y : Line} (h : NoBreak first) (hparts : parts first = some (x, y)) :
    NoBreak x ∧ NoBreak y := by
  obtain ⟨hx, hy⟩ := of_parts hparts
  exact ⟨h.mono (of_mem_words hx).2, h.mono (of_mem_words hy).2⟩

theorem diffGit_firstLine (a b : Line) : diffGit <+: firstLine a b := List.prefix_append ..

theorem firstLine_injective {a b a' b' : Line} (ha : ∀ c ∈ a, isSpace c = false)
    (hb : ∀ c ∈ b, isSpace c = false) (ha' : ∀ c ∈ a', isSpace c = false)
    (hb' : ∀ c ∈ b', isSpace c = false) (h : firstLine a b = firstLine a' b') : a = a' ∧ b = b' := by
  have hparts := parts_firstLine ha hb
  rw [h, parts_firstLine ha' hb'] at hparts
  obtain ⟨hold, hnew⟩ := Prod.mk.inj (Option.some.inj hparts)
  exact ⟨(List.append_cancel_left hold).symm, (List.append_cancel_left hnew).symm⟩

theorem notSpace_parts {first x y : Line} (h : parts first = some (x, y)) :
    (∀ c ∈ x, isSpace c = false) ∧ ∀ c ∈ y, isSpace c = false :=
  ⟨(of_mem_words (of_parts h).1).1, (of_mem_words (of_parts h).2).1⟩

theorem drop_old (p : Line) : (oldHead ++ p).drop 4 = p := rfl

theorem drop_new (p : Line) : (newHead ++ p).drop 4 = p := rfl

section Marks

variable {mark : Line} {f : Line → Line} {ok : Line → Prop}

/-- A path is written as it stands when it is a path as it would be written. -/
theorem marked_eq_iff (hread : ∀ q, f (mark ++ q) = q ↔ ok q) (hok : ∀ q, ok q → q ≠ devNull)
    (hnull : f devNull = devNull) (p : Line) : marked mark (f p) = p ↔ Written mark ok p := by
  unfold marked
  constructor
  · intro h
    split_ifs at h with hf
    · exact .inl (h ▸ hf)
    · exact .inr ⟨f p, h.symm, (hread _).mp (by rw [h])⟩
  · rintro (rfl | ⟨q, rfl, hq⟩)
    · rw [hnull, if_pos rfl]
    · rw [(hread q).mpr hq, if_neg (hok q hq)]

/-- A path that has been written is read back when it is. -/
theorem written_marked_iff (hmark : ∀ q, mark ++ q ≠ devNull) (r : Line) :
    Written mark ok (marked mark r) ↔ r = devNull ∨ ok r := by
  unfold marked
  split_ifs with hr
  · exact iff_of_true (.inl hr) (.inl hr)
  · constructor
    · rintro (h | ⟨q, hq, hok⟩)
      · exact absurd h (hmark r)
      · exact .inr (List.append_cancel_left hq ▸ hok)
    · rintro (h | h)
      · exact absurd h hr
      · exact .inr ⟨r, rfl, h⟩

end Marks

theorem ne_devNull_of_plain {q : Line} (h : Plain q) : q ≠ devNull := by
  rintro rfl
  exact h.2.1 rfl

theorem oldMark_ne (q : Line) : oldMark ++ q ≠ devNull := by simp [oldMark, devNull]

theorem newMark_ne (q : Line) : newMark ++ q ≠ devNull := by simp [newMark, devNull]

end Patch

end DeltaBox
