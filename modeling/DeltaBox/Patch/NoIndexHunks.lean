import DeltaBox.Patch.Held

/-!
# The hunks that `_normalize_no_index_diff` leaves alone

## Main results

* `Patch.noIndexEmit_eq_iff` — the hunks of a section come out as they are exactly when no line of
  them is taken for another thing
* `Patch.noIndexEmit_again_iff` — and the second time nothing changes exactly when the paths that
  have been written are read back
-/

namespace DeltaBox

namespace Patch

open Text OverList

variable {base merged : Line}

/-- A path that is read back behind `a/`, with the directory that was compared. -/
def OldPathIn (dir q : Line) : Prop := Plain q ∧ ¬ newMark <+: q ∧ ¬ InDir dir q

/-- A path that is read back behind `b/`. -/
def NewPathIn (dir q : Line) : Prop := Plain q ∧ ¬ InDir dir q

/-- The paths of the header lines are read back once they have been written. -/
def NoIndexRead (base merged : Line) (s : Section) : Prop :=
  (∀ x y, parts s.first = some (x, y) →
    OldPathIn base (noIndexParts base merged x y).1 ∧
      NewPathIn merged (noIndexParts base merged x y).2) ∧
  ∀ l ∈ s.headers, Names (fun p => p = devNull ∨ OldPathIn base (noIndexPath base p))
    (fun p => p = devNull ∨ NewPathIn merged (noIndexPath merged p)) l

theorem noBreak_noIndexMarked {head mark dir p : Line} (hhead : NoBreak head)
    (hmark : NoBreak mark) (hp : NoBreak p) : NoBreak (head ++ noIndexMarked mark dir p) := by
  unfold noIndexMarked
  split_ifs
  · exact hhead.append hp
  · exact hhead.append (hmark.append (hp.mono (noIndexPath_subset dir p)))

theorem of_noIndexHeader {l : Line} (hl : NoBreak l) :
    NoBreak (noIndexHeader base merged l) ∧
      (¬ diffGit <+: l → ¬ diffGit <+: noIndexHeader base merged l) := by
  unfold noIndexHeader
  split_ifs
  · exact ⟨noBreak_noIndexMarked (by decide) (by decide) (mem_drop_four hl),
      fun _ => by simp [oldHead, diffGit]⟩
  · exact ⟨noBreak_noIndexMarked (by decide) (by decide) (mem_drop_four hl),
      fun _ => by simp [newHead, diffGit]⟩
  · exact ⟨hl, id⟩

/-- The paths written into a first line are made of characters of its words. -/
theorem noIndexParts_subset (base merged x y : Line) :
    (noIndexParts base merged x y).1 ⊆ x ++ y ∧ (noIndexParts base merged x y).2 ⊆ x ++ y := by
  have ha : noIndexPath base x ⊆ x ++ y :=
    List.Subset.trans (noIndexPath_subset base x) (List.subset_append_left ..)
  have hb : noIndexPath merged y ⊆ x ++ y :=
    List.Subset.trans (noIndexPath_subset merged y) (List.subset_append_right ..)
  unfold noIndexParts
  dsimp only
  constructor <;> split_ifs <;> assumption

theorem noBreak_noIndexLine {l : Line} (hl : NoBreak l) :
    NoBreak (noIndexLine base merged l) := by
  unfold noIndexLine
  split_ifs
  · split
    next x y hparts =>
      obtain ⟨hx, hy⟩ := noBreak_parts hl hparts
      obtain ⟨ha, hb⟩ := noIndexParts_subset base merged x y
      exact noBreak_firstLine ((hx.append hy).mono ha) ((hx.append hy).mono hb)
    next => exact (of_noIndexHeader hl).1
  · exact (of_noIndexHeader hl).1

theorem noIndexLine_of_not {l : Line} (h : ¬ diffGit <+: l) :
    noIndexLine base merged l = noIndexHeader base merged l := if_neg h

/-- A line that opens a section is no header of a file. -/
theorem noIndexHeader_of_diffGit {l : Line} (h : diffGit <+: l) :
    noIndexHeader base merged l = l := by
  obtain ⟨more, rfl⟩ := h
  have hold : ¬ oldHead <+: diffGit ++ more := by simp [oldHead, diffGit]
  have hnew : ¬ newHead <+: diffGit ++ more := by simp [newHead, diffGit]
  rw [noIndexHeader, if_neg hold, if_neg hnew]

theorem diffGit_noIndexLine {l : Line} (h : diffGit <+: l) :
    diffGit <+: noIndexLine base merged l := by
  rw [noIndexLine, if_pos h]
  split
  · exact diffGit_firstLine ..
  · rwa [noIndexHeader_of_diffGit h]

/-- A section with its header lines as they are put out. -/
def noIndexRetouch (base merged : Line) (s : Section) : Section where
  first := noIndexLine base merged s.first
  headers := s.headers.map (noIndexLine base merged)
  hunks := s.hunks
  opens := diffGit_noIndexLine s.opens
  noBreak_first := noBreak_noIndexLine s.noBreak_first
  headers_ok := fun l hl => by
    obtain ⟨m, hm, rfl⟩ := List.mem_map.mp hl
    obtain ⟨hbreak, hopen⟩ := s.headers_ok m hm
    rw [noIndexLine_of_not hopen]
    exact ⟨(of_noIndexHeader hbreak).1, (of_noIndexHeader hbreak).2 hopen⟩
  hunks_ok := s.hunks_ok

/-- `_normalize_no_index_diff`, which is to keep every section. -/
def noIndexPass (cwd base merged : String) : Pass where
  run := normalizeNoIndexDiff cwd base merged
  keeps := fun _ => true
  retouch := noIndexRetouch (compared cwd base) (compared cwd merged)
  hunks_retouch := fun _ => rfl

/-- What `_normalize_no_index_diff` puts out for a section. -/
def noIndexEmit (base merged : Line) (s : Section) : List Line :=
  s.pieces.map (noIndexLine base merged)

theorem noIndexPass_emits (cwd base merged : String) :
    (noIndexPass cwd base merged).Emits
      (noIndexEmit (compared cwd base) (compared cwd merged)) where
  run_eq := fun ps => by
    show normalizeNoIndexDiff cwd base merged (text ps) = _
    rw [normalizeNoIndexDiff, splitlines_text, List.map_flatMap]
    rfl
  noBreak := fun s l hl => by
    obtain ⟨m, hm, rfl⟩ := List.mem_map.mp hl
    exact noBreak_noIndexLine (noBreak_of_mem_pieces m hm)
  length_eq := fun s _ h => by
    rw [noIndexEmit, s.pieces_eq h, List.length_map]
    simp [noIndexPass, noIndexRetouch, Section.lines]
  length_le := fun s h => by
    rw [noIndexEmit, s.pieces_eq h, List.length_map]

theorem noIndexMarked_eq_iff {mark dir p : Line} {ok : Line → Prop}
    (hread : ∀ q, noIndexPath dir (mark ++ q) = q ↔ ok q) :
    noIndexMarked mark dir p = p ↔ Written mark ok p := by
  unfold noIndexMarked
  split_ifs with hp
  · exact iff_of_true rfl (.inl hp)
  · constructor
    · intro h
      exact .inr ⟨noIndexPath dir p, h.symm, (hread _).mp (by rw [h])⟩
    · rintro (h | ⟨q, rfl, hq⟩)
      · exact absurd h hp
      · rw [(hread q).mpr hq]

theorem written_noIndexMarked_iff {mark dir : Line} {ok : Line → Prop}
    (hmark : ∀ q, mark ++ q ≠ devNull) (p : Line) :
    Written mark ok (noIndexMarked mark dir p) ↔ p = devNull ∨ ok (noIndexPath dir p) := by
  unfold noIndexMarked
  split_ifs with hp
  · exact iff_of_true (.inl hp) (.inl hp)
  · constructor
    · rintro (h | ⟨q, hq, hok⟩)
      · exact absurd h (hmark _)
      · exact .inr (List.append_cancel_left hq ▸ hok)
    · rintro (h | h)
      · exact absurd h hp
      · exact .inr ⟨_, rfl, h⟩

theorem noIndexHeader_old (p : Line) : noIndexHeader base merged (oldHead ++ p) =
    oldHead ++ noIndexMarked oldMark base p := by
  rw [noIndexHeader, if_pos (List.prefix_append ..), drop_old]

theorem noIndexHeader_new (p : Line) : noIndexHeader base merged (newHead ++ p) =
    newHead ++ noIndexMarked newMark merged p := by
  have hold : ¬ oldHead <+: newHead ++ p := fun ⟨q, hq⟩ => old_ne_new q p hq
  rw [noIndexHeader, if_neg hold, if_pos (List.prefix_append ..), drop_new]

/-- A line that opens no section stays when it is no header, or one whose path stays. -/
theorem noIndexHeader_eq_iff (l : Line) : noIndexHeader base merged l = l ↔
    Names (Written oldMark (OldPathIn base)) (Written newMark (NewPathIn merged)) l := by
  by_cases hold : oldHead <+: l
  · obtain ⟨p, rfl⟩ := hold
    rw [noIndexHeader_old, List.append_cancel_left_eq, names_old]
    exact noIndexMarked_eq_iff fun _ => noIndexPath_old_iff
  · by_cases hnew : newHead <+: l
    · obtain ⟨p, rfl⟩ := hnew
      rw [noIndexHeader_new, List.append_cancel_left_eq, names_new]
      exact noIndexMarked_eq_iff fun _ => noIndexPath_new_iff
    · rw [noIndexHeader, if_neg hold, if_neg hnew]
      exact iff_of_true rfl (names_other hold hnew)

/-- A header line stays the second time when its path is read back. -/
theorem noIndexHeader_again_iff (l : Line) :
    noIndexHeader base merged (noIndexHeader base merged l) = noIndexHeader base merged l ↔
      Names (fun p => p = devNull ∨ OldPathIn base (noIndexPath base p))
        (fun p => p = devNull ∨ NewPathIn merged (noIndexPath merged p)) l := by
  rw [noIndexHeader_eq_iff]
  by_cases hold : oldHead <+: l
  · obtain ⟨p, rfl⟩ := hold
    rw [noIndexHeader_old, names_old, names_old]
    exact written_noIndexMarked_iff oldMark_ne p
  · by_cases hnew : newHead <+: l
    · obtain ⟨p, rfl⟩ := hnew
      rw [noIndexHeader_new, names_new, names_new]
      exact written_noIndexMarked_iff newMark_ne p
    · rw [noIndexHeader, if_neg hold, if_neg hnew]
      exact iff_of_true (names_other hold hnew) (names_other hold hnew)

theorem map_eq_self_iff (f : Line → Line) (ls : List Line) :
    ls.map f = ls ↔ ∀ l ∈ ls, f l = l := by
  induction ls with
  | nil => simp
  | cons l ls ih => simp [ih]

/-- **The hunks of a section.** -/
theorem noIndexEmit_eq_iff (s : Section) :
    noIndexEmit base merged s = (noIndexRetouch base merged s).lines ↔
      HunksHeld (OldPathIn base) (NewPathIn merged) s := by
  have hlines : (noIndexRetouch base merged s).lines = noIndexLine base merged s.first ::
      (s.headers.map (noIndexLine base merged) ++ s.hunks) := rfl
  have hheader : ∀ l ∈ s.hunks, noIndexLine base merged l = noIndexHeader base merged l :=
    fun l hl => noIndexLine_of_not (s.not_diffGit l (List.mem_append_right _ hl))
  have hheld : (∀ l ∈ s.hunks, NoBreak l) →
      (noIndexEmit base merged s = (noIndexRetouch base merged s).lines ↔
        ∀ l ∈ s.hunks, noIndexHeader base merged l = l) := by
    intro hbreak
    rw [noIndexEmit, s.pieces_eq hbreak, hlines, Section.lines, List.map_cons, List.map_append,
      List.cons.injEq, List.append_cancel_left_eq, map_eq_self_iff, and_iff_right rfl]
    exact forall₂_congr fun l hl => by rw [hheader l hl]
  constructor
  · intro h
    have hbreak : ∀ l ∈ s.hunks, NoBreak l := by
      intro l hl
      have hmem : l ∈ noIndexEmit base merged s := by
        rw [h, hlines]
        exact List.mem_cons_of_mem _ (List.mem_append_right _ hl)
      obtain ⟨m, hm, rfl⟩ := List.mem_map.mp hmem
      exact noBreak_noIndexLine (noBreak_of_mem_pieces m hm)
    intro l hl
    exact ⟨hbreak l hl, (noIndexHeader_eq_iff l).mp ((hheld hbreak).mp h l hl)⟩
  · intro h
    refine (hheld fun l hl => (h l hl).1).mpr fun l hl => ?_
    exact (noIndexHeader_eq_iff l).mpr (h l hl).2

theorem noIndexPath_ne_devNull {mark dir : Line} (hmark : mark = oldMark ∨ mark = newMark)
    (q : Line) : noIndexPath dir (mark ++ q) ≠ devNull := by
  intro h
  have hhead := head_unslash (cutBoth (removePrefix (dir ++ ['/']) (unmark (mark ++ rstrip q))))
  rw [← noIndexPath_mark hmark, h] at hhead
  exact hhead rfl

/-- The first line of a section stays the second time when both paths are read back. -/
theorem noIndexFirst_again_iff {first : Line} (hopen : diffGit <+: first) :
    noIndexLine base merged (noIndexLine base merged first) = noIndexLine base merged first ↔
      ∀ x y, parts first = some (x, y) → OldPathIn base (noIndexParts base merged x y).1 ∧
        NewPathIn merged (noIndexParts base merged x y).2 := by
  cases hparts : parts first with
  | none =>
    have hsame : noIndexLine base merged first = first := by
      rw [noIndexLine, if_pos hopen, hparts]
      exact noIndexHeader_of_diffGit hopen
    rw [hsame, hsame]
    exact iff_of_true rfl fun x y h => nomatch h
  | some xy =>
    obtain ⟨x, y⟩ := xy
    obtain ⟨hx, hy⟩ := notSpace_parts hparts
    have hxy : ∀ c ∈ x ++ y, isSpace c = false := fun c hc =>
      (List.mem_append.mp hc).elim (hx c) (hy c)
    obtain ⟨ha, hb⟩ := noIndexParts_subset base merged x y
    have hfirst : noIndexLine base merged first =
        firstLine (noIndexParts base merged x y).1 (noIndexParts base merged x y).2 := by
      rw [noIndexLine, if_pos hopen, hparts]
    have hthese : (∀ x' y', some (x, y) = some (x', y') →
        OldPathIn base (noIndexParts base merged x' y').1 ∧
          NewPathIn merged (noIndexParts base merged x' y').2) ↔
        OldPathIn base (noIndexParts base merged x y).1 ∧
          NewPathIn merged (noIndexParts base merged x y).2 := by
      refine ⟨fun h => h x y rfl, fun h x' y' hsame => ?_⟩
      obtain ⟨rfl, rfl⟩ := Prod.mk.inj (Option.some.inj hsame)
      exact h
    rw [hthese, hfirst]
    generalize (noIndexParts base merged x y).1 = a at ha
    generalize (noIndexParts base merged x y).2 = b at hb
    have hspace : ∀ c ∈ a, isSpace c = false := fun c hc => hxy c (ha hc)
    have hspace' : ∀ c ∈ b, isSpace c = false := fun c hc => hxy c (hb hc)
    have hagain : noIndexLine base merged (firstLine a b) =
        firstLine (noIndexPath base (oldMark ++ a)) (noIndexPath merged (newMark ++ b)) := by
      rw [noIndexLine, if_pos (diffGit_firstLine a b), parts_firstLine hspace hspace']
      simp only [noIndexParts, if_neg (noIndexPath_ne_devNull (.inl rfl) a),
        if_neg (noIndexPath_ne_devNull (.inr rfl) b)]
    rw [hagain, OldPathIn, NewPathIn, ← noIndexPath_old_iff, ← noIndexPath_new_iff]
    constructor
    · refine firstLine_injective (fun c hc => ?_) (fun c hc => ?_) hspace hspace'
      · exact (notSpace_marks hspace).1 c (noIndexPath_subset base _ hc)
      · exact (notSpace_marks hspace').2 c (noIndexPath_subset merged _ hc)
    · rintro ⟨hold, hnew⟩
      rw [hold, hnew]

/-- **What `_normalize_no_index_diff` does the second time.** -/
theorem noIndexEmit_again_iff {s : Section}
    (hheld : HunksHeld (OldPathIn base) (NewPathIn merged) s) :
    noIndexEmit base merged (noIndexRetouch base merged s) =
      (noIndexRetouch base merged s).lines ↔ NoIndexRead base merged s := by
  have hbreak : ∀ l ∈ (noIndexRetouch base merged s).hunks, NoBreak l := fun l hl => (hheld l hl).1
  have hhunks : ∀ l ∈ s.hunks, noIndexLine base merged l = l := by
    intro l hl
    rw [noIndexLine_of_not (s.not_diffGit l (List.mem_append_right _ hl)), noIndexHeader_eq_iff]
    exact (hheld l hl).2
  have hheaders : (∀ m ∈ s.headers.map (noIndexLine base merged), noIndexLine base merged m = m) ↔
      ∀ l ∈ s.headers, Names (fun p => p = devNull ∨ OldPathIn base (noIndexPath base p))
        (fun p => p = devNull ∨ NewPathIn merged (noIndexPath merged p)) l := by
    rw [List.forall_mem_map]
    refine forall₂_congr fun l hl => ?_
    obtain ⟨hl, hopen⟩ := s.headers_ok l hl
    rw [noIndexLine_of_not hopen, noIndexLine_of_not ((of_noIndexHeader hl).2 hopen)]
    exact noIndexHeader_again_iff l
  rw [noIndexEmit, Section.pieces_eq _ hbreak, map_eq_self_iff, NoIndexRead, ← hheaders,
    ← noIndexFirst_again_iff s.opens]
  show (∀ l ∈ noIndexLine base merged s.first ::
    (s.headers.map (noIndexLine base merged) ++ s.hunks), noIndexLine base merged l = l) ↔ _
  rw [List.forall_mem_cons, List.forall_mem_append, and_iff_left hhunks]

end Patch

end DeltaBox
