import DeltaBox.Patch.Held

/-!
# The hunks that `clean` leaves alone

## Main results

* `Patch.cleanEmit_eq_iff` — the hunks of a section that is kept come out as they are exactly when no
  line of them is taken for another thing
* `Patch.cleanEmit_again_iff` — and the second time nothing changes exactly when the paths that have
  been written are read back
-/

namespace DeltaBox

namespace Patch

open Text OverList

/-! ### What is put out -/

theorem noBreak_marked {head mark p : Line} (hhead : NoBreak head) (hmark : NoBreak mark)
    (hp : NoBreak p) : NoBreak (head ++ marked mark p) := by
  unfold marked
  split_ifs
  · exact hhead.append hp
  · exact hhead.append (hmark.append hp)

/-- What becomes of a line has no line break, and opens no section. -/
theorem of_retouchLine {l m : Line} (hl : NoBreak l) (hopen : ¬ diffGit <+: l)
    (h : retouchLine l = some m) : NoBreak m ∧ ¬ diffGit <+: m := by
  have hpath : NoBreak (normPath (l.drop 4)) :=
    hl.mono (List.Subset.trans (normPath_subset _) (List.drop_subset ..))
  unfold retouchLine at h
  split_ifs at h
  · obtain rfl := Option.some.inj h
    exact ⟨noBreak_marked (by decide) (by decide) hpath, by simp [oldHead, diffGit]⟩
  · obtain rfl := Option.some.inj h
    exact ⟨noBreak_marked (by decide) (by decide) hpath, by simp [newHead, diffGit]⟩
  · obtain rfl := Option.some.inj h
    exact ⟨hl, hopen⟩

/-- The line `clean` opens a section with. -/
def cleanFirst (first : Line) : Line :=
  match parts first with
  | some (x, y) => firstLine (normPath x) (normPath y)
  | none => first

/-- Is the section with this first line kept by `clean`? -/
def cleanKeeps (first : Line) : Bool :=
  match parts first with
  | some (x, y) => keepsPath (sectionPath (normPath x) (normPath y))
  | none => false

theorem noBreak_cleanFirst {first : Line} (h : NoBreak first) : NoBreak (cleanFirst first) := by
  unfold cleanFirst
  split
  next x y hparts =>
    obtain ⟨hx, hy⟩ := noBreak_parts h hparts
    exact noBreak_firstLine (hx.mono (normPath_subset x)) (hy.mono (normPath_subset y))
  next => exact h

theorem diffGit_cleanFirst {first : Line} (h : diffGit <+: first) :
    diffGit <+: cleanFirst first := by
  unfold cleanFirst
  split
  · exact diffGit_firstLine ..
  · exact h

/-- A section that `clean` keeps, with its header lines as they are put out. -/
def cleanRetouch (s : Section) : Section where
  first := cleanFirst s.first
  headers := s.headers.filterMap retouchLine
  hunks := s.hunks
  opens := diffGit_cleanFirst s.opens
  noBreak_first := noBreak_cleanFirst s.noBreak_first
  headers_ok := fun l hl => by
    obtain ⟨m, hm, hml⟩ := List.mem_filterMap.mp hl
    exact of_retouchLine (s.headers_ok m hm).1 (s.headers_ok m hm).2 hml
  hunks_ok := s.hunks_ok

/-- `clean`, and the sections it is to keep. -/
def cleanPass : Pass where
  run := clean
  keeps := cleanKeeps
  retouch := cleanRetouch
  hunks_retouch := fun _ => rfl

/-- What `clean` puts out for a section. -/
def cleanEmit (s : Section) : List Line := (sections s.pieces).flatMap cleanSection

theorem cleanSection_cons (first : Line) (ls : List Line) (hopen : diffGit <+: first)
    (hkeep : cleanKeeps first) (hls : ∀ l ∈ ls, ¬ diffGit <+: l) :
    cleanSection (first :: ls) = cleanFirst first :: ls.filterMap retouchLine := by
  unfold cleanKeeps at hkeep
  unfold cleanSection cleanFirst
  dsimp only
  cases hparts : parts first with
  | none =>
    rw [hparts] at hkeep
    cases hkeep
  | some xy =>
    obtain ⟨x, y⟩ := xy
    simp only [hparts] at hkeep
    have hline : ∀ l ∈ ls, cleanLine (normPath x) (normPath y) l = retouchLine l :=
      fun l hl => if_neg (hls l hl)
    have hfirst : cleanLine (normPath x) (normPath y) first =
        some (firstLine (normPath x) (normPath y)) := if_pos hopen
    simp only [hkeep, if_true]
    rw [List.filterMap_cons_some hfirst, List.filterMap_congr hline]

theorem judges_clean : Judges cleanKeeps cleanSection := by
  constructor
  · intro first ls hopen hkeep
    unfold cleanKeeps at hkeep
    unfold cleanSection
    dsimp only
    cases hparts : parts first with
    | none =>
      rw [hparts] at hkeep
      cases hkeep
    | some xy =>
      obtain ⟨x, y⟩ := xy
      simp only [hparts] at hkeep
      have hfirst : cleanLine (normPath x) (normPath y) first =
          some (firstLine (normPath x) (normPath y)) := if_pos hopen
      simp only [hkeep, if_true]
      rw [List.filterMap_cons_some hfirst]
      simp
  · intro first ls hdrop
    unfold cleanKeeps at hdrop
    unfold cleanSection
    cases hparts : parts first with
    | none => simp [hparts]
    | some xy =>
      obtain ⟨x, y⟩ := xy
      simp only [hparts] at hdrop
      simp [hparts, hdrop]

theorem cleanEmit_of_kept {s : Section} (hkeep : cleanKeeps s.first)
    (h : ∀ l ∈ s.hunks, NoBreak l) :
    cleanEmit s = cleanFirst s.first ::
      (s.headers.filterMap retouchLine ++ s.hunks.filterMap retouchLine) := by
  rw [cleanEmit, sections_pieces h, List.flatMap_singleton, Section.lines,
    cleanSection_cons _ _ s.opens hkeep s.not_diffGit, List.filterMap_append]

/-- No line of a hunk is left out. -/
theorem length_filterMap_hunks (s : Section) :
    (s.hunks.filterMap retouchLine).length = s.hunks.length := by
  have hsome : ∀ l ∈ s.hunks, (retouchLine l).isSome := by
    intro l hl
    unfold retouchLine
    rw [if_neg (not_binary hl)]
    split_ifs <;> rfl
  rw [List.length_filterMap_eq_countP, List.countP_eq_length]
  exact hsome

theorem noBreak_cleanSection {h : List Line} (hh : ∀ l ∈ h, NoBreak l) :
    ∀ l ∈ cleanSection h, NoBreak l := by
  intro l hl
  unfold cleanSection at hl
  split at hl
  · cases hl
  next first ls =>
    split at hl
    · cases hl
    next x y hparts =>
      split_ifs at hl
      · obtain ⟨m, hm, hml⟩ := List.mem_filterMap.mp hl
        unfold cleanLine at hml
        split_ifs at hml with hopen
        · obtain rfl := Option.some.inj hml
          obtain ⟨hx, hy⟩ := noBreak_parts (hh first List.mem_cons_self) hparts
          exact noBreak_firstLine (hx.mono (normPath_subset x)) (hy.mono (normPath_subset y))
        · exact (of_retouchLine (hh m hm) hopen hml).1
      · cases hl

theorem cleanPass_emits : cleanPass.Emits cleanEmit where
  run_eq := fun ps => by
    show clean (text ps) = _
    rw [clean, sections_text, List.flatMap_assoc]
    rfl
  noBreak := fun s l hl => by
    obtain ⟨h, hh, hl⟩ := List.mem_flatMap.mp hl
    exact noBreak_cleanSection (fun m hm => noBreak_of_mem_pieces m (mem_of_mem_sections hh hm)) l hl
  length_eq := fun s hkeep h => by
    rw [cleanEmit_of_kept hkeep h]
    show _ = (cleanFirst s.first :: (s.headers.filterMap retouchLine ++ s.hunks)).length
    rw [List.length_cons, List.length_cons, List.length_append, List.length_append,
      length_filterMap_hunks]
  length_le := fun s h => by
    cases hkeep : cleanKeeps s.first with
    | true =>
      rw [cleanEmit_of_kept hkeep h, Section.lines, List.length_cons, List.length_cons,
        List.length_append, List.length_append]
      have hheaders := List.length_filterMap_le retouchLine s.headers
      have hhunks := List.length_filterMap_le retouchLine s.hunks
      omega
    | false =>
      have hnil := judges_clean.dropped s.first (s.headers ++ s.hunks) hkeep
      rw [cleanEmit, sections_pieces h, List.flatMap_singleton, Section.lines, hnil]
      exact Nat.zero_le _

theorem filterMap_eq_self_iff {f : Line → Option Line} {ls : List Line}
    (h : ∀ l ∈ ls, (f l).isSome) : ls.filterMap f = ls ↔ ∀ l ∈ ls, f l = some l := by
  induction ls with
  | nil => simp
  | cons l ls ih =>
    obtain ⟨m, hm⟩ := Option.isSome_iff_exists.mp (h l List.mem_cons_self)
    have htail := ih fun l' hl' => h l' (List.mem_cons_of_mem _ hl')
    rw [List.filterMap_cons_some hm, List.forall_mem_cons, ← htail, List.cons.injEq, hm,
      Option.some.injEq]

theorem normPath_devNull : normPath devNull = devNull := by decide

theorem old_iff (p : Line) : marked oldMark (normPath p) = p ↔ Written oldMark OldPath p :=
  marked_eq_iff (fun _ => normPath_old_iff) (fun _ h => ne_devNull_of_plain h.1) normPath_devNull p

theorem new_iff (p : Line) : marked newMark (normPath p) = p ↔ Written newMark Plain p :=
  marked_eq_iff (fun _ => normPath_new_iff) (fun _ h => ne_devNull_of_plain h) normPath_devNull p

theorem retouchLine_old (p : Line) :
    retouchLine (oldHead ++ p) = some (oldHead ++ marked oldMark (normPath p)) := by
  rw [retouchLine, if_pos (List.prefix_append ..), drop_old]

theorem retouchLine_new (p : Line) :
    retouchLine (newHead ++ p) = some (newHead ++ marked newMark (normPath p)) := by
  have hold : ¬ oldHead <+: newHead ++ p := fun ⟨q, hq⟩ => old_ne_new q p hq
  rw [retouchLine, if_neg hold, if_pos (List.prefix_append ..), drop_new]

/-- A line stays when it is no header, or one whose path stays. -/
theorem retouchLine_eq_iff {l : Line} (hbin : ¬ binaryHead <+: l) :
    retouchLine l = some l ↔ Names (Written oldMark OldPath) (Written newMark Plain) l := by
  by_cases hold : oldHead <+: l
  · obtain ⟨p, rfl⟩ := hold
    rw [retouchLine_old, Option.some.injEq, List.append_cancel_left_eq, old_iff, names_old]
  · by_cases hnew : newHead <+: l
    · obtain ⟨p, rfl⟩ := hnew
      rw [retouchLine_new, Option.some.injEq, List.append_cancel_left_eq, new_iff, names_new]
    · rw [retouchLine, if_neg hold, if_neg hnew, if_neg hbin]
      exact iff_of_true rfl (names_other hold hnew)

/-- **The hunks of a section that `clean` keeps.** -/
theorem cleanEmit_eq_iff {s : Section} (hkeep : cleanKeeps s.first) :
    cleanEmit s = (cleanRetouch s).lines ↔ HunksHeld OldPath Plain s := by
  have hlines : (cleanRetouch s).lines =
      cleanFirst s.first :: (s.headers.filterMap retouchLine ++ s.hunks) := rfl
  have hsome : ∀ l ∈ s.hunks, (retouchLine l).isSome := by
    intro l hl
    unfold retouchLine
    rw [if_neg (not_binary hl)]
    split_ifs <;> rfl
  have hheld : (∀ l ∈ s.hunks, NoBreak l) →
      (cleanEmit s = (cleanRetouch s).lines ↔ ∀ l ∈ s.hunks, retouchLine l = some l) := by
    intro hbreak
    rw [cleanEmit_of_kept hkeep hbreak, hlines, List.cons.injEq, List.append_cancel_left_eq,
      filterMap_eq_self_iff hsome]
    exact and_iff_right rfl
  constructor
  · intro h
    have hbreak : ∀ l ∈ s.hunks, NoBreak l := by
      intro l hl
      refine cleanPass_emits.noBreak s l ?_
      rw [h, hlines]
      exact List.mem_cons_of_mem _ (List.mem_append_right _ hl)
    intro l hl
    exact ⟨hbreak l hl, (retouchLine_eq_iff (not_binary hl)).mp ((hheld hbreak).mp h l hl)⟩
  · intro h
    refine (hheld fun l hl => (h l hl).1).mpr fun l hl => ?_
    exact (retouchLine_eq_iff (not_binary hl)).mpr (h l hl).2

/-- A line that has been put out is no remark on binary files. -/
theorem not_binary_of_retouchLine {l m : Line} (h : retouchLine l = some m) :
    ¬ binaryHead <+: m := by
  unfold retouchLine at h
  split_ifs at h with hold hnew hbin
  · obtain rfl := Option.some.inj h
    rintro ⟨q, hq⟩
    cases (List.cons.inj hq).1
  · obtain rfl := Option.some.inj h
    rintro ⟨q, hq⟩
    cases (List.cons.inj hq).1
  · obtain rfl := Option.some.inj h
    exact hbin

/-- A header line that has been put out stays the second time when its path is read back. -/
theorem retouchLine_again_iff {l m : Line} (h : retouchLine l = some m) :
    retouchLine m = some m ↔ Names (fun p => normPath p = devNull ∨ OldPath (normPath p))
      (fun p => normPath p = devNull ∨ Plain (normPath p)) l := by
  rw [retouchLine_eq_iff (not_binary_of_retouchLine h)]
  by_cases hold : oldHead <+: l
  · obtain ⟨p, rfl⟩ := hold
    rw [retouchLine_old] at h
    obtain rfl := Option.some.inj h
    rw [names_old, names_old]
    exact written_marked_iff oldMark_ne _
  · by_cases hnew : newHead <+: l
    · obtain ⟨p, rfl⟩ := hnew
      rw [retouchLine_new] at h
      obtain rfl := Option.some.inj h
      rw [names_new, names_new]
      exact written_marked_iff newMark_ne _
    · rw [retouchLine, if_neg hold, if_neg hnew] at h
      split_ifs at h
      obtain rfl := Option.some.inj h
      exact iff_of_true (names_other hold hnew) (names_other hold hnew)

/-- A binary remark is put out by nobody, so nothing is asked of it. -/
theorem names_of_retouchLine_none {oldOk newOk : Line → Prop} {l : Line}
    (h : retouchLine l = none) : Names oldOk newOk l := by
  unfold retouchLine at h
  split_ifs at h with hold hnew
  exact names_other hold hnew

theorem notSpace_normPath {p : Line} (h : ∀ c ∈ p, isSpace c = false) :
    ∀ c ∈ normPath p, isSpace c = false := fun c hc => h c (normPath_subset p hc)

/-- The first line of a section that is kept stays the second time when both paths are read back. -/
theorem cleanFirst_again_iff {first : Line} (hkeep : cleanKeeps first) :
    (cleanKeeps (cleanFirst first) ∧ cleanFirst (cleanFirst first) = cleanFirst first) ↔
      ∀ x y, parts first = some (x, y) → OldPath (normPath x) ∧ Plain (normPath y) := by
  unfold cleanKeeps at hkeep
  cases hparts : parts first with
  | none =>
    rw [hparts] at hkeep
    cases hkeep
  | some xy =>
    obtain ⟨x, y⟩ := xy
    simp only [hparts] at hkeep
    obtain ⟨hx, hy⟩ := notSpace_parts hparts
    have ha := notSpace_normPath hx
    have hb := notSpace_normPath hy
    have hfirst : cleanFirst first = firstLine (normPath x) (normPath y) := by
      rw [cleanFirst, hparts]
    have hagain := parts_firstLine ha hb
    have hsecond : cleanFirst (cleanFirst first) =
        firstLine (normPath (oldMark ++ normPath x)) (normPath (newMark ++ normPath y)) := by
      rw [hfirst, cleanFirst, hagain]
    rw [hsecond, hfirst]
    constructor
    · rintro ⟨-, heq⟩ x' y' hxy
      obtain ⟨rfl, rfl⟩ := Prod.mk.inj (Option.some.inj hxy)
      obtain ⟨hold, hnew⟩ := firstLine_injective (notSpace_normPath (notSpace_marks ha).1)
        (notSpace_normPath (notSpace_marks hb).2) ha hb heq
      exact ⟨normPath_old_iff.mp hold, normPath_new_iff.mp hnew⟩
    · intro h
      obtain ⟨hold, hnew⟩ := h x y rfl
      have hnull := ne_devNull_of_plain hnew
      rw [sectionPath, if_pos hnull] at hkeep
      rw [cleanKeeps, hagain]
      simp only [normPath_old_iff.mpr hold, normPath_new_iff.mpr hnew, sectionPath,
        if_pos hnull]
      exact ⟨hkeep, trivial⟩

/-- **What `clean` does the second time.** -/
theorem cleanEmit_again_iff {s : Section} (hkeep : cleanKeeps s.first)
    (hheld : HunksHeld OldPath Plain s) :
    cleanEmit (cleanRetouch s) = (cleanRetouch s).lines ↔ HeadersRead s := by
  have hhunks : s.hunks.filterMap retouchLine = s.hunks := by
    rw [List.filterMap_congr fun l hl => (retouchLine_eq_iff (not_binary hl)).mpr (hheld l hl).2]
    exact List.filterMap_some
  have hheaders : (s.headers.filterMap retouchLine).filterMap retouchLine =
      s.headers.filterMap retouchLine ↔
      ∀ l ∈ s.headers, Names (fun p => normPath p = devNull ∨ OldPath (normPath p))
        (fun p => normPath p = devNull ∨ Plain (normPath p)) l := by
    have hsome : ∀ m ∈ s.headers.filterMap retouchLine, (retouchLine m).isSome := by
      intro m hm
      obtain ⟨l, -, hl⟩ := List.mem_filterMap.mp hm
      unfold retouchLine
      rw [if_neg (not_binary_of_retouchLine hl)]
      split_ifs <;> rfl
    rw [filterMap_eq_self_iff hsome]
    constructor
    · intro h l hl
      cases hm : retouchLine l with
      | none => exact names_of_retouchLine_none hm
      | some m => exact (retouchLine_again_iff hm).mp (h m (List.mem_filterMap.mpr ⟨l, hl, hm⟩))
    · intro h m hm
      obtain ⟨l, hl, hlm⟩ := List.mem_filterMap.mp hm
      exact (retouchLine_again_iff hlm).mpr (h l hl)
  have hbreak : ∀ l ∈ (cleanRetouch s).hunks, NoBreak l := fun l hl => (hheld l hl).1
  rw [HeadersRead, ← hheaders, ← cleanFirst_again_iff hkeep]
  cases hagain : cleanKeeps (cleanRetouch s).first with
  | true =>
    rw [cleanEmit_of_kept hagain hbreak]
    show cleanFirst (cleanFirst s.first) :: ((s.headers.filterMap retouchLine).filterMap
      retouchLine ++ s.hunks.filterMap retouchLine) = cleanFirst s.first ::
      (s.headers.filterMap retouchLine ++ s.hunks) ↔ _
    rw [hhunks, List.cons.injEq, List.append_left_inj]
    exact and_congr_left fun _ => (and_iff_right hagain).symm
  | false =>
    have hnil : cleanEmit (cleanRetouch s) = [] := by
      rw [cleanEmit, sections_pieces hbreak, List.flatMap_singleton]
      exact judges_clean.dropped _ _ hagain
    rw [hnil]
    refine iff_of_false (fun h => by cases h) ?_
    rintro ⟨⟨hkeep', -⟩, -⟩
    exact absurd (hagain.symm.trans hkeep') (by decide)

end Patch

end DeltaBox
