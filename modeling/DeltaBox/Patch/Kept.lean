import DeltaBox.Patch.CleanHunks
import DeltaBox.Patch.NoIndexHunks

/-!
# What cleaning does to a patch

## Main results

* `Patch.cleaning_iff` — each of the three passes keeps whole sections with their hunks as they are,
  and does nothing the second time, exactly when each section is of the kind described for it
-/

namespace DeltaBox

namespace Patch

open Text OverList

/-! ### `_filter_patch_paths` -/

/-- `_filter_patch_paths`, and the sections it is to keep. -/
def filterPass : Pass where
  run := filterPatchPaths
  keeps := filterKeeps
  retouch := id
  hunks_retouch := fun _ => rfl

/-- What `_filter_patch_paths` puts out for a section. -/
def filterEmit (s : Section) : List Line := (sections s.pieces).flatMap filterSection

theorem judges_filter : Judges filterKeeps filterSection where
  kept := fun first ls _ hkeep => by
    rw [filterSection, if_pos hkeep]
    simp
  dropped := fun first ls hdrop => by
    rw [filterSection, if_neg (by simp [hdrop])]

theorem filterEmit_of_noBreak {s : Section} (h : ∀ l ∈ s.hunks, NoBreak l) :
    filterEmit s = if filterKeeps s.first then s.lines else [] := by
  rw [filterEmit, sections_pieces h, List.flatMap_singleton]
  rfl

theorem filterPass_emits : filterPass.Emits filterEmit where
  run_eq := fun ps => by
    show filterPatchPaths (text ps) = _
    rw [filterPatchPaths, sections_text, List.flatMap_assoc]
    rfl
  noBreak := fun s l hl => by
    obtain ⟨h, hh, hl⟩ := List.mem_flatMap.mp hl
    refine noBreak_of_mem_pieces l (mem_of_mem_sections hh ?_)
    unfold filterSection at hl
    split at hl
    · cases hl
    · split_ifs at hl
      · exact hl
      · cases hl
  length_eq := fun s hkeep h => by
    have hkeep : filterKeeps s.first := hkeep
    rw [filterEmit_of_noBreak h, if_pos hkeep]
    rfl
  length_le := fun s h => by
    rw [filterEmit_of_noBreak h]
    split_ifs
    · exact Nat.le_refl _
    · exact Nat.zero_le _

/-- **The hunks of a section that the filter keeps.** -/
theorem filterEmit_eq_iff {s : Section} (hkeep : filterKeeps s.first) :
    filterEmit s = s.lines ↔ ∀ l ∈ s.hunks, NoBreak l := by
  constructor
  · intro h l hl
    refine filterPass_emits.noBreak s l ?_
    rw [h]
    exact List.mem_cons_of_mem _ (List.mem_append_right _ hl)
  · intro h
    rw [filterEmit_of_noBreak h, if_pos hkeep]

/-! ### The result -/

/-- What `clean` needs of a section. -/
def CleanHolds (s : Section) : Prop :=
  if cleanKeeps s.first then HunksHeld OldPath Plain s ∧ HeadersRead s else NoneKept cleanKeeps s

/-- What `_filter_patch_paths` needs of a section. -/
def FilterHolds (s : Section) : Prop :=
  if filterKeeps s.first then ∀ l ∈ s.hunks, NoBreak l else NoneKept filterKeeps s

/-- What `_normalize_no_index_diff` needs of a section. -/
def NoIndexHolds (base merged : Line) (s : Section) : Prop :=
  HunksHeld (OldPathIn base) (NewPathIn merged) s ∧ NoIndexRead base merged s

/-- **When cleaning leaves the hunks alone.** Each of the three keeps whole sections with their
hunks as they are, and changes nothing the second time, exactly when every section is of the kind
described for it. -/
theorem cleaning_iff (cwd base merged : String) (ps : List Section) :
    (cleanPass.Meets ps ↔ ∀ s ∈ ps, CleanHolds s) ∧
    (filterPass.Meets ps ↔ ∀ s ∈ ps, FilterHolds s) ∧
    ((noIndexPass cwd base merged).Meets ps ↔
      ∀ s ∈ ps, NoIndexHolds (compared cwd base) (compared cwd merged) s) := by
  refine ⟨?_, ?_, ?_⟩
  · rw [cleanPass_emits.meets_iff]
    refine forall₂_congr fun s _ => ?_
    unfold CleanHolds
    show (if cleanKeeps s.first then cleanEmit s = (cleanRetouch s).lines ∧
      cleanEmit (cleanRetouch s) = (cleanRetouch s).lines else cleanEmit s = []) ↔ _
    split_ifs with hkeep
    · rw [cleanEmit_eq_iff hkeep]
      exact and_congr_right fun hheld => cleanEmit_again_iff hkeep hheld
    · exact judges_clean.nil_iff (eq_false_of_ne_true hkeep)
  · rw [filterPass_emits.meets_iff]
    refine forall₂_congr fun s _ => ?_
    unfold FilterHolds
    show (if filterKeeps s.first then filterEmit s = s.lines ∧ filterEmit s = s.lines
      else filterEmit s = []) ↔ _
    split_ifs with hkeep
    · rw [and_self, filterEmit_eq_iff hkeep]
    · exact judges_filter.nil_iff (eq_false_of_ne_true hkeep)
  · rw [(noIndexPass_emits cwd base merged).meets_iff]
    refine forall₂_congr fun s _ => ?_
    refine (if_pos rfl).to_iff.trans ?_
    exact (and_congr_left' (noIndexEmit_eq_iff s)).trans
      (and_congr_right fun hheld => noIndexEmit_again_iff hheld)

/-- A file loses a comment that begins with two hyphens. -/
def removedComment : Section where
  first := "diff --git a/schema.py b/schema.py".toList
  headers := ["--- a/schema.py".toList, "+++ b/schema.py".toList]
  hunks := ["@@ -1,2 +1 @@".toList, "--- old table".toList, " x = 1".toList]
  opens := by decide
  noBreak_first := by decide
  headers_ok := by decide
  hunks_ok := by
    refine fun l hl => ⟨?_, ?_⟩
    · revert l
      decide
    · revert l
      simp [markers]

/-- A file with a form feed between two functions. -/
def keptFormFeed : Section where
  first := "diff --git a/schema.py b/schema.py".toList
  headers := ["--- a/schema.py".toList, "+++ b/schema.py".toList]
  hunks := ["@@ -1,2 +1,2 @@".toList, [' ', Char.ofNat 12, '#'], "+x = 1".toList]
  opens := by decide
  noBreak_first := by decide
  headers_ok := by decide
  hunks_ok := by
    refine fun l hl => ⟨?_, ?_⟩
    · revert l
      decide
    · revert l
      simp [markers]

/-- The comment becomes the header of another file, and the line with the form feed becomes two. -/
theorem hunks_corrupted : ¬ cleanPass.Meets [removedComment] ∧
    ¬ (noIndexPass "/" "/base" "/merged").Meets [removedComment] ∧
    ¬ filterPass.Meets [keptFormFeed] := by
  have hclean : clean (text [removedComment]) ≠ text (cleanPass.rest [removedComment]) := by
    decide +kernel
  have hnoIndex : normalizeNoIndexDiff "/" "/base" "/merged" (text [removedComment]) ≠
      text ((noIndexPass "/" "/base" "/merged").rest [removedComment]) := by decide +kernel
  have hfilter : filterPatchPaths (text [keptFormFeed]) ≠ text (filterPass.rest [keptFormFeed]) := by
    decide +kernel
  exact ⟨fun h => hclean h.1, fun h => hnoIndex h.1, fun h => hfilter h.1⟩

end Patch

end DeltaBox
