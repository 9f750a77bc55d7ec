import DeltaBox.Patch.Sections

/-!
# The paths of a patch, made relative

Both cleaners of a patch read a path out of a header line, take marks and directories off its
front, and write it back behind `a/` or `b/`. What they write is read again when the patch is
cleaned a second time.

## Main definitions

* `Patch.normPath` — `clean_patch.norm_path`
* `Patch.noIndexPath` — `norm_path` inside `_normalize_no_index_diff`
* `Patch.Plain` — a path that neither of them cuts

## Main results

* `Patch.normPath_old_iff`, `Patch.normPath_new_iff`, `Patch.noIndexPath_old_iff`,
  `Patch.noIndexPath_new_iff` — the paths that are read back as they were written
-/

namespace DeltaBox

namespace Patch

open Text

def devNull : Line := ['/', 'd', 'e', 'v', '/', 'n', 'u', 'l', 'l']

def oldMark : Line := ['a', '/']

def newMark : Line := ['b', '/']

def mergedDir : Line := ['/', 'm', 'e', 'r', 'g', 'e', 'd', '/']

def heavyDir : Line := ['/', 'h', 'e', 'a', 'v', 'y', '_', 'l', 'o', 'w', 'e', 'r', '_']

def heavyName : Line := ['h', 'e', 'a', 'v', 'y', '_', 'l', 'o', 'w', 'e', 'r', '_']

def tmpDir : Line := ['t', 'm', 'p', '/']

/-! ### The two `norm_path` -/

/-- The loop over `("a/", "b/", "a", "b")` in front of `/tmp/`. -/
def dropMark (p : Line) : Line :=
  match [oldMark, newMark, ['a'], ['b']].find? fun pre => pre ++ '/' :: tmpDir <+: p with
  | some pre => p.drop pre.length
  | none => p

/-- The components behind the first one that is the lower directory of a heavy sandbox, if there are
any. -/
def heavyRest : List Line → Option (List Line)
  | [] => none
  | [_] => none
  | part :: next :: rest =>
    if heavyName <+: part then some (next :: rest) else heavyRest (next :: rest)

/-- The branch on `"/heavy_lower_" in p`. -/
def behindHeavy (p : Line) : Line :=
  if heavyDir <:+: p then
    match heavyRest (p.splitOn '/') with
    | some rest => ['/'].intercalate rest
    | none => p
  else p

/-- `p.lstrip("/")`. -/
def unslash (p : Line) : Line := p.dropWhile (· = '/')

/-- The marks `a/` and `b/` at the front. -/
def unmark (p : Line) : Line := removePrefix newMark (removePrefix oldMark (dropMark p))

/-- `"/merged/"` first, the lower directory only if it is not there. -/
def cutEither (p : Line) : Line :=
  match after mergedDir p with
  | some rest => rest
  | none => behindHeavy p

/-- `"/merged/"`, and then the lower directory. -/
def cutBoth (p : Line) : Line := behindHeavy ((after mergedDir p).getD p)

/-- `clean_patch.norm_path`. -/
def normPath (p : Line) : Line :=
  let p := strip p
  if p = devNull then p else unslash (cutEither (unmark p))

/-- `norm_path` of `_normalize_no_index_diff`, with the directory that was compared. -/
def noIndexPath (dir p : Line) : Line :=
  let p := rstrip p
  if p = devNull then p else unslash (cutBoth (removePrefix (dir ++ ['/']) (unmark p)))

example : normPath "a//tmp/heavy_lower_x/pkg/file.py".toList = "pkg/file.py".toList := by
  decide +kernel

example : noIndexPath "/tmp/base".toList "a/tmp/base/pkg/file.py".toList =
    "pkg/file.py".toList := by decide +kernel

/-! ### What is cut -/

/-- A path in neither a merged nor a lower directory. -/
def Clear (p : Line) : Prop :=
  ¬ mergedDir <:+: p ∧ ¬ (heavyDir <:+: p ∧ ∃ part ∈ (p.splitOn '/').dropLast, heavyName <+: part)

/-- A path that is written as it stands: without a slash at its front or a blank at its end. -/
def Plain (p : Line) : Prop := rstrip p = p ∧ p.head? ≠ some '/' ∧ Clear p

/-- A path that is below the directory that was compared. A path below `tmp` is read with a slash in
front of it. -/
def InDir (dir p : Line) : Prop :=
  dir ≠ [] ∧ dir ++ ['/'] <+: if tmpDir <+: p then '/' :: p else p

/-- A function that cuts the front off the paths that are not clear, and leaves the others. -/
def Cuts (cut : Line → Line) : Prop :=
  ∀ p, (cut p = p ∧ Clear p) ∨ (cut p <:+ p ∧ (cut p).length + 8 ≤ p.length ∧ ¬ Clear p)

theorem heavyRest_eq_none_iff (parts : List Line) :
    heavyRest parts = none ↔ ∀ part ∈ parts.dropLast, ¬ heavyName <+: part := by
  induction parts using heavyRest.induct with
  | case1 => simp [heavyRest]
  | case2 part => simp [heavyRest]
  | case3 part next rest h => simp [heavyRest, h]
  | case4 part next rest h ih => simp [heavyRest, h, ih]

/-- What stands behind the lower directory is the end of the path. -/
theorem of_heavyRest_eq_some {parts rest : List Line} (h : heavyRest parts = some rest) :
    ['/'].intercalate rest <:+ ['/'].intercalate parts ∧
    (['/'].intercalate rest).length + 8 ≤ (['/'].intercalate parts).length := by
  induction parts using heavyRest.induct with
  | case1 => cases h
  | case2 part => cases h
  | case3 part next more hpart =>
    rw [heavyRest, if_pos hpart] at h
    obtain rfl := Option.some.inj h
    have hlen : 12 ≤ part.length := hpart.length_le
    rw [List.intercalate_cons_cons]
    refine ⟨List.suffix_append .., ?_⟩
    simp only [List.length_append]
    omega
  | case4 part next more hpart ih =>
    rw [heavyRest, if_neg hpart] at h
    obtain ⟨hsuffix, hlen⟩ := ih h
    rw [List.intercalate_cons_cons]
    refine ⟨hsuffix.trans (List.suffix_append ..), ?_⟩
    simp only [List.length_append]
    omega

/-- The branch on the lower directory cuts a path that has one, and no other. -/
theorem behindHeavy_cases (p : Line) :
    (behindHeavy p = p ∧
      ¬ (heavyDir <:+: p ∧ ∃ part ∈ (p.splitOn '/').dropLast, heavyName <+: part)) ∨
    (behindHeavy p <:+ p ∧ (behindHeavy p).length + 8 ≤ p.length ∧ heavyDir <:+: p ∧
      ∃ part ∈ (p.splitOn '/').dropLast, heavyName <+: part) := by
  unfold behindHeavy
  split_ifs with hdir
  · cases hrest : heavyRest (p.splitOn '/') with
    | none =>
      refine .inl ⟨rfl, ?_⟩
      rintro ⟨-, part, hpart, hname⟩
      exact (heavyRest_eq_none_iff _).mp hrest part hpart hname
    | some rest =>
      obtain ⟨hsuffix, hlen⟩ := of_heavyRest_eq_some hrest
      rw [List.intercalate_splitOn] at hsuffix hlen
      refine .inr ⟨hsuffix, hlen, hdir, ?_⟩
      have hsome : heavyRest (p.splitOn '/') ≠ none := by simp [hrest]
      simpa [heavyRest_eq_none_iff] using hsome
  · exact .inl ⟨rfl, fun h => hdir h.1⟩

theorem cuts_cutEither : Cuts cutEither := by
  intro p
  unfold cutEither
  cases hafter : after mergedDir p with
  | some rest =>
    obtain ⟨hsuffix, hlen⟩ := of_after_eq_some hafter
    refine .inr ⟨hsuffix, hlen, fun hclear => ?_⟩
    rw [(after_eq_none_iff (by decide)).mpr hclear.1] at hafter
    cases hafter
  | none =>
    have hmerged := (after_eq_none_iff (by decide)).mp hafter
    rcases behindHeavy_cases p with ⟨hp, hheavy⟩ | ⟨hsuffix, hlen, hheavy⟩
    · exact .inl ⟨hp, hmerged, hheavy⟩
    · exact .inr ⟨hsuffix, hlen, fun hclear => hclear.2 hheavy⟩

theorem cuts_cutBoth : Cuts cutBoth := by
  intro p
  unfold cutBoth
  cases hafter : after mergedDir p with
  | some rest =>
    obtain ⟨hsuffix, hlen⟩ := of_after_eq_some hafter
    have hlen : rest.length + 8 ≤ p.length := hlen
    have hclear : ¬ Clear p := by
      intro hclear
      rw [(after_eq_none_iff (by decide)).mpr hclear.1] at hafter
      cases hafter
    rw [Option.getD_some]
    rcases behindHeavy_cases rest with ⟨hrest, -⟩ | ⟨hcut, hshort, -⟩
    · rw [hrest]
      exact .inr ⟨hsuffix, hlen, hclear⟩
    · exact .inr ⟨hcut.trans hsuffix, by omega, hclear⟩
  | none =>
    have hmerged := (after_eq_none_iff (by decide)).mp hafter
    rw [Option.getD_none]
    rcases behindHeavy_cases p with ⟨hp, hheavy⟩ | ⟨hsuffix, hlen, hheavy⟩
    · exact .inl ⟨hp, hmerged, hheavy⟩
    · exact .inr ⟨hsuffix, hlen, fun hclear => hclear.2 hheavy⟩

variable {cut : Line → Line} {dir p q : Line}

theorem Cuts.suffix (hcut : Cuts cut) (p : Line) : unslash (cut p) <:+ p := by
  refine (List.dropWhile_suffix _).trans ?_
  rcases hcut p with ⟨h, -⟩ | ⟨h, -⟩
  · rw [h]
  · exact h

theorem head_unslash (p : Line) : (unslash p).head? ≠ some '/' := by
  intro h
  have hnot := List.head?_dropWhile_not (· = '/') p
  rw [unslash] at h
  simp [h] at hnot

theorem unslash_of_head (h : p.head? ≠ some '/') : unslash p = p := by
  cases p with
  | nil => rfl
  | cons c p => exact List.dropWhile_cons_of_neg (by simpa using h)

/-- A path without a slash at its front stays if it is clear, and only then. -/
theorem Cuts.stays_iff (hcut : Cuts cut) (hq : q.head? ≠ some '/') :
    unslash (cut q) = q ↔ Clear q := by
  rcases hcut q with ⟨hsame, hclear⟩ | ⟨-, hlen, hclear⟩
  · simp [hsame, hclear, unslash_of_head hq]
  · have hshort := (List.dropWhile_suffix (· = '/') (l := cut q)).length_le
    refine ⟨fun h => ?_, fun h => absurd h hclear⟩
    rw [← unslash, h] at hshort
    omega

theorem Cuts.stays_slash_iff (hcut : Cuts cut) (hq : q.head? ≠ some '/') :
    unslash (cut ('/' :: q)) = q ↔ Clear ('/' :: q) := by
  rcases hcut ('/' :: q) with ⟨hsame, hclear⟩ | ⟨-, hlen, hclear⟩
  · have hslash : unslash ('/' :: q) = q := unslash_of_head hq
    simp [hsame, hclear, hslash]
  · have hshort := (List.dropWhile_suffix (· = '/') (l := cut ('/' :: q))).length_le
    refine ⟨fun h => ?_, fun h => absurd h hclear⟩
    rw [← unslash, h] at hshort
    rw [List.length_cons] at hlen
    omega

theorem Cuts.ne_of_short (hcut : Cuts cut) (h : p.length < q.length) : unslash (cut p) ≠ q := by
  rintro rfl
  have hlen := (hcut.suffix p).length_le
  omega

/-! ### What is read back -/

/-- Below `tmp` the slash in front makes no difference. -/
theorem clear_slash_iff (h : tmpDir <+: q) : Clear ('/' :: q) ↔ Clear q := by
  obtain ⟨more, rfl⟩ := h
  have hmerged : mergedDir <:+: '/' :: (tmpDir ++ more) ↔ mergedDir <:+: tmpDir ++ more := by
    rw [List.infix_cons_iff]
    exact or_iff_right (by simp [mergedDir, tmpDir])
  have hheavy : heavyDir <:+: '/' :: (tmpDir ++ more) ↔ heavyDir <:+: tmpDir ++ more := by
    rw [List.infix_cons_iff]
    exact or_iff_right (by simp [heavyDir, tmpDir])
  have hparts : ((('/' :: (tmpDir ++ more)).splitOn '/').dropLast) =
      [] :: ((tmpDir ++ more).splitOn '/').dropLast := by
    rw [← List.nil_append ('/' :: _), List.splitOn_append_cons_self_of_not_mem (by simp),
      List.dropLast_cons_of_ne_nil (by simp)]
  have hnil : ¬ heavyName <+: [] := by decide
  simp [Clear, hmerged, hheavy, hparts, hnil]

theorem unmark_old (hq : q.head? ≠ some '/') :
    unmark (oldMark ++ q) = if tmpDir <+: q then '/' :: q else removePrefix newMark q := by
  have hslash : ¬ '/' :: tmpDir <+: q := by
    rintro ⟨more, rfl⟩
    exact hq rfl
  by_cases htmp : tmpDir <+: q
  · have hdrop : dropMark (oldMark ++ q) = '/' :: q := by
      simp [dropMark, oldMark, newMark, hslash, htmp]
    rw [unmark, hdrop, if_pos htmp]
    simp [removePrefix, oldMark, newMark]
  · have hdrop : dropMark (oldMark ++ q) = oldMark ++ q := by
      simp [dropMark, oldMark, newMark, hslash, htmp]
    rw [unmark, hdrop, removePrefix_append, if_neg htmp]

theorem unmark_new (hq : q.head? ≠ some '/') :
    unmark (newMark ++ q) = if tmpDir <+: q then '/' :: q else q := by
  have hslash : ¬ '/' :: tmpDir <+: q := by
    rintro ⟨more, rfl⟩
    exact hq rfl
  by_cases htmp : tmpDir <+: q
  · have hdrop : dropMark (newMark ++ q) = '/' :: q := by
      simp [dropMark, oldMark, newMark, hslash, htmp]
    rw [unmark, hdrop, if_pos htmp]
    simp [removePrefix, oldMark, newMark]
  · have hdrop : dropMark (newMark ++ q) = newMark ++ q := by
      simp [dropMark, oldMark, newMark, hslash, htmp]
    have hold : ¬ oldMark <+: newMark ++ q := by simp [oldMark, newMark]
    rw [unmark, hdrop, removePrefix_of_not hold, removePrefix_append, if_neg htmp]

theorem Cuts.front_iff (hcut : Cuts cut) (hq : q.head? ≠ some '/') :
    unslash (cut (if tmpDir <+: q then '/' :: q else q)) = q ↔ Clear q := by
  split_ifs with htmp
  · rw [hcut.stays_slash_iff hq, clear_slash_iff htmp]
  · exact hcut.stays_iff hq

/-- With the compared directory taken off before. -/
theorem Cuts.front_dir_iff (hcut : Cuts cut) (hq : q.head? ≠ some '/') :
    unslash (cut (removePrefix (dir ++ ['/']) (if tmpDir <+: q then '/' :: q else q))) = q ↔
      Clear q ∧ ¬ InDir dir q := by
  by_cases hdir : dir ++ ['/'] <+: if tmpDir <+: q then '/' :: q else q
  · by_cases hnil : dir = []
    · subst hnil
      -- only the slash is taken off, and `tmp` is behind it
      have htmp : tmpDir <+: q := by
        by_contra htmp
        rw [if_neg htmp] at hdir
        obtain ⟨more, rfl⟩ := hdir
        exact hq rfl
      have hin : ¬ InDir [] q := fun h => h.1 rfl
      rw [if_pos htmp, and_iff_left hin]
      exact (congrArg (fun p => unslash (cut p) = q)
        (removePrefix_append ['/'] q)).to_iff.trans (hcut.stays_iff hq)
    · have hin : InDir dir q := ⟨hnil, hdir⟩
      have hpos := List.length_pos_of_ne_nil hnil
      have hlen := hdir.length_le
      have hfront : (if tmpDir <+: q then '/' :: q else q).length ≤ q.length + 1 := by
        split_ifs <;> simp
      refine iff_of_false (hcut.ne_of_short ?_) (fun h => h.2 hin)
      rw [removePrefix, if_pos hdir, List.length_drop]
      rw [List.length_append, List.length_singleton] at hlen ⊢
      omega
  · have hin : ¬ InDir dir q := fun h => hdir h.2
    rw [removePrefix_of_not hdir, hcut.front_iff hq, and_iff_left hin]

theorem strip_mark {mark : Line} (hmark : mark = oldMark ∨ mark = newMark) (q : Line) :
    strip (mark ++ q) = mark ++ rstrip q ∧ rstrip (mark ++ q) = mark ++ rstrip q ∧
      mark ++ rstrip q ≠ devNull := by
  have hold : rstrip oldMark = oldMark := by decide
  have hnew : rstrip newMark = newMark := by decide
  rcases hmark with rfl | rfl
  · exact ⟨rstrip_append hold q, rstrip_append hold q, by simp [oldMark, devNull]⟩
  · exact ⟨rstrip_append hnew q, rstrip_append hnew q, by simp [newMark, devNull]⟩

theorem unmark_suffix (p : Line) : unmark p <:+ p := by
  refine (removePrefix_suffix _ _).trans ((removePrefix_suffix _ _).trans ?_)
  unfold dropMark
  split
  · exact List.drop_suffix ..
  · exact List.suffix_rfl

theorem normPath_suffix (p : Line) : normPath p <:+ strip p := by
  unfold normPath
  dsimp only
  split_ifs
  · exact List.suffix_rfl
  · exact (cuts_cutEither.suffix _).trans (unmark_suffix _)

theorem noIndexPath_suffix (dir p : Line) : noIndexPath dir p <:+ rstrip p := by
  unfold noIndexPath
  dsimp only
  split_ifs
  · exact List.suffix_rfl
  · exact (cuts_cutBoth.suffix _).trans ((removePrefix_suffix _ _).trans (unmark_suffix _))

theorem normPath_mark {mark : Line} (hmark : mark = oldMark ∨ mark = newMark) (q : Line) :
    normPath (mark ++ q) = unslash (cutEither (unmark (mark ++ rstrip q))) := by
  obtain ⟨hstrip, -, hnull⟩ := strip_mark hmark q
  unfold normPath
  rw [hstrip]
  exact if_neg hnull

theorem noIndexPath_mark {mark : Line} (hmark : mark = oldMark ∨ mark = newMark) (q : Line) :
    noIndexPath dir (mark ++ q) =
      unslash (cutBoth (removePrefix (dir ++ ['/']) (unmark (mark ++ rstrip q)))) := by
  obtain ⟨-, hstrip, hnull⟩ := strip_mark hmark q
  unfold noIndexPath
  rw [hstrip]
  exact if_neg hnull

/-- What a function that strips and cuts returns begins with no slash and ends with no blank. -/
theorem ends_of_eq {f : Line → Line} (hsuffix : ∀ p, ∃ r, f p <:+ rstrip r)
    (hslash : (f p).head? ≠ some '/') (h : f p = q) : rstrip q = q ∧ q.head? ≠ some '/' := by
  subst h
  obtain ⟨r, hr⟩ := hsuffix p
  exact ⟨rstrip_of_suffix hr, hslash⟩

theorem normPath_ends {mark : Line} (hmark : mark = oldMark ∨ mark = newMark)
    (h : normPath (mark ++ q) = q) : rstrip q = q ∧ q.head? ≠ some '/' := by
  refine ends_of_eq (fun p => ⟨_, normPath_suffix p⟩) ?_ h
  rw [normPath_mark hmark]
  exact head_unslash _

theorem noIndexPath_ends {mark : Line} (hmark : mark = oldMark ∨ mark = newMark)
    (h : noIndexPath dir (mark ++ q) = q) : rstrip q = q ∧ q.head? ≠ some '/' := by
  refine ends_of_eq (fun p => ⟨_, noIndexPath_suffix dir p⟩) ?_ h
  rw [noIndexPath_mark hmark]
  exact head_unslash _

/-- A path that begins with the mark of the new side loses it. -/
theorem not_read_back (hcut : Cuts cut) (hq : newMark <+: q) :
    ¬ tmpDir <+: q ∧ (∀ pre, unslash (cut (removePrefix pre (removePrefix newMark q))) ≠ q) ∧
      unslash (cut (removePrefix newMark q)) ≠ q := by
  obtain ⟨more, rfl⟩ := hq
  rw [removePrefix_append]
  refine ⟨by simp [tmpDir, newMark], fun pre => hcut.ne_of_short ?_, hcut.ne_of_short ?_⟩
  · have hlen := (removePrefix_suffix pre more).length_le
    rw [List.length_append]
    exact Nat.lt_of_le_of_lt hlen (Nat.lt_add_of_pos_left (by decide))
  · rw [List.length_append]
    exact Nat.lt_add_of_pos_left (by decide)

/-- **What `clean` reads back behind `b/`.** -/
theorem normPath_new_iff : normPath (newMark ++ q) = q ↔ Plain q := by
  constructor
  · intro h
    obtain ⟨htrim, hhead⟩ := normPath_ends (.inr rfl) h
    rw [normPath_mark (.inr rfl), htrim, unmark_new hhead, cuts_cutEither.front_iff hhead] at h
    exact ⟨htrim, hhead, h⟩
  · rintro ⟨htrim, hhead, hclear⟩
    rw [normPath_mark (.inr rfl), htrim, unmark_new hhead, cuts_cutEither.front_iff hhead]
    exact hclear

/-- **What `clean` reads back behind `a/`.** -/
theorem normPath_old_iff : normPath (oldMark ++ q) = q ↔ Plain q ∧ ¬ newMark <+: q := by
  by_cases hnew : newMark <+: q
  · obtain ⟨htmp, -, hne⟩ := not_read_back cuts_cutEither hnew
    refine iff_of_false (fun h => ?_) (fun h => h.2 hnew)
    obtain ⟨htrim, hhead⟩ := normPath_ends (.inl rfl) h
    rw [normPath_mark (.inl rfl), htrim, unmark_old hhead, if_neg htmp] at h
    exact hne h
  · rw [and_iff_left hnew]
    constructor
    · intro h
      obtain ⟨htrim, hhead⟩ := normPath_ends (.inl rfl) h
      rw [normPath_mark (.inl rfl), htrim, unmark_old hhead, removePrefix_of_not hnew,
        cuts_cutEither.front_iff hhead] at h
      exact ⟨htrim, hhead, h⟩
    · rintro ⟨htrim, hhead, hclear⟩
      rw [normPath_mark (.inl rfl), htrim, unmark_old hhead, removePrefix_of_not hnew,
        cuts_cutEither.front_iff hhead]
      exact hclear

/-- **What `_normalize_no_index_diff` reads back behind `b/`.** -/
theorem noIndexPath_new_iff :
    noIndexPath dir (newMark ++ q) = q ↔ Plain q ∧ ¬ InDir dir q := by
  constructor
  · intro h
    obtain ⟨htrim, hhead⟩ := noIndexPath_ends (.inr rfl) h
    rw [noIndexPath_mark (.inr rfl), htrim, unmark_new hhead,
      cuts_cutBoth.front_dir_iff hhead] at h
    exact ⟨⟨htrim, hhead, h.1⟩, h.2⟩
  · rintro ⟨⟨htrim, hhead, hclear⟩, hdir⟩
    rw [noIndexPath_mark (.inr rfl), htrim, unmark_new hhead, cuts_cutBoth.front_dir_iff hhead]
    exact ⟨hclear, hdir⟩

/-- **What `_normalize_no_index_diff` reads back behind `a/`.** -/
theorem noIndexPath_old_iff :
    noIndexPath dir (oldMark ++ q) = q ↔ Plain q ∧ ¬ newMark <+: q ∧ ¬ InDir dir q := by
  by_cases hnew : newMark <+: q
  · obtain ⟨htmp, hne, -⟩ := not_read_back cuts_cutBoth hnew
    refine iff_of_false (fun h => ?_) (fun h => h.2.1 hnew)
    obtain ⟨htrim, hhead⟩ := noIndexPath_ends (.inl rfl) h
    rw [noIndexPath_mark (.inl rfl), htrim, unmark_old hhead, if_neg htmp] at h
    exact hne _ h
  · rw [and_iff_right (a := ¬ newMark <+: q) hnew]
    constructor
    · intro h
      obtain ⟨htrim, hhead⟩ := noIndexPath_ends (.inl rfl) h
      rw [noIndexPath_mark (.inl rfl), htrim, unmark_old hhead, removePrefix_of_not hnew,
        cuts_cutBoth.front_dir_iff hhead] at h
      exact ⟨⟨htrim, hhead, h.1⟩, h.2⟩
    · rintro ⟨⟨htrim, hhead, hclear⟩, hdir⟩
      rw [noIndexPath_mark (.inl rfl), htrim, unmark_old hhead, removePrefix_of_not hnew,
        cuts_cutBoth.front_dir_iff hhead]
      exact ⟨hclear, hdir⟩

end Patch

end DeltaBox
