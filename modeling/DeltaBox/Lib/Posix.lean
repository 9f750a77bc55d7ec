import Mathlib.Data.List.Infix
import Mathlib.Data.List.TakeDrop

/-!
# Paths and shell patterns

The functions of `os.path` on POSIX, and `fnmatch`. A path is a string; its components are what
stands between the slashes.

## Main definitions

* `Posix.join`, `Posix.normpath`, `Posix.abspath`, `Posix.relpath`
* `Posix.fnmatch` — shell-style patterns, in which a star also matches slashes

## Main results

* `Posix.relpath_abspath` — it does not matter whether the start is made absolute before
* `Posix.fnmatch_rooted` — the pattern of all files matches every path with a slash in front
* `Posix.fnmatch_self_star` — a name without a bracket matches itself
-/

namespace DeltaBox

namespace Posix

/-- `p.split('/')`. -/
def split (p : String) : List String := (p.toList.splitOn '/').map String.ofList

/-- `os.path.isabs`. -/
def isabs (p : String) : Bool := p.toList.head? = some '/'

/-- `p.lstrip('/')`. -/
def lstrip (p : String) : String := String.ofList (p.toList.dropWhile (· = '/'))

/-- `p.startswith(q)`. -/
def startswith (p q : String) : Bool := q.toList.isPrefixOf p.toList

/-- `p.endswith(q)`. -/
def endswith (p q : String) : Bool := q.toList.isSuffixOf p.toList

/-- `os.path.join`. -/
def join (p q : String) : String :=
  if isabs q then q else if p = "" ∨ endswith p "/" then p ++ q else p ++ "/" ++ q

/-- The slashes a normalized path begins with: two are kept, more are one. -/
def initialSlashes (p : String) : String :=
  if !startswith p "/" then ""
  else if startswith p "//" ∧ !startswith p "///" then "//"
  else "/"

/-- One component in `os.path.normpath`. -/
def pushComp (rooted : Bool) (comps : List String) (c : String) : List String :=
  if c = "" ∨ c = "." then comps
  else if c ≠ ".." ∨ (!rooted ∧ comps = []) ∨ comps.getLast? = some ".." then comps ++ [c]
  else comps.dropLast

/-- `os.path.normpath`. -/
def normpath (p : String) : String :=
  let s := initialSlashes p
  let r := s ++ "/".intercalate ((split p).foldl (pushComp (s ≠ "")) [])
  if r = "" then "." else r

/-- `os.path.abspath`, with the working directory. -/
def abspath (cwd p : String) : String := normpath (if isabs p then p else join cwd p)

/-- How many components two paths have in common at the front. -/
def commonLength : List String → List String → ℕ
  | a :: as, b :: bs => if a = b then commonLength as bs + 1 else 0
  | _, _ => 0

/-- `os.path.relpath`, with the working directory. -/
def relpath (cwd p start : String) : String :=
  let ps := (split (abspath cwd p)).filter (· ≠ "")
  let ss := (split (abspath cwd start)).filter (· ≠ "")
  let i := commonLength ss ps
  let rel := List.replicate (ss.length - i) ".." ++ ps.drop i
  if rel = [] then "." else "/".intercalate rel

/-! ### Normalized paths -/

/-- A component of a normalized absolute path. -/
def IsName (c : String) : Prop := c ≠ "" ∧ c ≠ "." ∧ c ≠ ".." ∧ '/' ∉ c.toList

theorem not_mem_splitOn {α : Type*} [DecidableEq α] {a : α} {l part : List α}
    (h : part ∈ l.splitOn a) : a ∉ part := by
  induction l generalizing part with
  | nil => simp_all
  | cons x xs ih =>
    rw [List.splitOn_cons_eq_if_modifyHead] at h
    split_ifs at h with hx
    · rcases List.mem_cons.mp h with rfl | h
      · simp
      · exact ih h
    · obtain ⟨first, rest, hsplit⟩ := List.exists_cons_of_ne_nil (List.splitOn_ne_nil a xs)
      rw [hsplit, List.modifyHead_cons] at h
      rcases List.mem_cons.mp h with rfl | h
      · have hfirst := ih (hsplit ▸ List.mem_cons_self)
        have hne : x ≠ a := by simpa using hx
        simp [hfirst, Ne.symm hne]
      · exact ih (hsplit ▸ List.mem_cons_of_mem _ h)

theorem not_mem_split {p c : String} (h : c ∈ split p) : '/' ∉ c.toList := by
  obtain ⟨part, hpart, rfl⟩ := List.mem_map.mp h
  rw [String.toList_ofList]
  exact not_mem_splitOn hpart

/-- The components of an absolute path. -/
def comps (p : String) : List String := (split p).foldl (pushComp true) []

theorem isName_pushComp {acc : List String} {c : String} (hacc : ∀ x ∈ acc, IsName x)
    (hc : '/' ∉ c.toList) : ∀ x ∈ pushComp true acc c, IsName x := by
  unfold pushComp
  split_ifs with hskip hpush
  · exact hacc
  · intro x hx
    rcases List.mem_append.mp hx with hx | hx
    · exact hacc x hx
    · obtain rfl := List.mem_singleton.mp hx
      have hdots : x ≠ ".." := by
        rcases hpush with hne | ⟨hrooted, -⟩ | hlast
        · exact hne
        · cases hrooted
        · exact absurd rfl (hacc ".." (List.mem_of_getLast? hlast)).2.2.1
      exact ⟨fun h => hskip (.inl h), fun h => hskip (.inr h), hdots, hc⟩
  · exact fun x hx => hacc x (List.dropLast_subset _ hx)

theorem isName_of_mem_comps {p c : String} (h : c ∈ comps p) : IsName c := by
  suffices hfold : ∀ (l acc : List String), (∀ x ∈ l, '/' ∉ x.toList) → (∀ x ∈ acc, IsName x) →
      ∀ x ∈ l.foldl (pushComp true) acc, IsName x from
    hfold (split p) [] (fun x hx => not_mem_split hx) (by simp) c h
  intro l
  induction l with
  | nil => exact fun acc _ hacc => hacc
  | cons x xs ih =>
    intro acc hl hacc
    exact ih _ (fun y hy => hl y (List.mem_cons_of_mem _ hy))
      (isName_pushComp hacc (hl x List.mem_cons_self))

/-- Names are pushed as they are. -/
theorem foldl_pushComp {l acc : List String} (h : ∀ c ∈ l, IsName c) :
    l.foldl (pushComp true) acc = acc ++ l := by
  induction l generalizing acc with
  | nil => simp
  | cons c l ih =>
    obtain ⟨hempty, hdot, hdots, -⟩ := h c List.mem_cons_self
    have hpush : pushComp true acc c = acc ++ [c] := by
      rw [pushComp, if_neg (by simp [hempty, hdot]), if_pos (.inl hdots)]
    rw [List.foldl_cons, hpush, ih fun x hx => h x (List.mem_cons_of_mem _ hx), List.append_assoc]
    rfl

theorem isabs_root : isabs "/" = true := rfl

theorem isabs_iff {p : String} : isabs p = true ↔ ∃ cs, p.toList = '/' :: cs := by
  unfold isabs
  cases p.toList with
  | nil => simp
  | cons c cs => simp

theorem initialSlashes_of_isabs {p : String} (h : isabs p = true) :
    initialSlashes p = "/" ∨ initialSlashes p = "//" := by
  obtain ⟨cs, hcs⟩ := isabs_iff.mp h
  unfold initialSlashes startswith
  rw [hcs]
  split_ifs with h₁ h₂
  · simp at h₁
  · exact .inr rfl
  · exact .inl rfl

theorem normpath_of_isabs {p : String} (h : isabs p = true) :
    normpath p = initialSlashes p ++ "/".intercalate (comps p) := by
  have hslash := initialSlashes_of_isabs h
  have hne : initialSlashes p ≠ "" := by
    rcases hslash with h | h <;> rw [h] <;> decide
  have hr : initialSlashes p ++ "/".intercalate (comps p) ≠ "" := by
    intro hempty
    have := congrArg String.toList hempty
    rcases hslash with h | h <;> simp [h] at this
  unfold normpath
  simp only [hne, ne_eq, not_false_eq_true, decide_true]
  exact if_neg hr

theorem split_slash (q : String) : split ("/" ++ q) = "" :: split q := by
  have hlist : ("/" ++ q).toList = [] ++ '/' :: q.toList := by simp
  rw [split, hlist, List.splitOn_append_cons_self_of_not_mem (by simp)]
  rfl

theorem split_intercalate {l : List String} (h : ∀ c ∈ l, IsName c) :
    split ("/".intercalate l) = if l = [] then [""] else l := by
  split_ifs with hl
  · rw [hl]
    rfl
  · have hmap : l.map String.toList ≠ [] := by simpa using hl
    have hslash : ∀ part ∈ l.map String.toList, '/' ∉ part := by
      intro part hpart
      obtain ⟨c, hc, rfl⟩ := List.mem_map.mp hpart
      exact (h c hc).2.2.2
    have hlist : ("/".intercalate l).toList = ['/'].intercalate (l.map String.toList) := by
      rw [String.toList_intercalate]
      rfl
    rw [split, hlist, List.splitOn_intercalate '/' hslash hmap, List.map_map]
    exact (List.map_congr_left fun c _ => String.ofList_toList).trans (List.map_id' l)

/-- No slash stands at the front of joined names. -/
theorem not_startswith_intercalate {l : List String} (h : ∀ c ∈ l, IsName c) :
    ∀ cs, ("/".intercalate l).toList ≠ '/' :: cs := by
  intro cs hcs
  cases l with
  | nil => simp at hcs
  | cons c l =>
    obtain ⟨hempty, -, -, hslash⟩ := h c List.mem_cons_self
    have hfront : ∃ rest, ("/".intercalate (c :: l)).toList = c.toList ++ rest := by
      cases l with
      | nil => exact ⟨[], by simp⟩
      | cons d l => exact ⟨'/' :: ("/".intercalate (d :: l)).toList, by simp⟩
    obtain ⟨rest, hrest⟩ := hfront
    rw [hrest] at hcs
    cases hc : c.toList with
    | nil => exact hempty (String.toList_eq_nil_iff.mp hc)
    | cons x xs =>
      rw [hc, List.cons_append] at hcs
      rw [hc, (List.cons.inj hcs).1] at hslash
      exact hslash List.mem_cons_self

/-- A normalized absolute path has the components it was made of, and the slashes. -/
theorem of_slashes_names {slashes : String} {l : List String} (h : ∀ c ∈ l, IsName c)
    (hs : slashes = "/" ∨ slashes = "//") :
    comps (slashes ++ "/".intercalate l) = l ∧
    initialSlashes (slashes ++ "/".intercalate l) = slashes ∧
    (split (slashes ++ "/".intercalate l)).filter (· ≠ "") = l := by
  have hskip : ∀ acc : List String, pushComp true acc "" = acc := fun acc => by simp [pushComp]
  have hfold : (split ("/".intercalate l)).foldl (pushComp true) [] = l := by
    rw [split_intercalate h]
    split_ifs with hl
    · rw [hl]
      rfl
    · rw [foldl_pushComp h, List.nil_append]
  have hfilter : (split ("/".intercalate l)).filter (· ≠ "") = l := by
    rw [split_intercalate h]
    split_ifs with hl
    · rw [hl]
      rfl
    · rw [List.filter_eq_self]
      exact fun c hc => decide_eq_true (h c hc).1
  have hfront := not_startswith_intercalate h
  rcases hs with rfl | rfl
  · refine ⟨?_, ?_, ?_⟩
    · rw [comps, split_slash, List.foldl_cons, hskip, hfold]
    · unfold initialSlashes startswith
      cases hl : ("/".intercalate l).toList with
      | nil => simp [hl]
      | cons c cs =>
        have hc : c ≠ '/' := fun hc => hfront cs (hc ▸ hl)
        simp [hl, Ne.symm hc]
    · rw [split_slash, List.filter_cons_of_neg (by simp), hfilter]
  · have htwo : "//" ++ "/".intercalate l = "/" ++ ("/" ++ "/".intercalate l) := by
      rw [← String.append_assoc]
      rfl
    refine ⟨?_, ?_, ?_⟩
    · rw [htwo, comps, split_slash, split_slash, List.foldl_cons, List.foldl_cons, hskip, hskip,
        hfold]
    · unfold initialSlashes startswith
      cases hl : ("/".intercalate l).toList with
      | nil => simp [hl]
      | cons c cs =>
        have hc : c ≠ '/' := fun hc => hfront cs (hc ▸ hl)
        simp [hl, Ne.symm hc]
    · rw [htwo, split_slash, split_slash, List.filter_cons_of_neg (by simp),
        List.filter_cons_of_neg (by simp), hfilter]

theorem isabs_of_slashes {slashes q : String} (hs : slashes = "/" ∨ slashes = "//") :
    isabs (slashes ++ q) = true := by
  rcases hs with rfl | rfl
  · exact isabs_iff.mpr ⟨q.toList, by simp⟩
  · exact isabs_iff.mpr ⟨'/' :: q.toList, by simp⟩

theorem isabs_join {p q : String} (hp : isabs p = true) : isabs (join p q) = true := by
  obtain ⟨cs, hcs⟩ := isabs_iff.mp hp
  unfold join
  split_ifs with hq
  · exact hq
  · exact isabs_iff.mpr ⟨cs ++ q.toList, by simp [hcs]⟩
  · exact isabs_iff.mpr ⟨cs ++ '/' :: q.toList, by simp [hcs]⟩

variable {cwd : String}

theorem isabs_base (hcwd : isabs cwd = true) (p : String) :
    isabs (if isabs p then p else join cwd p) = true := by
  split_ifs with hp
  · exact hp
  · exact isabs_join hcwd

theorem isabs_abspath (hcwd : isabs cwd = true) (p : String) : isabs (abspath cwd p) = true := by
  have hbase := isabs_base hcwd p
  rw [abspath, normpath_of_isabs hbase]
  exact isabs_of_slashes (initialSlashes_of_isabs hbase)

/-- **An absolute path is its own.** -/
theorem abspath_abspath (hcwd : isabs cwd = true) (p : String) :
    abspath cwd (abspath cwd p) = abspath cwd p := by
  have hbase := isabs_base hcwd p
  obtain ⟨hcomps, hslashes, -⟩ := of_slashes_names
    (fun c hc => isName_of_mem_comps (p := if isabs p then p else join cwd p) hc)
    (initialSlashes_of_isabs hbase)
  have habs := isabs_abspath hcwd p
  rw [abspath, if_pos habs, normpath_of_isabs habs]
  rw [abspath, normpath_of_isabs hbase, hcomps, hslashes]

/-- **It does not matter whether the start is made absolute before.** -/
theorem relpath_abspath (hcwd : isabs cwd = true) (p start : String) :
    relpath cwd p (abspath cwd start) = relpath cwd p start := by
  rw [relpath, relpath, abspath_abspath hcwd]

/-! ### Patterns -/

/-- A part of a pattern. -/
inductive Token where
  | star
  | any
  | lit (c : Char)
  /-- Characters in, or out of, some ranges. -/
  | oneOf (neg : Bool) (ranges : List (Char × Char))
  deriving DecidableEq, Repr

/-- The ranges between two brackets. A hyphen at either end is itself. -/
def parseRanges : List Char → List (Char × Char)
  | lo :: '-' :: hi :: cs => (lo, hi) :: parseRanges cs
  | c :: cs => (c, c) :: parseRanges cs
  | [] => []

/-- What stands between an opening bracket and the closing one, and what follows it. A bracket right
behind the opening one, or behind its exclamation mark, does not close. -/
def closeBracket (cs : List Char) : Option (List Char × List Char) :=
  let front := match cs with
    | '!' :: ']' :: _ => 2
    | '!' :: _ => 1
    | ']' :: _ => 1
    | _ => 0
  let rest := cs.drop front
  if ']' ∈ rest then
    some (cs.take front ++ rest.takeWhile (· ≠ ']'), (rest.dropWhile (· ≠ ']')).tail)
  else none

/-- The parts of a pattern. The fuel is the length of the pattern. -/
def tokenize : ℕ → List Char → List Token
  | 0, _ => []
  | _, [] => []
  | n + 1, '*' :: cs => .star :: tokenize n cs
  | n + 1, '?' :: cs => .any :: tokenize n cs
  | n + 1, '[' :: cs =>
    match closeBracket cs with
    | some ('!' :: set, rest) => .oneOf true (parseRanges set) :: tokenize n rest
    | some (set, rest) => .oneOf false (parseRanges set) :: tokenize n rest
    | none => .lit '[' :: tokenize n cs
  | n + 1, c :: cs => .lit c :: tokenize n cs

/-- Does the pattern match the whole name? -/
def matchTokens : List Token → List Char → Bool
  | [], cs => cs.isEmpty
  | .star :: ts, cs => cs.tails.any (matchTokens ts)
  | .any :: ts, _ :: cs => matchTokens ts cs
  | .lit c :: ts, c' :: cs => c = c' && matchTokens ts cs
  | .oneOf neg ranges :: ts, c :: cs =>
    (ranges.any (fun r => r.1 ≤ c ∧ c ≤ r.2) != neg) && matchTokens ts cs
  | _ :: _, [] => false

/-- `fnmatch.fnmatch`. -/
def fnmatch (name pat : String) : Bool :=
  matchTokens (tokenize pat.toList.length pat.toList) name.toList

theorem matchTokens_star {ts : List Token} {cs : List Char} (h : matchTokens ts cs = true) :
    matchTokens (.star :: ts) cs = true := by
  rw [matchTokens, List.any_eq_true]
  exact ⟨cs, (List.mem_tails _ _).mpr (List.suffix_refl cs), h⟩

theorem matchTokens_single_star (cs : List Char) : matchTokens [.star] cs = true := by
  rw [matchTokens, List.any_eq_true]
  exact ⟨[], (List.mem_tails _ _).mpr List.nil_suffix, rfl⟩

/-- **The pattern of all files matches every path behind a slash.** -/
theorem fnmatch_rooted (rel : String) : fnmatch ("/" ++ rel) "**/*" = true := by
  have htokens : tokenize ("**/*" : String).toList.length ("**/*" : String).toList =
      [.star, .star, .lit '/', .star] := by decide +kernel
  have hname : ("/" ++ rel).toList = '/' :: rel.toList := by simp
  rw [fnmatch, htokens, hname]
  refine matchTokens_star (matchTokens_star ?_)
  simpa only [matchTokens, decide_true, Bool.true_and] using matchTokens_single_star rel.toList

/-- A front without a bracket matches itself. -/
theorem matchTokens_front {front : List Char} (hfront : '[' ∉ front) {n : ℕ} {pat cs : List Char}
    (h : matchTokens (tokenize n pat) cs = true) :
    matchTokens (tokenize (front.length + n) (front ++ pat)) (front ++ cs) = true := by
  induction front with
  | nil =>
    rw [List.length_nil, Nat.zero_add]
    exact h
  | cons c front ih =>
    obtain ⟨hc, hrest⟩ := not_or.mp (List.mem_cons.not.mp hfront)
    have hlen : (c :: front).length + n = (front.length + n) + 1 := by
      rw [List.length_cons]
      omega
    rw [hlen, List.cons_append, List.cons_append]
    by_cases hstar : c = '*'
    · subst hstar
      rw [tokenize, matchTokens, List.any_eq_true]
      exact ⟨front ++ cs, (List.mem_tails _ _).mpr (List.suffix_cons ..), ih hrest⟩
    · by_cases hany : c = '?'
      · subst hany
        rw [tokenize, matchTokens]
        exact ih hrest
      · rw [tokenize.eq_6 _ _ _ hstar hany (Ne.symm hc), matchTokens, ih hrest]
        simp

/-- **A name without a bracket matches itself as a pattern.** -/
theorem fnmatch_self_star {name : String} (h : '[' ∉ name.toList) (x : String) :
    fnmatch (name ++ x) (name ++ "*") = true := by
  have hlen : (name ++ "*").toList.length = name.toList.length + 1 := by simp
  rw [fnmatch, hlen, String.toList_append, String.toList_append]
  exact matchTokens_front h (matchTokens_single_star _)

example : fnmatch "src/a.py" "*.[!ch]y" = true := by decide +kernel

example : relpath "/" "/repo/src/../a.py" "/repo/" = "a.py" := by decide +kernel

end Posix

end DeltaBox
