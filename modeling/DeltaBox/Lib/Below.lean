import DeltaBox.Lib.Posix

/-!
# Paths below a root

An absolute path is its slashes and its components, and what is joined to a root adds components. So
the files below a root can be named by lists of names, and the relative path of a file finds the file
again.

## Main results

* `Posix.abspath_join` — a relative path behind a root, made absolute
* `Posix.exists_names_of_below` — a path that starts like the root has names behind it
* `Posix.relpath_place` — the relative path of a file is its names
-/

namespace DeltaBox

namespace Posix

variable {cwd p q root : String} {names : List String}

/-- What stands for a path while it is made absolute. -/
def base (cwd p : String) : String := if isabs p then p else join cwd p

theorem isabs_base' (hcwd : isabs cwd = true) (p : String) : isabs (base cwd p) = true :=
  isabs_base hcwd p

theorem abspath_eq (hcwd : isabs cwd = true) (p : String) :
    abspath cwd p = initialSlashes (base cwd p) ++ "/".intercalate (comps (base cwd p)) :=
  normpath_of_isabs (isabs_base hcwd p)

/-! ### Joining -/

theorem split_append_slash (p q : String) : split (p ++ "/" ++ q) = split p ++ split q := by
  have hlist : (p ++ "/" ++ q).toList = p.toList ++ '/' :: q.toList := by simp
  rw [split, hlist, List.splitOn_append_cons_self, List.map_append]
  rfl

theorem endswith_slash (h : endswith p "/" = true) : ∃ p', p = p' ++ "/" := by
  have hsuffix : ['/'] <:+ p.toList := List.isSuffixOf_iff_suffix.mp h
  obtain ⟨front, hfront⟩ := hsuffix
  refine ⟨String.ofList front, String.ext ?_⟩
  simp [← hfront]

/-- What a relative path adds to the components. -/
def push (comps : List String) (q : String) : List String := (split q).foldl (pushComp true) comps

theorem pushComp_empty (acc : List String) : pushComp true acc "" = acc := by simp [pushComp]

theorem push_append_slash (acc : List String) (p q : String) :
    push acc (p ++ "/" ++ q) = push (push acc p) q := by
  rw [push, split_append_slash, List.foldl_append]
  rfl

theorem push_empty (acc : List String) : push acc "" = acc := pushComp_empty acc

/-- Joining pushes the one path and then the other. -/
theorem push_join (acc : List String) (hq : isabs q = false) :
    push acc (join p q) = push (push acc p) q := by
  rw [join, if_neg (by simp [hq])]
  split_ifs with hp
  · rcases hp with rfl | hp
    · rw [push_empty, String.empty_append]
    · obtain ⟨p', rfl⟩ := endswith_slash hp
      have hlast : push acc (p' ++ "/") = push acc p' := by
        have happ := push_append_slash acc p' ""
        rwa [push_empty, String.append_empty] at happ
      rw [push_append_slash, hlast]
  · rw [push_append_slash]

theorem comps_eq_push (p : String) : comps p = push [] p := rfl

/-- The first three characters decide which slashes are kept. -/
theorem initialSlashes_eq (p : String) : initialSlashes p =
    match p.toList with
    | '/' :: '/' :: '/' :: _ => "/"
    | '/' :: '/' :: _ => "//"
    | '/' :: _ => "/"
    | _ => "" := by
  rw [initialSlashes, startswith, startswith, startswith]
  rcases p.toList with _ | ⟨c, _ | ⟨d, _ | ⟨e, cs⟩⟩⟩
  · rfl
  · by_cases hc : c = '/'
    · simp [hc]
    · simp [hc, Ne.symm hc]
  · by_cases hc : c = '/'
    · by_cases hd : d = '/'
      · simp [hc, hd]
      · simp [hc, hd, Ne.symm hd]
    · simp [hc, Ne.symm hc]
  · by_cases hc : c = '/'
    · by_cases hd : d = '/'
      · by_cases he : e = '/'
        · simp [hc, hd, he]
        · simp [hc, hd, he, Ne.symm he]
      · simp [hc, hd, Ne.symm hd]
    · simp [hc, Ne.symm hc]

/-- The slashes in front stay. -/
theorem initialSlashes_join (hp : isabs p = true) (hq : isabs q = false) :
    initialSlashes (join p q) = initialSlashes p := by
  obtain ⟨cs, hcs⟩ := isabs_iff.mp hp
  have hfirst : ∀ ds, q.toList ≠ '/' :: ds := by
    intro ds hds
    have habs := isabs_iff.mpr ⟨ds, hds⟩
    rw [hq] at habs
    cases habs
  -- a path that ends in a slash gets none in between
  have hends : ∀ front, p.toList = front ++ ['/'] → join p q = p ++ q := fun front hfront => by
    have hend : endswith p "/" = true := List.isSuffixOf_iff_suffix.mpr ⟨front, by simp [hfront]⟩
    rw [join, if_neg (by simp [hq]), if_pos (.inr hend)]
  have hjoin : ∃ r : String, join p q = p ++ r := by
    rw [join, if_neg (by simp [hq])]
    split_ifs
    · exact ⟨q, rfl⟩
    · exact ⟨"/" ++ q, String.append_assoc ..⟩
  obtain ⟨r, hr⟩ := hjoin
  rcases cs with _ | ⟨c, _ | ⟨d, ds⟩⟩
  · rw [hends [] hcs, initialSlashes_eq, initialSlashes_eq, String.toList_append, hcs]
    rcases hq' : q.toList with _ | ⟨x, xs⟩
    · rfl
    · have hx : x ≠ '/' := fun hx => hfirst xs (hx ▸ hq')
      simp [hx]
  · by_cases hc : c = '/'
    · rw [hends ['/'] (by rw [hcs, hc]; rfl), initialSlashes_eq, initialSlashes_eq,
        String.toList_append, hcs, hc]
      rcases hq' : q.toList with _ | ⟨x, xs⟩
      · rfl
      · have hx : x ≠ '/' := fun hx => hfirst xs (hx ▸ hq')
        simp [hx]
    · rw [hr, initialSlashes_eq, initialSlashes_eq, String.toList_append, hcs]
      simp [hc]
  · rw [hr, initialSlashes_eq, initialSlashes_eq, String.toList_append, hcs]
    by_cases hc : c = '/'
    · by_cases hd : d = '/'
      · simp [hc, hd]
      · simp [hc, hd]
    · simp [hc]

theorem isabs_join_of_not (hp : isabs p = false) (hq : isabs q = false) :
    isabs (join p q) = false := by
  rw [join, if_neg (by simp [hq])]
  rcases hlist : p.toList with _ | ⟨c, cs⟩
  · obtain rfl : p = "" := String.toList_eq_nil_iff.mp hlist
    rw [if_pos (.inl rfl), String.empty_append]
    exact hq
  · have hc : c ≠ '/' := by
      rintro rfl
      rw [isabs_iff.mpr ⟨cs, hlist⟩] at hp
      cases hp
    split_ifs
    · simp [isabs, hlist, hc]
    · simp [isabs, hlist, hc]

/-- A relative path behind a root, before it is normalized. -/
theorem base_join (hcwd : isabs cwd = true) (hq : isabs q = false) :
    comps (base cwd (join root q)) = push (comps (base cwd root)) q ∧
    initialSlashes (base cwd (join root q)) = initialSlashes (base cwd root) := by
  by_cases hroot : isabs root = true
  · rw [base, if_pos (isabs_join hroot), base, if_pos hroot, comps_eq_push, push_join _ hq]
    exact ⟨rfl, initialSlashes_join hroot hq⟩
  · have hroot' : isabs root = false := by simpa using hroot
    have hjoin := isabs_join_of_not hroot' hq
    rw [base, if_neg (by simp [hjoin]), base, if_neg hroot, comps_eq_push, comps_eq_push,
      push_join _ hjoin, push_join _ hroot', push_join _ hq, initialSlashes_join hcwd hjoin,
      initialSlashes_join hcwd hroot']
    exact ⟨rfl, rfl⟩

/-- **A relative path behind a root.** -/
theorem abspath_join (hcwd : isabs cwd = true) (hq : isabs q = false) :
    abspath cwd (join root q) = initialSlashes (base cwd root) ++
      "/".intercalate (push (comps (base cwd root)) q) := by
  rw [abspath_eq hcwd, (base_join hcwd hq).1, (base_join hcwd hq).2]

/-! ### Names -/

/-- Names, none of them special. -/
def Names (names : List String) : Prop := ∀ c ∈ names, IsName c

instance (names : List String) : Decidable (Names names) :=
  inferInstanceAs (Decidable (∀ c ∈ names, c ≠ "" ∧ c ≠ "." ∧ c ≠ ".." ∧ '/' ∉ c.toList))

/-- The path of some names below a root. -/
def place (cwd root : String) (names : List String) : String :=
  initialSlashes (base cwd root) ++ "/".intercalate (comps (base cwd root) ++ names)

theorem names_comps (p : String) : Names (comps p) := fun _ hc => isName_of_mem_comps hc

theorem Names.append {l : List String} (h : Names names) (h' : Names l) : Names (names ++ l) :=
  fun c hc => (List.mem_append.mp hc).elim (h c) (h' c)

theorem push_intercalate {acc : List String} (h : Names names) :
    push acc ("/".intercalate names) = acc ++ names := by
  rw [push, split_intercalate h]
  split_ifs with hnil
  · rw [hnil, List.append_nil]
    exact pushComp_empty acc
  · exact foldl_pushComp h

theorem isabs_intercalate (h : Names names) : isabs ("/".intercalate names) = false := by
  by_contra habs
  obtain ⟨cs, hcs⟩ := isabs_iff.mp (by simpa using habs)
  exact not_startswith_intercalate h cs hcs

theorem abspath_root (hcwd : isabs cwd = true) (root : String) :
    abspath cwd root = place cwd root [] := by
  rw [abspath_eq hcwd, place, List.append_nil]

/-- Names joined to a root one by one. -/
theorem abspath_foldl_join (hcwd : isabs cwd = true) (h : Names names) :
    abspath cwd (names.foldl join root) = place cwd root names := by
  suffices hbase : comps (base cwd (names.foldl join root)) = comps (base cwd root) ++ names ∧
      initialSlashes (base cwd (names.foldl join root)) = initialSlashes (base cwd root) by
    rw [abspath_eq hcwd, hbase.1, hbase.2, place]
  induction names generalizing root with
  | nil => simp
  | cons c names ih =>
    have hc : Names [c] := fun x hx => List.mem_singleton.mp hx ▸ h c List.mem_cons_self
    have hrel : isabs c = false := by simpa using isabs_intercalate hc
    obtain ⟨hcomps, hslashes⟩ := @ih (join root c) fun x hx => h x (List.mem_cons_of_mem _ hx)
    have hpush : push (comps (base cwd root)) c = comps (base cwd root) ++ [c] := by
      simpa using @push_intercalate _ (comps (base cwd root)) hc
    rw [List.foldl_cons, hcomps, hslashes, (base_join hcwd hrel).1, (base_join hcwd hrel).2, hpush,
      List.append_assoc]
    exact ⟨rfl, rfl⟩

/-- Names joined to a root all at once. -/
theorem abspath_join_intercalate (hcwd : isabs cwd = true) (h : Names names) :
    abspath cwd (join root ("/".intercalate names)) = place cwd root names := by
  rw [abspath_join hcwd (isabs_intercalate h), push_intercalate h, place]

theorem comps_place (hcwd : isabs cwd = true) (h : Names names) :
    (split (place cwd root names)).filter (· ≠ "") = comps (base cwd root) ++ names :=
  (of_slashes_names ((names_comps _).append h)
    (initialSlashes_of_isabs (isabs_base hcwd root))).2.2

/-- Different names are at different places. -/
theorem place_inj (hcwd : isabs cwd = true) {l : List String} (h : Names names) (h' : Names l)
    (heq : place cwd root names = place cwd root l) : names = l := by
  have hcomps := @comps_place _ root _ hcwd h
  rw [heq, comps_place hcwd h'] at hcomps
  exact (List.append_cancel_left hcomps).symm

theorem abspath_place (hcwd : isabs cwd = true) (h : Names names) :
    abspath cwd (place cwd root names) = place cwd root names := by
  rw [← abspath_join_intercalate hcwd h, abspath_abspath hcwd]

theorem commonLength_append (l l' : List String) : commonLength l (l ++ l') = l.length := by
  induction l with
  | nil => cases l' <;> rfl
  | cons a l ih => rw [List.cons_append, commonLength, if_pos rfl, ih, List.length_cons]

/-- **The relative path of a file is its names.** -/
theorem relpath_place (hcwd : isabs cwd = true) (h : Names names) {p : String}
    (hp : abspath cwd p = place cwd root names) :
    relpath cwd p root = if names = [] then "." else "/".intercalate names := by
  have hroot := @comps_place _ root [] hcwd fun c hc => (List.not_mem_nil hc).elim
  rw [List.append_nil] at hroot
  have hrel : List.replicate ((comps (base cwd root)).length - (comps (base cwd root)).length) ".." ++
      (comps (base cwd root) ++ names).drop (comps (base cwd root)).length = names := by
    simp
  rw [relpath, hp, abspath_root hcwd, comps_place hcwd h, hroot, commonLength_append, hrel]

/-- **A path that starts like the root has names behind it.** -/
theorem exists_names_of_below (hcwd : isabs cwd = true) {full : String}
    (hq : isabs q = false) (hfull : full = abspath cwd (join root q))
    (hbelow : full = abspath cwd root ∨ startswith full (abspath cwd root ++ "/") = true) :
    ∃ names, Names names ∧ full = place cwd root names := by
  rcases hbelow with heq | hstart
  · exact ⟨[], fun c hc => (List.not_mem_nil hc).elim, heq.trans (abspath_root hcwd root)⟩
  · have hprefix : (abspath cwd root ++ "/").toList <+: full.toList :=
      List.isPrefixOf_iff_prefix.mp hstart
    obtain ⟨rest, hrest⟩ := hprefix
    have happ : full = abspath cwd root ++ "/" ++ String.ofList rest := by
      refine String.ext ?_
      rw [← hrest]
      simp
    -- the components of the root, and the ones behind
    have hnames : Names (push (comps (base cwd root)) q) := by
      rw [← (@base_join _ _ root hcwd hq).1]
      exact names_comps _
    have hslashes : initialSlashes (base cwd root) = "/" ∨ initialSlashes (base cwd root) = "//" :=
      initialSlashes_of_isabs (isabs_base hcwd root)
    have hsplit := congrArg (fun s => (split s).filter (· ≠ "")) happ
    simp only [split_append_slash, List.filter_append] at hsplit
    rw [hfull, abspath_join hcwd hq, (of_slashes_names hnames hslashes).2.2, abspath_eq hcwd,
      (of_slashes_names (names_comps _) hslashes).2.2] at hsplit
    refine ⟨(split (String.ofList rest)).filter (· ≠ ""), fun c hc => ?_, ?_⟩
    · exact hnames c (by rw [hsplit]; exact List.mem_append_right _ hc)
    · rw [hfull, abspath_join hcwd hq, hsplit, place]

end Posix

end DeltaBox
