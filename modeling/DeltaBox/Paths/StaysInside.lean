import DeltaBox.Index.StaysFresh
import DeltaBox.Paths.Resolvers

/-!
# Paths that stay inside

A path argument should not lead outside the root of the repository, whatever links are in the tree.

## The distinction that decides it

A resolver that opens what it has checked, with the links resolved, is safe. The shell server checks the
place that its path leads to, and opens the same path. The worker's actions open the place itself; only
where a link leads back to itself is there no place, and then they open what is left of the path. The
replay agent and the sidecar check the text of the path and follow the links afterwards: a link that
leads outside takes them there.

## Main definitions

* `Root` — the root of the repository
* `AllInside` — what should hold of the resolvers

## Main results

* `allInside_iff` — the resolvers stay inside just when no link below the root leads outside
* `link_followed` — a link that the replay agent follows
-/

namespace DeltaBox

namespace Paths

open Posix Links

/-- The root of a repository, as it is found without links. -/
structure Root (fs : Fs) where
  loc : List String
  isDir : fs.node loc = some .dir

namespace Root

variable {fs : Fs} (r : Root fs)

/-- The path of the root. -/
def path : String := render r.loc

theorem names : Names r.loc := fs.names _ (by rw [← Fs.node, r.isDir]; simp)

end Root

/-- What every resolver accepts opens inside the root. -/
structure AllInside (fs : Fs) (r : Root fs) : Prop where
  worker : ∀ {h : Index.Host} {dir path full write loc}, Index.absPath h r.path path = some full →
    Opens fs dir write full loc → r.loc <+: loc
  workerRel : ∀ {h : Index.Host} {t files dir path full rel write loc},
    Index.resolve h t files path r.path = some (full, rel) → Opens fs dir write full loc → r.loc <+: loc
  safe : ∀ {raises dir path full write loc}, safePath fs raises dir r.path path = some full →
    Opens fs dir write full loc → r.loc <+: loc
  shell : ∀ {s : ShellServer} {path full write loc}, s.repoRoot = r.path →
    s.file fs path = some full → Opens fs s.dir write full loc → r.loc <+: loc

variable {fs : Fs} {r : Root fs} {dir loc : List String} {write : Bool} {path full : String}

/-! ### Places -/

theorem isabs_render (l : List String) : isabs (render l) = true := isabs_of_slashes (.inl rfl)

theorem comps_render {l : List String} (h : Names l) : comps (render l) = l :=
  (of_slashes_names h (.inl rfl)).1

theorem initialSlashes_render {l : List String} (h : Names l) : initialSlashes (render l) = "/" :=
  (of_slashes_names h (.inl rfl)).2.1

theorem place_root (cwd : String) (l : List String) : place cwd r.path l = render (r.loc ++ l) := by
  rw [place, base, Root.path, if_pos (isabs_render _), comps_render r.names,
    initialSlashes_render r.names, render]

/-- What the path of a place opens. -/
theorem opens_render {l : List String} (hl : Names l) (h : Opens fs dir write (render l) loc) :
    ∃ b n, Walks fs write ⟨[], false⟩ (l.map (true, ·)) b n ∧ n ≤ maxLinks ∧ b.loc = loc ∧
      (write = false → fs.node loc ≠ none) := by
  obtain ⟨b, n, hwalk, hn, hloc, hexists⟩ := h
  rw [start, if_pos (isabs_render l), walks_render_iff hl] at hwalk
  exact ⟨b, n, hwalk, hn, hloc, hexists⟩

/-- There are no links on the way to the root. -/
theorem Root.noLinks (r : Root fs) : NoLinks fs r.loc := by
  intro q hq target hlink
  obtain ⟨rest, hrest⟩ := hq
  have hdir := r.isDir
  cases rest with
  | nil =>
    rw [List.append_nil] at hrest
    rw [← hrest, hlink] at hdir
    cases hdir
  | cons c rest =>
    -- a directory is above every other part
    have hall : ∀ (l : List String) (c : String), fs.node (q ++ l ++ [c]) ≠ none →
        fs.node q = some .dir := by
      intro l
      induction l using List.reverseRecOn with
      | nil =>
        intro c hc
        rw [List.append_nil] at hc
        exact fs.parent q c hc
      | append_singleton l d ih =>
        intro c hc
        have hparent := fs.parent _ c hc
        refine ih d ?_
        rw [List.append_assoc, Fs.node, hparent]
        simp
    obtain ⟨front, d, hfront⟩ := List.eq_nil_or_concat (c :: rest) |>.resolve_left (by simp)
    rw [hfront, List.concat_eq_append, ← List.append_assoc] at hrest
    have := hall front d (by rw [hrest, hdir]; simp)
    rw [hlink] at this
    cases this

/-- **A place below the root that opens outside shows a link that leads outside.** -/
theorem leak_of_opens {l : List String} (hl : Names l)
    (h : Opens fs dir write (render (r.loc ++ l)) loc) (hout : ¬ r.loc <+: loc) :
    Leak fs r.loc maxLinks := by
  obtain ⟨b, n, hwalk, hn, rfl, -⟩ := opens_render (r.names.append hl) h
  rw [List.map_append] at hwalk
  obtain ⟨mid, k, m, hk, hm, rfl⟩ := Walks.append_iff.mp hwalk
  have hmid : mid.loc = r.loc := by
    have := hk.of_noLinks r.names (by simpa using r.noLinks)
    simpa using this
  obtain ⟨p, target, b', k', hp, hne, hlink, hwalk', hle, hout'⟩ :=
    exists_leak hl (hmid ▸ List.prefix_refl _) hm hout
  exact ⟨p, target, b', k', hp, hne, hlink, hwalk', by omega, hout'⟩

/-! ### The resolvers that go by the text -/

theorem leak_of_worker {h : Index.Host} (ha : Index.absPath h r.path path = some full)
    (hopens : Opens fs dir write full loc) (hout : ¬ r.loc <+: loc) : Leak fs r.loc maxLinks := by
  obtain ⟨l, hl, rfl⟩ := Index.absPath_names ha
  rw [place_root] at hopens
  exact leak_of_opens hl hopens hout

/-- What is resolved against the index has been made absolute below the root. -/
theorem absPath_of_resolve {h : Index.Host} {t : Index.Tree} {files : Dict String Index.Entry}
    {rel root : String} (hresolve : Index.resolve h t files path root = some (full, rel)) :
    ∃ p, Index.absPath h root p = some full := by
  unfold Index.resolve at hresolve
  cases ha : Index.absPath h root path with
  | none => simp [ha] at hresolve
  | some full' =>
    simp only [ha] at hresolve
    split_ifs at hresolve with hknown
    · obtain ⟨rfl, -⟩ := Prod.mk.inj (Option.some.inj hresolve)
      exact ⟨path, ha⟩
    · split at hresolve
      · obtain ⟨rfl, -⟩ := Prod.mk.inj (Option.some.inj hresolve)
        exact ⟨path, ha⟩
      · rename_i x _
        obtain ⟨full₁, hfull, heq⟩ := Option.map_eq_some_iff.mp hresolve
        obtain ⟨rfl, -⟩ := Prod.mk.inj heq
        exact ⟨x, hfull⟩
      · cases hresolve

/-- A link below the root is opened by its own path. -/
theorem opens_of_leak (h : Index.Host) (hleak : Leak fs r.loc maxLinks) :
    ∃ path full loc, Index.absPath h r.path path = some full ∧ Opens fs [] true full loc ∧
      ¬ r.loc <+: loc := by
  obtain ⟨p, target, b, k, ⟨l, rfl⟩, hne, hlink, hwalk, hle, hout⟩ := hleak
  have hnil : l ≠ [] := by
    rintro rfl
    exact hne (List.append_nil _)
  have hl : Names l := fun c hc =>
    fs.names _ (by rw [← Fs.node, hlink]; simp) c (List.mem_append_right _ hc)
  -- below the top nothing is outside
  have hroot : r.loc ≠ [] := fun heq => hout (heq ▸ List.nil_prefix)
  refine ⟨"/".intercalate l, render (r.loc ++ l), b.loc, ?_, ?_, hout⟩
  · have hrel : isabs ("/".intercalate l) = false := isabs_intercalate hl
    have hfull : abspath h.cwd (join r.path ("/".intercalate l)) = render (r.loc ++ l) := by
      rw [abspath_join_intercalate h.cwd_abs hl, place_root]
    have hrootAbs : abspath h.cwd r.path = render r.loc := by
      rw [abspath_root h.cwd_abs, place_root, List.append_nil]
    unfold Index.absPath
    simp only [hrel, Bool.false_eq_true, if_false, hfull, hrootAbs]
    refine if_neg fun hbad => ?_
    have hstart : startswith (render (r.loc ++ l)) (render r.loc ++ "/") = true :=
      (startswith_render_iff r.names (r.names.append hl) hroot).mpr ⟨l, hnil, rfl⟩
    rw [hstart] at hbad
    simp at hbad
  · have hdown := @walks_link fs true b k r.loc true l target hl hnil hlink hwalk.of_linkComps
    have hup := @walks_dir fs true [] true r.loc r.names (by simpa using r.isDir)
    have hall : Walks fs true ⟨[], false⟩ ((r.loc ++ l).map (true, ·)) b (k + 1) := by
      rw [List.map_append]
      exact Walks.append_iff.mpr ⟨_, 0, k + 1, hup, hdown, (Nat.zero_add _).symm⟩
    refine ⟨b, k + 1, ?_, hle, rfl, fun hfalse => by cases hfalse⟩
    rw [start, if_pos (isabs_render _), walks_render_iff (r.names.append hl)]
    exact hall

/-! ### The resolvers that go by the links -/

theorem stacked_nil (fs : Fs) (making : Bool) (n : ℕ) :
    Stacked fs making fs.nodes.entries.length n [] :=
  ⟨by simp, List.nodup_nil, by simp, by simp⟩

theorem parts_path (r : Root fs) : parts r.path = r.loc := by
  have hnames : r.loc.filter (fun c => ¬ IsDot c) = r.loc := by
    rw [List.filter_eq_self]
    exact fun c hc => decide_eq_true (names_of_isPlain (r.names c hc)).not_isDot
  rw [parts, Root.path, split_render _ r.names, List.filter_cons_of_neg (by simp [IsDot])]
  split_ifs with hnil
  · rw [hnil]
    decide
  · exact hnames

theorem resolvePath_root (r : Root fs) (raises : Bool) (dir : List String) :
    resolvePath fs raises dir (isabs r.path) (parts r.path) = some r.path := by
  have hdown := @walks_dir fs true [] true r.loc r.names (by simpa using r.isDir)
  have hreal := real_of_walks hdown (stacked_nil fs true 0)
  rw [List.map_map, List.nil_append] at hreal
  have hid : r.loc.map (Prod.snd ∘ (true, ·)) = r.loc := List.map_id _
  rw [hid] at hreal
  rw [resolvePath, parts_path, Root.path, if_pos (isabs_render _), hreal]

/-- The path that `_safe_path` accepts is the root, or below it. -/
theorem below_of_safe {slashes : String} {l : List String} (hl : Names l)
    (hslashes : slashes = "/" ∨ slashes = "//")
    (h : ¬ (slashes ++ "/".intercalate l ≠ r.path ∧ ¬ isParent r.path (slashes ++ "/".intercalate l))) :
    slashes = "/" ∧ r.loc <+: l := by
  obtain ⟨hcomps, hinit, -⟩ := of_slashes_names hl hslashes
  have hroot : initialSlashes r.path = "/" := initialSlashes_render r.names
  have hrootComps : comps r.path = r.loc := comps_render r.names
  by_cases heq : slashes ++ "/".intercalate l = r.path
  · rw [heq] at hinit hcomps
    exact ⟨hinit.symm.trans hroot, by rw [← hcomps, hrootComps]⟩
  · have hparent : isParent r.path (slashes ++ "/".intercalate l) := by
      by_contra hno
      exact h ⟨heq, hno⟩
    obtain ⟨hsame, hprefix, -⟩ := hparent
    rw [hinit, hroot] at hsame
    rw [hcomps, hrootComps] at hprefix
    exact ⟨hsame.symm, hprefix⟩

/-- A path that `_safe_path` accepts opens inside the root, or has not been resolved and shows a link
that leads outside. -/
theorem safe_spec {raises : Bool} {dir' : List String}
    (ha : safePath fs raises dir r.path path = some full) (hopens : Opens fs dir' write full loc) :
    r.loc <+: loc ∨ Leak fs r.loc maxLinks ∧ ∃ q, real fs fs.nodes.entries.length []
      [] (r.loc ++ parts (lstrip (removePrefix (removePrefix path "/repo/") "repo/"))) = .error q := by
  obtain ⟨full', hfull, ha⟩ := Option.bind_eq_some_iff.mp ha
  rw [resolvePath_root, Option.bind_eq_bind, Option.bind_some] at ha
  obtain ⟨haccept, heq⟩ := Option.ite_none_left_eq_some.mp ha
  obtain rfl := Option.some.inj heq
  have habs : isabs r.path = true := isabs_render _
  rw [resolvePath, parts_path, if_pos habs] at hfull
  generalize hps : parts (lstrip (removePrefix (removePrefix path "/repo/") "repo/")) = ps at hfull ⊢
  cases hreal : real fs fs.nodes.entries.length [] [] (r.loc ++ ps) with
  | ok loc' =>
    -- the place that is opened is the place that has been checked
    left
    rw [hreal] at hfull
    obtain rfl := Option.some.inj hfull
    have hslash : ∀ c ∈ r.loc ++ ps, '/' ∉ c.toList := by
      intro c hc
      rcases List.mem_append.mp hc with hc | hc
      · exact (r.names c hc).2.2.2
      · rw [← hps] at hc
        exact not_mem_split (List.mem_filter.mp hc).1
    have hnames := names_of_real (by simp [Names]) hslash hreal
    have hlinks := noLinks_of_real noLinks_nil hreal
    obtain ⟨b, n, hwalk, -, rfl, -⟩ := opens_render hnames hopens
    rw [hwalk.of_noLinks hnames (by simpa using hlinks), List.nil_append]
    exact (@below_of_safe _ r "/" loc' hnames (.inl rfl) haccept).2
  | error q =>
    rw [hreal] at hfull
    obtain ⟨-, heq⟩ := Option.ite_none_left_eq_some.mp hfull
    obtain rfl := Option.some.inj heq
    have hcwd : isabs (render dir) = true := isabs_render dir
    rw [abspath_eq hcwd] at haccept hopens
    have hslashes : initialSlashes (base (render dir) q) = "/" ∨
        initialSlashes (base (render dir) q) = "//" := initialSlashes_of_isabs (isabs_base hcwd q)
    obtain ⟨hone, l, hl⟩ := below_of_safe (names_comps _) hslashes haccept
    have hlnames : Names l := fun c hc =>
      names_comps (base (render dir) q) c (hl ▸ List.mem_append_right _ hc)
    rw [hone, ← hl] at hopens
    by_cases hin : r.loc <+: loc
    · exact .inl hin
    · exact .inr ⟨leak_of_opens hlnames hopens hin, q, rfl⟩

/-- **The shell server stays inside.** -/
theorem shell_inside {s : ShellServer} (hroot : s.repoRoot = r.path)
    (ha : s.file fs path = some full) (hopens : Opens fs s.dir write full loc) : r.loc <+: loc := by
  obtain ⟨hinside, heq⟩ := Option.ite_none_right_eq_some.mp ha
  rw [Option.some.inj heq] at hinside
  obtain ⟨b, n, hwalk, -, rfl, -⟩ := hopens
  have hreal := real_of_walks hwalk (stacked_nil fs write n)
  rw [map_snd_ownComps] at hreal
  have hrealpath : realpath fs s.dir full = render b.loc := by
    rw [realpath]
    simp only at hreal
    rw [hreal]
  have hnames : Names b.loc := by
    obtain ⟨c, cs, hsplit⟩ := List.exists_cons_of_ne_nil (l := split full) (by simp [split])
    have henters : fs.node (start s.dir full) = some .dir := by
      have hwalk' := hwalk
      rw [ownComps, hsplit, List.map_cons] at hwalk'
      exact hwalk'.enters.resolve_right (by simp)
    refine hwalk.names (fs.names _ (by rw [← Fs.node, henters]; simp)) fun comp hcomp => ?_
    obtain ⟨c, hc, rfl⟩ := List.mem_map.mp hcomp
    exact not_mem_split hc
  unfold ShellServer.insideRepo at hinside
  rw [hrealpath, hroot, Root.path, Bool.or_eq_true, decide_eq_true_eq] at hinside
  by_cases hnil : r.loc = []
  · exact hnil ▸ List.nil_prefix
  rcases hinside with hsame | hbelow
  · have hcomps := congrArg comps hsame
    rw [comps_render hnames, comps_render r.names] at hcomps
    exact hcomps ▸ List.prefix_refl _
  · obtain ⟨rest, -, heq⟩ := (startswith_render_iff r.names hnames hnil).mp hbelow
    exact heq ▸ List.prefix_append _ _

/-! ### The result -/

/-- **The resolvers stay inside just when no link below the root leads outside.** The shell server always
does, and the worker's actions do where no link leads back to itself. -/
theorem allInside_iff (fs : Fs) (r : Root fs) :
    (AllInside fs r ↔ ¬ Leak fs r.loc maxLinks) ∧
    (∀ (s : ShellServer) path full write loc, s.repoRoot = r.path → s.file fs path = some full →
      Opens fs s.dir write full loc → r.loc <+: loc) ∧
    ∀ raises dir dir' path full write loc, safePath fs raises dir r.path path = some full →
      (∃ loc', real fs fs.nodes.entries.length [] []
        (r.loc ++ parts (lstrip (removePrefix (removePrefix path "/repo/") "repo/"))) = .ok loc') →
      Opens fs dir' write full loc → r.loc <+: loc := by
  refine ⟨⟨fun hall hleak => ?_, fun hno => ?_⟩, fun s path full write loc => shell_inside, ?_⟩
  · have h : Index.Host := ⟨"/", rfl, "/", 0, 0, fun _ => .raises, fun _ => none, id⟩
    obtain ⟨path, full, loc, ha, hopens, hout⟩ := opens_of_leak h hleak
    exact hout (hall.worker ha hopens)
  · refine ⟨fun ha hopens => ?_, fun hresolve hopens => ?_, fun ha hopens => ?_, shell_inside⟩
    · by_contra hout
      exact hno (leak_of_worker ha hopens hout)
    · obtain ⟨p, ha⟩ := absPath_of_resolve hresolve
      by_contra hout
      exact hno (leak_of_worker ha hopens hout)
    · exact (safe_spec ha hopens).resolve_right fun h => hno h.1
  · rintro raises dir dir' path full write loc ha ⟨loc', hreal⟩ hopens
    refine (safe_spec ha hopens).resolve_right ?_
    rintro ⟨-, q, herror⟩
    rw [hreal] at herror
    cases herror

/-- A repository with a link to a directory beside it. -/
def linked : Fs :=
  .ofNodes ⟨[([], .dir), (["repo"], .dir), (["repo", "out"], .link "/etc"), (["etc"], .dir),
    (["etc", "passwd"], .file)], by decide⟩ rfl (by decide) (by decide +kernel)

/-- The replay agent is given a path through the link, and opens the file behind it. -/
theorem link_followed : ∃ (r : Root linked) (h : Index.Host),
    Index.absPath h r.path "out/passwd" = some "/repo/out/passwd" ∧
      Opens linked [] false "/repo/out/passwd" ["etc", "passwd"] ∧ ¬ r.loc <+: ["etc", "passwd"] := by
  refine ⟨⟨["repo"], rfl⟩, ⟨"/", rfl, "/", 0, 0, fun _ => .raises, fun _ => none, id⟩, ?_, ?_, by decide⟩
  · unfold Index.absPath
    decide +kernel
  · refine ⟨⟨["etc", "passwd"], false⟩, 1, ?_, by decide, rfl, fun _ => by decide⟩
    have hplain : ∀ c ∈ ["repo", "out", "etc", "passwd"], IsPlain c := by
      unfold IsPlain
      decide
    have hnode : ∀ p ∈ [["repo"], ["etc"], ["etc", "passwd"]], ∀ target,
        linked.node p ≠ some (.link target) := by
      intro p hp target
      fin_cases hp <;> exact fun h => nomatch h
    have hdir : ∀ p ∈ [[], ["repo"], ["etc"]], linked.node p = some .dir := by decide
    have hcomps : ownComps "/repo/out/passwd" =
        [(true, ""), (true, "repo"), (true, "out"), (true, "passwd")] := by decide +kernel
    have hout : linked.node (["repo"] ++ ["out"]) = some (.link "/etc") := rfl
    have hlink : linkComps "/etc" = [(false, ""), (false, "etc")] := by decide +kernel
    rw [hcomps]
    refine .dot (.inl (hdir [] (by simp))) (.inl rfl) ?_
    refine .name (.inl (hdir [] (by simp))) (hplain _ (by simp)) (hnode ["repo"] (by simp)) ?_
    refine .link (.inl (hdir ["repo"] (by simp))) (hplain _ (by simp)) hout ?_
    rw [hlink]
    refine .dot (.inl (hdir [] (by simp))) (.inl rfl) ?_
    refine .name (.inl (hdir [] (by simp))) (hplain _ (by simp)) (hnode ["etc"] (by simp)) ?_
    refine .name (.inl (hdir ["etc"] (by simp))) (hplain _ (by simp))
      (hnode ["etc", "passwd"] (by simp)) ?_
    exact .done _

end Paths

end DeltaBox
