import DeltaBox.Lib.Flock
import Mathlib.Data.List.Infix

/-!
# The locks on result trees

A run writes its results below an output directory. `output_tree_lock` keeps two runs from writing
overlapping trees: it locks the output exclusively, and each directory above it with a shared lock.
Quick checks are excepted from the lock on the results directory itself.

`parallel_run_locks` lets one main run and one quick check be active. A run that rotates the results
has the gate for itself until its measurements begin.

## What is given

The digest of a text. An output is the path that `resolve` returns, as the list of its components;
when it cannot be resolved, nothing has been locked yet.

## Main definitions

* `outputTreeLock`, `parallelRunLocks` — the locks that are taken
* `Use`, `useStep` — users of both kinds, in any order

## Main results

* `result_trees_exclusive` — no two runs write overlapping trees
-/

namespace DeltaBox

namespace Storage

open Flock

/-- A path below the root, by its components. -/
abbrev Path := List String

/-- `str` of a path. -/
def Path.str (path : Path) : String := "/" ++ String.intercalate "/" path

/-- A path and its parents, the highest first. -/
def lineage (path : Path) : List Path := path.inits

/-- What is raised. -/
inductive Raised where
  | valueError (message : String)
  deriving DecidableEq

/-- The name of the lock file of a path. -/
def validationLock (digest : String → String) (path : Path) : String :=
  ".validation-" ++ String.ofList ((digest path.str).toList.take 16) ++ ".lock"

/-- The directory of the quick checks. -/
def checks (root : Path) : Path := root ++ ["checks"]

/-- Is a path the directory of the quick checks, or below it? -/
def inChecks (root output : Path) : Bool := (checks root).isPrefixOf output

/-- `output_tree_lock`: the locks that it takes. -/
def outputTreeLock (digest : String → String) (root output : Path) (quick : Bool) :
    Except Raised (List (Request String)) :=
  if inChecks root output && (!quick || output = checks root) then
    .error (.valueError "ae/results/checks is reserved for individual quick checks")
  else
    .ok (((lineage output).filter fun path => !(inChecks root output && path = root)).map
      fun path => ⟨validationLock digest path, if path ≠ output then .shared else .exclusive⟩)

/-- `parallel_run_locks`: the locks that it takes. The last one is the gate. -/
def parallelRunLocks (quick rotate : Bool) : List (Request String) :=
  [⟨if quick then ".quick-run.lock" else ".main-run.lock", .exclusive⟩,
    ⟨".results.lock", if !rotate then .shared else .exclusive⟩]

/-- What a user asks for. The output is none if it cannot be resolved. -/
inductive Use where
  | tree (output : Option Path) (quick : Bool)
  | parallel (quick rotate : Bool)
  deriving DecidableEq

/-- The locks that a user takes. -/
def Use.plan (digest : String → String) (root : Path) : Use → Option (List (Request String))
  | .tree none _ => none
  | .tree (some output) quick => (outputTreeLock digest root output quick).toOption
  | .parallel quick rotate => some (parallelRunLocks quick rotate)

/-- `measurement_phase` is given the gate. -/
def Use.gated : Use → Bool
  | .tree _ _ => false
  | .parallel _ _ => true

/-- One step of some user. -/
def useStep {P : Type} [DecidableEq P] (digest : String → String) (root : Path) :
    State P String Use → P × Act Use → Option (State P String Use) :=
  step (Use.plan digest root) Use.gated

variable {digest : String → String} {root output A B : Path} {a b quick rotate : Bool}

theorem inChecks_iff : inChecks root output = true ↔ checks root <+: output :=
  List.isPrefixOf_iff_prefix

/-- The directory of the quick checks is not above the results. -/
theorem root_not_in_checks : ¬ checks root <+: root := by
  intro h
  have hlen := h.length_le
  rw [checks, List.length_append, List.length_singleton] at hlen
  omega

/-- The locks of an output. -/
theorem plan_tree {rs : List (Request String)}
    (h : Use.plan digest root (.tree (some output) quick) = some rs) :
    (checks root <+: output → quick = true ∧ output ≠ checks root) ∧
      rs = ((lineage output).filter fun path => !(inChecks root output && path = root)).map
        fun path => ⟨validationLock digest path, if path ≠ output then .shared else .exclusive⟩ := by
  rw [Use.plan, outputTreeLock] at h
  by_cases hrefused : (inChecks root output && (!quick || output = checks root)) = true
  · rw [if_pos hrefused] at h
    cases h
  · rw [if_neg hrefused] at h
    refine ⟨fun hin => ?_, (Option.some.inj h).symm⟩
    rw [inChecks_iff.mpr hin] at hrefused
    cases quick <;> simp_all

/-- The lock on the output itself. -/
theorem own_lock {rs : List (Request String)}
    (h : Use.plan digest root (.tree (some output) quick) = some rs) :
    (⟨validationLock digest output, .exclusive⟩ : Request String) ∈ rs := by
  obtain ⟨-, rfl⟩ := plan_tree h
  refine List.mem_map.mpr ⟨output, List.mem_filter.mpr ⟨?_, ?_⟩, by simp⟩
  · exact (List.mem_inits _ _).mpr List.prefix_rfl
  · by_cases hin : checks root <+: output
    · have hne : output ≠ root := fun heq => root_not_in_checks (heq ▸ hin)
      simp [hne]
    · simp [mt inChecks_iff.mp hin]

/-- The lock on a directory above the output. It is left out for a quick check at the results
directory. -/
theorem above_lock {rs : List (Request String)}
    (h : Use.plan digest root (.tree (some B) quick) = some rs) (hAB : A <+: B) :
    (A = root ∧ checks root <+: B) ∨ ∃ m, (⟨validationLock digest A, m⟩ : Request String) ∈ rs := by
  obtain ⟨-, rfl⟩ := plan_tree h
  by_cases hskipped : A = root ∧ checks root <+: B
  · exact .inl hskipped
  · refine .inr ⟨_, List.mem_map.mpr ⟨A, List.mem_filter.mpr ⟨(List.mem_inits _ _).mpr hAB, ?_⟩, rfl⟩⟩
    by_cases hin : checks root <+: B
    · simp [show A ≠ root from fun heq => hskipped ⟨heq, hin⟩]
    · simp [mt inChecks_iff.mp hin]

variable {P : Type} [DecidableEq P] {s : State P String Use} {p q : P}

/-- A user is in the body of its `with` statement. -/
def Inside (s : State P String Use) (p : P) (use : Use) (converted : Bool) : Prop :=
  ∃ c, s.calls p = some c ∧ c.what = use ∧ c.converted = converted ∧
    (c.phase = .inside ∨ c.phase = .converting)

/-- A user in the body waits in `measurement_phase`, and has given the gate up. -/
def Waits (s : State P String Use) (p : P) : Prop :=
  ∃ c, s.calls p = some c ∧ c.phase = .converting

/-- The locks of a user in the body, which was not refused. -/
theorem Inside.plan_some {use : Use} {b : Bool} (hi : Inv (Use.plan digest root) Use.gated s)
    (h : Inside s p use b) : ∃ rs, Use.plan digest root use = some rs := by
  obtain ⟨c, hc, rfl, -, hphase⟩ := h
  have hown := hi.own p
  rw [hc] at hown
  have hheld := hown.held
  unfold Held at hheld
  rcases hphase with hphase | hphase
  · rw [hphase] at hheld
    exact ⟨_, hheld.1⟩
  · rw [hphase] at hheld
    exact ⟨_, hheld.1⟩

/-- What a user with an output has locked. -/
theorem Inside.tree_holds (hi : Inv (Use.plan digest root) Use.gated s)
    (h : Inside s p (.tree (some output) quick) b) {rs : List (Request String)}
    (hrs : Use.plan digest root (.tree (some output) quick) = some rs) {r : Request String}
    (hr : r ∈ rs) : ∃ fd, s.table.find? (p, fd) = some ⟨r.file, some r.mode⟩ := by
  obtain ⟨c, hc, hwhat, -, hphase⟩ := h
  exact inside_ungated hi hc hphase (by rw [hwhat]; rfl) (hwhat ▸ hrs) hr

/-- **Two outputs.** If one is the other or above it, the locks exclude each other, but for a quick
check. -/
theorem outputs_apart (hi : Inv (Use.plan digest root) Use.gated s) (hpq : p ≠ q) {x y : Bool}
    (hp : Inside s p (.tree (some A) a) x) (hq : Inside s q (.tree (some B) b) y) (hAB : A <+: B) :
    A = root ∧ b = true ∧ checks root <+: B ∧ B ≠ checks root := by
  obtain ⟨rs, hrs⟩ := hp.plan_some hi
  obtain ⟨rs', hrs'⟩ := hq.plan_some hi
  rcases above_lock hrs' hAB with ⟨hroot, hin⟩ | ⟨m, hm⟩
  · exact ⟨hroot, ((plan_tree hrs').1 hin).1, hin, ((plan_tree hrs').1 hin).2⟩
  · obtain ⟨fd, hfd⟩ := hp.tree_holds hi hrs (own_lock hrs)
    obtain ⟨fd', hfd'⟩ := hq.tree_holds hi hrs' hm
    cases (hi.exclusive.both_shared hpq hfd hfd' rfl).1

/-- The locks of a parallel run. -/
theorem plan_parallel {use : Use} (h : use = .parallel quick rotate) :
    use.plan digest root = some
      ([⟨if quick then ".quick-run.lock" else ".main-run.lock", .exclusive⟩] ++
        [⟨".results.lock", if !rotate then .shared else .exclusive⟩]) := by
  rw [h]
  rfl

/-- The lane of a main run or of a quick check is taken by one user. -/
theorem lanes_apart (hi : Inv (Use.plan digest root) Use.gated s) (hpq : p ≠ q) {x y : Bool}
    {rotate' quick' : Bool} (hp : Inside s p (.parallel quick rotate) x)
    (hq : Inside s q (.parallel quick' rotate') y) : quick ≠ quick' := by
  rintro rfl
  obtain ⟨c, hc, hwhat, -, hphase⟩ := hp
  obtain ⟨c', hc', hwhat', -, hphase'⟩ := hq
  obtain ⟨fd, hfd⟩ := inside_front hi hc hphase (plan_parallel hwhat) List.mem_cons_self
  obtain ⟨fd', hfd'⟩ := inside_front hi hc' hphase' (plan_parallel hwhat') List.mem_cons_self
  cases (hi.exclusive.both_shared hpq hfd hfd' rfl).1

/-- While a user that rotates has not begun its measurements, any other one in the body waits for
the gate. -/
theorem rotating_alone (hi : Inv (Use.plan digest root) Use.gated s) (hpq : p ≠ q) {y : Bool}
    {rotate' quick' : Bool} (hp : Inside s p (.parallel quick true) false)
    (hq : Inside s q (.parallel quick' rotate') y) : Waits s q := by
  obtain ⟨c, hc, hwhat, hconv, hphase⟩ := hp
  obtain ⟨c', hc', hwhat', -, hphase'⟩ := hq
  refine ⟨c', hc', hphase'.resolve_left fun hinside' => ?_⟩
  have hinside : c.phase = .inside := by
    refine hphase.resolve_right fun hconverting => ?_
    have hown := hi.own p
    rw [hc] at hown
    have hheld := hown.held
    unfold Held at hheld
    rw [hconverting] at hheld
    cases hconv.symm.trans hheld.2.1
  obtain ⟨fd, hfd⟩ := inside_holds hi hc hinside hconv (plan_parallel hwhat)
    (List.mem_append_right _ List.mem_cons_self)
  obtain ⟨fd', m, hfd'⟩ := inside_last hi hc' hinside' (plan_parallel hwhat')
  have hboth := hi.exclusive _ _ _ _ _ _ (fun heq => hpq (Prod.mk.inj heq).1) hfd hfd' rfl rfl rfl
  cases hboth.1

/-- **No two runs write overlapping trees.** This holds in every run of any users, which may fail and
leave at any time.

* Two outputs are distinct, and one is above the other only for a quick check below the results.
* A user that is out of its call has no lock, however it has come out, and one that leaves comes out.
* There is one main run at most, and one quick check.
* A user that rotates and has not begun its measurements is alone. If conversions are not done in one
  step, another one may be in its body, but it has given its gate up and waits for it. -/
theorem result_trees_exclusive (digest : String → String) (root : Path) {ls : List (P × Act Use)}
    (h : Machine.exec (useStep digest root) State.init ls = some s) :
    (∀ p q, p ≠ q → ∀ A a x B b y, Inside s p (.tree (some A) a) x →
      Inside s q (.tree (some B) b) y → A ≠ B ∧
        (A <+: B → A = root ∧ b = true ∧ checks root <+: B ∧ B ≠ checks root)) ∧
    (∀ p, s.calls p = none → ∀ fd, s.table.find? (p, fd) = none) ∧
    (∀ p c, s.calls p = some c → c.phase = .leaving → ∃ s',
      Machine.exec (useStep digest root) s
        (c.stack.map (fun _ => (p, Act.close)) ++ [(p, .leave)]) = some s' ∧
      s'.calls p = none ∧ ∀ fd, s'.table.find? (p, fd) = none) ∧
    (∀ p q, p ≠ q → ∀ quick rotate x quick' rotate' y, Inside s p (.parallel quick rotate) x →
      Inside s q (.parallel quick' rotate') y → quick ≠ quick') ∧
    ∀ p q, p ≠ q → ∀ quick quick' rotate' y, Inside s p (.parallel quick true) false →
      Inside s q (.parallel quick' rotate') y → Waits s q ∧ ∃ r, (r, Act.convert false) ∈ ls := by
  have hi := exec_inv h
  refine ⟨fun p q hpq A a x B b y hp hq => ?_, fun p hp fd => idle_empty hi hp fd,
    fun p c hc hphase => ?_, fun p q hpq quick rotate x quick' rotate' y => lanes_apart hi hpq,
    fun p q hpq quick quick' rotate' y hp hq => ?_⟩
  · have hAB := outputs_apart hi hpq hp hq
    refine ⟨fun heq => ?_, hAB⟩
    obtain ⟨hroot, -, hin, -⟩ := hAB (heq ▸ List.prefix_rfl)
    exact root_not_in_checks (hroot ▸ heq ▸ hin)
  · have hleaves : ∃ s', Machine.exec (useStep digest root) s
        (c.stack.map (fun _ => (p, Act.close)) ++ [(p, .leave)]) = some s' ∧ s'.calls p = none :=
      leaving_leaves hc hphase
    obtain ⟨s', hs', hnone⟩ := hleaves
    exact ⟨s', hs', hnone, idle_empty (exec_inv (Machine.exec_append.mpr ⟨s, h, hs'⟩)) hnone⟩
  · have hwaits := rotating_alone hi hpq hp hq
    obtain ⟨c, hc, hphase⟩ := hwaits
    refine ⟨⟨c, hc, hphase⟩, ?_⟩
    by_contra hnone
    exact not_converting (fun r hr => hnone ⟨r, hr⟩) h hc hphase

/-! ### A main run and a quick check -/

/-- The digests of some paths. -/
def resultsDigest (s : String) : String :=
  if s = "/" then
    "8a5edab282632443219e051e4ade2d1d5bbc671c781051bf1437897cbdfea0f1"
  else if s = "/ae" then
    "01f547b7a8f7110cc91df9df3707e56a311d1a919205df7d7ef01bbd4bee464c"
  else if s = "/ae/results" then
    "4117bafc9a891513e539dad025a1c820ba508858f76435dd62c13965d6e48822"
  else if s = "/ae/results/checks" then
    "01e43016866e73e2b75cd3efbeb30cb077765cea7ca4353f3c16662bb4cc620e"
  else if s = "/ae/results/checks/c1" then
    "5f83958037038eb8a88290691c7082956c5dca2bd1d0f7e0e6370c2700956360"
  else ""

/-- A user takes `n` locks, from a descriptor on. -/
def takes (p fd : ℕ) : ℕ → List (ℕ × Act Use)
  | 0 => [(p, .enter)]
  | n + 1 => (p, .openFile fd) :: (p, .lock) :: takes p (fd + 1) n

/-- User 0 has the results, and user 1 a quick check below them. User 2 fails at the lock on the
results. -/
def together : List (ℕ × Act Use) :=
  (0, .call (.tree (some ["ae", "results"]) false)) :: takes 0 3 3 ++
  (1, .call (.tree (some ["ae", "results", "checks", "c1"]) true)) :: takes 1 3 4 ++
  [(2, .call (.tree (some ["ae", "results"]) false)), (2, .openFile 3), (2, .lock),
    (2, .openFile 4), (2, .lock), (2, .openFile 5), (2, .raise), (2, .close), (2, .close),
    (2, .leave)]

/-- Is a user inside? -/
def isInside (s : State ℕ String Use) (p : ℕ) (use : Use) : Bool :=
  (s.calls p).any fun c => c.what = use && !c.converted && c.phase = .inside

theorem inside_of_isInside {s : State ℕ String Use} {p : ℕ} {use : Use}
    (h : isInside s p use = true) : Inside s p use false := by
  obtain ⟨c, hc, hwhat⟩ := (Option.any_eq_true _ _).mp h
  simp only [Bool.and_eq_true, decide_eq_true_eq, Bool.not_eq_true'] at hwhat
  exact ⟨c, hc, hwhat.1.1, hwhat.1.2, .inl hwhat.2⟩

/-- User 2 has nothing then, and the results are above the quick check. -/
theorem result_trees_exclusive_together : ∃ s,
    Machine.exec (useStep resultsDigest ["ae", "results"]) State.init together = some s ∧
      Inside s 0 (.tree (some ["ae", "results"]) false) false ∧
      Inside s 1 (.tree (some ["ae", "results", "checks", "c1"]) true) false ∧
      ∀ fd, s.table.find? (2, fd) = none := by
  have hexec : (Machine.exec (useStep resultsDigest ["ae", "results"]) State.init together).map
      (fun s => (isInside s 0 (.tree (some ["ae", "results"]) false),
        isInside s 1 (.tree (some ["ae", "results", "checks", "c1"]) true),
        (s.calls 2).isNone)) = some (true, true, true) := by
    decide +kernel
  obtain ⟨s, hs, hcalls⟩ := Option.map_eq_some_iff.mp hexec
  obtain ⟨h0, h12⟩ := Prod.mk.inj hcalls
  obtain ⟨h1, h2⟩ := Prod.mk.inj h12
  exact ⟨s, hs, inside_of_isInside h0, inside_of_isInside h1,
    (result_trees_exclusive resultsDigest ["ae", "results"] hs).2.1 2
      (Option.isNone_iff_eq_none.mp h2)⟩

end Storage

end DeltaBox
