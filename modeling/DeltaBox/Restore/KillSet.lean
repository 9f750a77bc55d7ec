import DeltaBox.Lib.Walk
import DeltaBox.Restore.Preflight
import Mathlib.Algebra.BigOperators.Group.Finset.Piecewise

/-!
# What a restore kills

Before a restore forks the process it goes back to, it kills the active process and what that has
started. It must leave alone the templates that later restores need, and the process that CRIU is
still writing out. `_kill_active_subtree` walks down from the active process, past nothing that is
protected, and signals what it has found in reverse.

The walk sees the sandbox as the other threads have left it by then. The order matters because a live
child could escape from under a namespace that is going down.

## Main definitions

* `Protected` — templates, and dump processes whose future is unfinished
* `KillsExact` — what is signalled, and in which order

## Main results

* `collect_walked` — the walk of `_collect_subtree_pids` is complete
* `kills_exact` — the signals of a call
-/

namespace DeltaBox

namespace Restore

open Prog

variable {b : Sandbox} {env : Env} {cfg : Config} {w w' : World}

/-! ### The walk -/

theorem collectSubtree_eq (b : Sandbox) (exclude : List ℕ) (fuel : ℕ) (stack found : List ℕ) :
    collectSubtree b exclude fuel stack found =
      Walk.run (childPids b) (decide <| · ∈ exclude) fuel stack found := by
  induction fuel generalizing stack found with
  | zero => rfl
  | succ fuel ih =>
    cases stack with
    | nil => rfl
    | cons pid stack =>
      rw [collectSubtree, Walk.run, ih, ih]
      simp only [decide_eq_true_eq]

theorem mem_childPids {pid child : ℕ} :
    child ∈ childPids b pid ↔ ∃ p, b.procs.find? child = some p ∧ p.ppid = pid := by
  simp only [childPids, List.mem_map, List.mem_filter, decide_eq_true_eq, Dict.find?_eq_some_iff]
  constructor
  · rintro ⟨⟨c, p⟩, ⟨hmem, hppid⟩, rfl⟩
    exact ⟨p, hmem, hppid⟩
  · rintro ⟨p, hmem, hppid⟩
    exact ⟨(child, p), ⟨hmem, hppid⟩, rfl⟩

/-- Each process is the child of one process. -/
theorem sum_childPids_le (U : Finset ℕ) (l : List (ℕ × Proc)) :
    ∑ pid ∈ U, ((l.filter fun p => p.2.ppid = pid).map Prod.fst).length ≤ l.length := by
  induction l with
  | nil => simp
  | cons p l ih =>
    have hone : ∑ pid ∈ U, (if p.2.ppid = pid then 1 else 0) ≤ 1 := by
      rw [Finset.sum_ite_eq]
      split_ifs <;> omega
    have hsplit : ∀ pid ∈ U, (((p :: l).filter fun p => p.2.ppid = pid).map Prod.fst).length =
        (if p.2.ppid = pid then 1 else 0) +
          ((l.filter fun p => p.2.ppid = pid).map Prod.fst).length := by
      intro pid _
      by_cases h : p.2.ppid = pid
      · simp [h, Nat.add_comm]
      · simp [h]
    rw [Finset.sum_congr rfl hsplit, Finset.sum_add_distrib, List.length_cons]
    omega

/-- **The walk goes to its end.** -/
theorem collect_walked (b : Sandbox) (root : ℕ) (exclude : List ℕ) :
    Walk.Walked (childPids b) (decide <| · ∈ exclude) root [] (collectSubtreePids b root exclude) := by
  rw [collectSubtreePids, collectSubtree_eq]
  refine Walk.walked_run (U := insert root b.procs.keys.toFinset) (Finset.mem_insert_self _ _)
    (fun pid child hchild => ?_) ?_ (Walk.walked_start _ _ root)
  · obtain ⟨p, hp, -⟩ := mem_childPids.mp hchild
    refine Finset.mem_insert_of_mem (List.mem_toFinset.mpr ?_)
    exact Dict.mem_keys_iff.mpr ⟨p, hp⟩
  · have hsum : Walk.remaining (childPids b) (insert root b.procs.keys.toFinset) [] ≤
        b.procs.entries.length := by
      rw [Walk.remaining, List.toFinset_nil, Finset.sdiff_empty]
      exact sum_childPids_le _ _
    rw [List.length_singleton]
    omega

/-! ### The kill set -/

/-- One process has started the other, directly or not. -/
def Descendant (b : Sandbox) : ℕ → ℕ → Prop := Relation.TransGen (Walk.Edge (childPids b))

/-- The process table is a forest: no process is its own descendant. -/
def Forest (b : Sandbox) : Prop := ∀ pid, ¬ Descendant b pid pid

/-- A registered template, or the disposable dump process of an entry whose future is unfinished. -/
def Protected (b : Sandbox) (templates : List ℕ) (pid : ℕ) : Prop :=
  pid ∈ templates ∨ pid ≠ 0 ∧ ∃ id e f, b.registry.find? id = some e ∧
    e.asyncDumpTemplatePid = some pid ∧ e.dumpFuture = some f ∧ f.done = false

/-- A process that can be reached from the active one without passing through a protected one. -/
inductive Reachable (b : Sandbox) (templates : List ℕ) : ℕ → Prop where
  | active (h : ¬ Protected b templates b.agentPid) : Reachable b templates b.agentPid
  | child {pid child : ℕ} (hpid : Reachable b templates pid) (hchild : child ∈ childPids b pid)
      (h : ¬ Protected b templates child) : Reachable b templates child

/-- What should be signalled, and in which order. -/
structure KillsExact (b : Sandbox) (templates pids : List ℕ) : Prop where
  exact : ∀ pid, pid ∈ pids ↔ Reachable b templates pid
  once : pids.Nodup
  /-- A process comes after its descendants. -/
  ordered : pids.Pairwise fun pid pid' => ¬ Descendant b pid pid'

theorem mem_protectedPids {templates : List ℕ} {pid : ℕ} :
    pid ∈ protectedPids b templates ↔ Protected b templates pid := by
  rw [protectedPids, List.mem_append, List.mem_filterMap, Protected]
  refine or_congr_right ⟨?_, ?_⟩
  · rintro ⟨e, he, hpid⟩
    obtain ⟨id, hid⟩ := Dict.mem_values_iff.mp he
    split at hpid
    · rename_i pid' f hdump hfuture
      split_ifs at hpid with hlive
      obtain rfl := Option.some.inj hpid
      exact ⟨hlive.1, id, e, f, hid, hdump, hfuture, by simpa using hlive.2⟩
    · cases hpid
  · rintro ⟨hne, id, e, f, hid, hdump, hfuture, hdone⟩
    refine ⟨e, Dict.mem_values_iff.mpr ⟨id, hid⟩, ?_⟩
    rw [hdump, hfuture]
    exact if_pos ⟨hne, by simp [hdone]⟩

theorem reached_iff {templates : List ℕ} {pid : ℕ} :
    Walk.Reached (childPids b) (decide <| · ∈ protectedPids b templates) b.agentPid pid ↔
      Reachable b templates pid := by
  have hskip : ∀ pid, decide (pid ∈ protectedPids b templates) = false ↔
      ¬ Protected b templates pid := by
    intro pid
    rw [decide_eq_false_iff_not, mem_protectedPids]
  constructor
  · intro h
    induction h with
    | root h => exact .active ((hskip _).mp h)
    | step _ hy h ih => exact ih.child hy ((hskip _).mp h)
  · intro h
    induction h with
    | active h => exact .root ((hskip _).mpr h)
    | child _ hchild h ih => exact ih.step hchild ((hskip _).mpr h)

/-- **The set and its order.** -/
theorem collect_exact {templates : List ℕ} (hforest : Forest b) :
    KillsExact b templates
      (collectSubtreePids b b.agentPid (protectedPids b templates)).reverse := by
  have hwalked := collect_walked b b.agentPid (protectedPids b templates)
  have hwalk : Walk.Forest (childPids b) := by
    refine ⟨fun p p' x hx hx' => ?_, hforest⟩
    obtain ⟨q, hq, rfl⟩ := mem_childPids.mp hx
    obtain ⟨q', hq', rfl⟩ := mem_childPids.mp hx'
    rw [Option.some.inj (hq.symm.trans hq')]
  refine ⟨fun pid => ?_, List.nodup_reverse.mpr hwalked.nodup, ?_⟩
  · rw [List.mem_reverse, hwalked.mem_iff, reached_iff]
  · exact List.pairwise_reverse.mpr (hwalked.pairwise hwalk)

/-! ### A call -/

/-- The processes that were sent `SIGKILL`, in this order. -/
def signals (log : List Event) : List ℕ :=
  log.filterMap fun
    | .change (.kill pid) => some pid
    | _ => none

/-- The sandbox after some turns of the other threads alone. -/
def Turned (env : Env) (w : World) (b : Sandbox) : Prop :=
  ∃ n, b = (List.range n).foldl (fun b i => (env.background (w.clock + i)).step b) w.box

/-- Only the other threads have moved since `w`. -/
def Waited (env : Env) (w w' : World) : Prop :=
  w'.log = w.log ∧ w'.book = w.book ∧
    ∃ n, w'.clock = w.clock + n ∧
      w'.box = (List.range n).foldl (fun b i => (env.background (w.clock + i)).step b) w.box

theorem Waited.refl (env : Env) (w : World) : Waited env w w := ⟨rfl, rfl, 0, rfl, rfl⟩

theorem Waited.turned (h : Waited env w w') : Turned env w w'.box := by
  obtain ⟨-, -, n, -, hbox⟩ := h
  exact ⟨n, hbox⟩

theorem Waited.tick (h : Waited env w w') :
    Waited env w { w' with box := (env.background w'.clock).step w'.box, clock := w'.clock + 1 } := by
  obtain ⟨hlog, hbook, n, hclock, hbox⟩ := h
  refine ⟨hlog, hbook, n + 1, by simp only [hclock]; omega, ?_⟩
  simp only [List.range_succ, List.foldl_append, List.foldl_cons, List.foldl_nil, ← hbox, hclock]

/-- The other threads do not change which process is the active one. -/
theorem Turned.agentPid (h : Turned env w b) : b.agentPid = w.box.agentPid := by
  obtain ⟨n, rfl⟩ := h
  induction n with
  | zero => rfl
  | succ n ih =>
    rw [List.range_succ, List.foldl_append, List.foldl_cons, List.foldl_nil, ← ih,
      Background.frame]

/-- Waiting is kept by what only looks. -/
theorem look_waited {α : Type} {f : Sandbox → α} {E : Err → World → Prop} :
    Triple (Waited env w) (look env f) (fun _ => Waited env w) E :=
  Triple.bind (Q := fun _ => Waited env w) (Triple.update fun _ h => h.tick) fun _ =>
    Triple.read fun _ h => h

theorem joinActiveDumpBeforeKill_waited :
    Triple (Waited env w) (joinActiveDumpBeforeKill env) (fun _ => Waited env w)
      fun e w' => (∃ id, e = .activeInterrupt id) ∧ w'.log = w.log := by
  refine Triple.bind (Q := fun _ => Waited env w) (Triple.read fun _ h => h) fun owner => ?_
  split
  · exact Triple.pure fun _ h => h
  · exact Triple.pure fun _ h => h
  refine Triple.bind (Q := fun _ => Waited env w) look_waited fun entry => ?_
  split
  · exact Triple.pure fun _ h => h
  refine Triple.bind (Q := fun _ => Waited env w) look_waited fun agent => ?_
  refine Triple.bind (Q := fun _ => Waited env w) look_waited fun before => ?_
  refine Triple.bind (Q := fun _ => Waited env w) look_waited fun after => ?_
  exact Triple.require (fun _ h _ => h) fun _ h _ => ⟨⟨_, rfl⟩, h.1⟩

/-- The signals so far. -/
def Signalled (pids : List ℕ) (w : World) : Prop := signals w.log = pids

theorem Signalled.ticks (env : Env) (pids : List ℕ) : Ticks env (Signalled pids) :=
  ⟨fun _ h => h, fun _ _ h => h⟩

/-- Each process gets its signal in turn. -/
theorem forEach_kill (toKill : List ℕ) (pids : List ℕ) {E : Err → World → Prop} :
    Triple (Signalled pids) (forEach (fun pid => act env (.kill pid)) toKill)
      (fun _ => Signalled (pids ++ toKill)) E := by
  induction toKill generalizing pids with
  | nil =>
    rw [List.append_nil]
    exact Triple.pure fun _ h => h
  | cons pid toKill ih =>
    rw [List.append_cons]
    refine Triple.bind (Q := fun _ => Signalled (pids ++ [pid])) ?_ fun _ => ih _
    refine Triple.bind (Q := fun _ => Signalled pids) (Triple.update fun _ h => h) fun _ =>
      Triple.update fun w h => ?_
    simp only [Signalled, signals, List.filterMap_append] at h ⊢
    rw [h]
    rfl

/-- What follows sends no more signals. -/
theorem killAndReap_signals {templates toKill : List ℕ} {agent : ℕ} {reaper : Option ℕ} {child : ℕ}
    {pids : List ℕ} :
    Triple (Signalled pids) (killAndReap env cfg templates toKill agent reaper child)
      (fun _ => Signalled (pids ++ toKill.reverse))
      fun _ => Signalled (pids ++ toKill.reverse) := by
  refine Triple.bind (forEach_kill toKill.reverse pids) fun _ => ?_
  obtain ⟨pids', hpids⟩ : ∃ pids', pids ++ toKill.reverse = pids' := ⟨_, rfl⟩
  rw [hpids]
  have hI := Signalled.ticks env pids'
  have hreap : Keeps (Signalled pids') (fun _ => True) (act env (.reap agent)) := by
    refine (Keeps.tick hI).bind fun _ => Triple.update fun w h => ?_
    simp only [Signalled, signals, List.filterMap_append] at h ⊢
    rw [h]
    exact List.append_nil _
  have hrest : Keeps (Signalled pids') (fun _ => True) (do
      let prepared ← attempt env
      tick env
      let reapable := reaper.any (fun r => r ∈ templates) && agent ∈ toKill
      let taken ← look env fun b => cfg.fixedActivePid.any (slotTaken b)
      let needFixedSlot := cfg.fixedActivePid.any (· ≠ 0) && !cfg.restoreFastforkDumpPid
      let answered ← attempt env
      let gone ← attempt env
      let reapedInline := needFixedSlot && reapable && taken && answered
      onlyIf (reapedInline && gone) (act env (.reap agent))
      tick env
      onlyIf (!reapedInline && reapable) (record (queueTemplateCleanup (reaper.getD 0) child agent))
      require prepared .prepare) := by
    refine (Keeps.attempt hI).bind fun _ => (Keeps.tick hI).bind fun _ => ?_
    refine (Keeps.look hI).bind fun _ => (Keeps.attempt hI).bind fun _ => ?_
    refine (Keeps.attempt hI).bind fun _ => (Keeps.onlyIf fun _ => hreap).bind fun _ => ?_
    refine (Keeps.tick hI).bind fun _ => (Keeps.onlyIf fun _ => Keeps.record hI).bind fun _ => ?_
    exact Keeps.require trivial
  exact hrest.mono (fun _ h => h) (fun _ _ h => h) fun _ _ h => h.1

/-- The call has signalled what its walk has found. -/
def Killed (env : Env) (w w' : World) : Prop :=
  ∃ b, Turned env w b ∧ signals w'.log = signals w.log ++
    (collectSubtreePids b b.agentPid (protectedPids b w.book.templatePids)).reverse

/-- A look does not move more than the other threads do. -/
theorem look_spec {α : Type} {f : Sandbox → α} {E : Err → World → Prop} :
    Triple (Waited env w) (look env f) (fun a w' => Waited env w w' ∧ a = f w'.box) E :=
  Triple.bind (Q := fun _ => Waited env w) (Triple.update fun _ h => h.tick) fun _ =>
    Triple.read fun _ h => ⟨h, rfl⟩

/-- From the walk on, the list of processes is settled. -/
theorem signal_spec {templates toKill : List ℕ} {agent : ℕ}
    (hkilled : ∀ w', signals w'.log = signals w.log ++ toKill.reverse → Killed env w w') :
    Triple (fun w' => w'.log = w.log) (do
        record fun k => { k with lastKilledActivePids := toKill }
        let reaper ← look env fun b => (b.procs.find? agent).map Proc.ppid
        let reaperChild ← look env fun b => (reaper.map (pidAsSeenBy b agent)).getD agent
        note .killing
        killAndReap env cfg templates toKill agent reaper reaperChild)
      (fun _ => Killed env w) fun _ => Killed env w := by
  have hlook : ∀ {α : Type} {f : Sandbox → α},
      Triple (fun w' => w'.log = w.log) (look env f) (fun _ w' => w'.log = w.log)
        fun _ => Killed env w :=
    Triple.bind (Q := fun _ w' => w'.log = w.log) (Triple.update fun _ h => h) fun _ =>
      Triple.read fun _ h => h
  refine Triple.bind (Q := fun _ w' => w'.log = w.log) (Triple.update fun _ h => h) fun _ => ?_
  refine Triple.bind (Q := fun _ w' => w'.log = w.log) hlook fun reaper => ?_
  refine Triple.bind (Q := fun _ w' => w'.log = w.log) hlook fun reaperChild => ?_
  refine Triple.bind (Q := fun _ => Signalled (signals w.log)) (Triple.update fun w' h => ?_)
    fun _ => killAndReap_signals.mono (fun _ h => h) (fun _ w' h => hkilled w' h)
      fun _ w' h => hkilled w' h
  simp only [Signalled, signals, List.filterMap_append, h]
  exact List.append_nil _

theorem killActiveSubtree_spec :
    Triple (Waited env w) (killActiveSubtree env cfg) (fun _ => Killed env w)
      fun e w' => (∃ id, e = .activeInterrupt id) ∧ w'.log = w.log ∨ Killed env w w' := by
  refine Triple.bind (Q := fun _ => Waited env w)
    (joinActiveDumpBeforeKill_waited.mono (fun _ h => h) (fun _ _ h => h) fun _ _ h => .inl h)
    fun _ => ?_
  refine Triple.bind (Q := fun templates w' => Waited env w w' ∧ templates = w.book.templatePids)
    (Triple.read fun _ h => ⟨h, by rw [h.2.1]⟩) fun templates => ?_
  refine Triple.bind (Q := fun agent w' => (Waited env w w' ∧ agent = w.box.agentPid) ∧
      templates = w.book.templatePids) ?_ fun agent => ?_
  · intro w' ⟨hw', htemplates⟩
    obtain ⟨hw'', hagent⟩ : Waited env w _ ∧ _ := look_spec (E := fun _ _ => True) w' hw'
    exact ⟨⟨hw'', hagent.trans hw''.turned.agentPid⟩, htemplates⟩
  refine Triple.bind (Q := fun toKill w' => w'.log = w.log ∧ ∃ b, Turned env w b ∧ toKill =
      collectSubtreePids b b.agentPid (protectedPids b w.book.templatePids)) ?_ fun toKill => ?_
  · intro w' ⟨⟨hw', hagent⟩, htemplates⟩
    obtain ⟨hw'', -⟩ : Waited env w _ ∧ _ := look_spec (E := fun _ _ => True)
      (f := fun b => collectSubtreePids b agent (protectedPids b templates)) w' hw'
    refine ⟨hw''.1, _, hw''.turned, ?_⟩
    rw [hw''.turned.agentPid, ← hagent, ← htemplates]
  · intro w' ⟨hlog, b, hb, htoKill⟩
    have hkilled : ∀ w'', signals w''.log = signals w.log ++ toKill.reverse → Killed env w w'' :=
      fun w'' h => ⟨b, hb, by rw [h, htoKill]⟩
    exact (signal_spec hkilled).mono (fun _ h => h) (fun _ _ h => h) (fun _ _ h => .inr h)
      w' hlog

/-- **The kill set is exact and safely ordered.** -/
theorem kills_exact (env : Env) (cfg : Config) (w : World) :
    (∃ id, (killActiveSubtree env cfg w).1 = .error (.activeInterrupt id)) ∧
        (killActiveSubtree env cfg w).2.log = w.log ∨
      ∃ b pids, Turned env w b ∧
        signals (killActiveSubtree env cfg w).2.log = signals w.log ++ pids ∧
        (Forest b → KillsExact b w.book.templatePids pids) := by
  have hspec := @killActiveSubtree_spec env cfg w w (Waited.refl env w)
  have hexact : ∀ w', Killed env w w' → ∃ b pids, Turned env w b ∧
      signals w'.log = signals w.log ++ pids ∧
      (Forest b → KillsExact b w.book.templatePids pids) := by
    rintro w' ⟨b, hb, hlog⟩
    exact ⟨b, _, hb, hlog, collect_exact⟩
  generalize killActiveSubtree env cfg w = r at hspec ⊢
  obtain ⟨e | a, w'⟩ := r
  · rcases hspec with ⟨⟨id, rfl⟩, hlog⟩ | hkilled
    · exact .inl ⟨⟨id, rfl⟩, hlog⟩
    · exact .inr (hexact w' hkilled)
  · exact .inr (hexact w' hspec)

end Restore

end DeltaBox
