import DeltaBox.Search.AgentMcts
import DeltaBox.Search.HostMcts

/-!
# Every node is expanded from its own checkpoint

The three searches skip the restore where the selected node is the one they have just checkpointed,
so they rely on a marker: nothing may move the sandbox while the marker stays. In `run_decoupled`
nothing does. A failed step ends the run there, and `_evaluate` runs its commands for finished
children alone, which `_select` never returns.

In `AgentMCTS.run` the verification of a patch runs in the sandbox. Before the checkpoint of the
child its changes are saved with the child; behind it they stay for the next action where the
child is selected again. In `run_root_mcts` the next iteration starts where a failed step has left
the sandbox.

## Main results

* `expanded_from_own_checkpoint` — in every run of `run_decoupled`, and in every run of the two
  others whose turns are undisturbed, each action starts in the state of its node's checkpoint and
  the checkpoint of the child holds what the action has reached
* `verification_recorded` — runs of the two others where it is not so
-/

namespace DeltaBox

namespace Search

universe u

variable {σ : Type u}

/-- The checkpoint that was just taken is noted for the last action. -/
theorem own_noteRecorded {b : Sandbox σ} {e : Expansion σ} {es : List (Expansion σ)}
    (hes : ∀ d ∈ e :: es, d.Own b.saved) (he : b.state = e.reached) :
    ∀ d ∈ noteRecorded b.checkpoint.2 (e :: es), d.Own b.checkpoint.1.saved := by
  intro d hd
  rcases List.mem_cons.mp hd with rfl | hd
  · refine ⟨(hes e List.mem_cons_self).checkpoint.1, fun c hc => ?_⟩
    obtain rfl := Option.mem_some_iff.mp hc
    exact he ▸ Sandbox.saved_checkpoint_self
  · exact (hes d (List.mem_cons_of_mem _ hd)).checkpoint

namespace AgentMcts

variable {cfg : Config} {s s' : AgentMcts σ} {t : Turn σ} {n c child : ℕ} {x : σ}

/-- What holds between two iterations. -/
structure Inv (s : AgentMcts σ) : Prop where
  /-- The marker is right, unless a verification has moved the sandbox behind the checkpoint. -/
  current : s.running = true → Still s.verified →
    s.sandbox.saved[s.currentCkpt]? = some s.sandbox.state
  known : ∀ n c, s.ckptByNode.find? n = some c → c < s.sandbox.saved.length
  own : ∀ e ∈ s.expansions, e.Own s.sandbox.saved

theorem inv_seed (root : ℕ) (x : σ) : (seed root x).Inv where
  current := fun _ _ => rfl
  known := by
    intro n c hc
    rw [seed, Dict.find?_set] at hc
    split_ifs at hc
    · obtain rfl := Option.some.inj hc
      exact Nat.one_pos
    · simp at hc
  own := by simp [seed]

theorem Inv.stop (h : s.Inv) : { s with running := false }.Inv where
  current := by simp
  known := h.known
  own := h.own

theorem Inv.setRunning (h : s.Inv) (hrun : s.running = true) (r : Bool) :
    { s with running := r }.Inv where
  current := fun _ => h.current hrun
  known := h.known
  own := h.own

/-- `s'` is `s` with a capture done. At most one verification has run. -/
structure Captured (cfg : Config) (c : Capture σ) (s s' : AgentMcts σ) : Prop where
  saved : s'.sandbox.saved = s.sandbox.saved
  ckptByNode : s'.ckptByNode = s.ckptByNode
  currentCkpt : s'.currentCkpt = s.currentCkpt
  expansions : s'.expansions = s.expansions
  running : s'.running = s.running
  moved : s'.sandbox.state = s.sandbox.state ∧ s'.verified = s.verified ∨
    s'.sandbox.state = c.live.effect s.sandbox.state ∧
      s'.verified = (s.sandbox.state, c.live.effect s.sandbox.state) :: s.verified ∧
      ∃ diff ∈ capturePatch cfg c,
        (cfg.diffCaptureCwd && nonblank diff && s.liveVerifies cfg diff) = true

theorem Captured.refl (cfg : Config) (c : Capture σ) (s : AgentMcts σ) : Captured cfg c s s :=
  ⟨rfl, rfl, rfl, rfl, rfl, .inl ⟨rfl, rfl⟩⟩

theorem Captured.setDiff {c : Capture σ} (h : Captured cfg c s s') (d : Dict ℕ String) :
    Captured cfg c s { s' with diffByNode := d } :=
  ⟨h.saved, h.ckptByNode, h.currentCkpt, h.expansions, h.running, h.moved⟩

theorem Captured.of_setDiff {c : Capture σ} {d : Dict ℕ String}
    (h : Captured cfg c { s with diffByNode := d } s') : Captured cfg c s s' :=
  ⟨h.saved, h.ckptByNode, h.currentCkpt, h.expansions, h.running, h.moved⟩

theorem captured_maybeLiveVerify {c : Capture σ} {diff : String} (hcwd : cfg.diffCaptureCwd = true)
    (hpatch : diff ∈ capturePatch cfg c) (hblank : nonblank diff = true) :
    Captured cfg c s (s.maybeLiveVerify cfg diff c.live).1 := by
  rw [maybeLiveVerify]
  by_cases hlive : s.liveVerifies cfg diff = true
  · rw [if_pos hlive]
    refine ⟨rfl, rfl, rfl, rfl, rfl, .inr ⟨rfl, rfl, diff, hpatch, ?_⟩⟩
    rw [hcwd, hblank, hlive]
    rfl
  · rw [if_neg hlive]
    exact .refl _ _ _

theorem captured_capture (hcwd : cfg.diffCaptureCwd = true) (child : ℕ) (c : Capture σ) :
    Captured cfg c s (s.capture cfg child c).1 := by
  rw [capture]
  cases hpatch : capturePatch cfg c with
  | none => exact .refl _ _ _
  | some diff =>
    simp only
    split_ifs with hblank
    · exact (captured_maybeLiveVerify hcwd hpatch hblank).of_setDiff
    · exact (Captured.refl _ _ _).setDiff _

theorem captured_before (cfg : Config) (s : AgentMcts σ) (child : ℕ) (c : Capture σ) :
    Captured cfg c s (s.captureBefore cfg child c) := by
  rw [captureBefore]
  by_cases hcwd : cfg.diffCaptureCwd = true
  · rw [if_pos hcwd]
    simp only
    split_ifs
    · exact (captured_capture hcwd child c).setDiff _
    · exact captured_capture hcwd child c
  · rw [if_neg hcwd]
    exact .refl _ _ _

theorem captured_after (cfg : Config) (s : AgentMcts σ) (child : ℕ) (c : Capture σ) :
    Captured cfg c s (s.captureAfter cfg child c) := by
  rw [captureAfter]
  split_ifs with h
  · exact captured_capture (Bool.and_eq_true_iff.mp h).1 child c
  · exact .refl _ _ _

/-- A capture behind the checkpoint leaves what the loop relies on: where its verification moved the
sandbox, that is on record. -/
theorem Inv.captured {c : Capture σ} (h : s.Inv) (hs : Captured cfg c s s') : s'.Inv where
  current := by
    intro hrun hstill
    rw [hs.running] at hrun
    rw [hs.saved, hs.currentCkpt]
    obtain ⟨hstate, hmoves⟩ | ⟨hstate, hmoves, -⟩ := hs.moved
    · rw [hmoves] at hstill
      exact hstate ▸ h.current hrun hstill
    · rw [hmoves, still_cons] at hstill
      exact (hstate.trans hstill.1.symm) ▸ h.current hrun hstill.2
  known := by
    rw [hs.ckptByNode, hs.saved]
    exact h.known
  own := by
    rw [hs.expansions, hs.saved]
    exact h.own

/-- The restore, or the marker where it is skipped, leads to what the checkpoint of the selected
node holds. -/
theorem Inv.saved_rewind (h : s.Inv) (hrun : s.running = true)
    (hc : s.ckptByNode.find? n = some c) (hstill : c = s.currentCkpt → Still s.verified) :
    s.sandbox.saved[c]? = some (s.rewind n).sandbox.state := by
  rw [rewind, hc]
  simp only
  split_ifs with hcurrent
  · rw [hcurrent]
    exact h.current hrun (hstill hcurrent)
  · have hx := List.getElem?_eq_getElem (h.known n c hc)
    rw [hx, Sandbox.state_restore hx]

theorem rewind_frame (s : AgentMcts σ) (n : ℕ) :
    (s.rewind n).sandbox.saved = s.sandbox.saved ∧ (s.rewind n).ckptByNode = s.ckptByNode ∧
      (s.rewind n).expansions = s.expansions ∧ (s.rewind n).running = s.running ∧
      (s.rewind n).liveVerifyCount = s.liveVerifyCount ∧
      (s.rewind n).liveVerifySeen = s.liveVerifySeen := by
  rw [rewind]
  split
  · exact ⟨rfl, rfl, rfl, rfl, rfl, rfl⟩
  · split_ifs <;> exact ⟨rfl, rfl, rfl, rfl, rfl, rfl⟩

theorem Inv.rewind (h : s.Inv) (n : ℕ) : (s.rewind n).Inv := by
  obtain ⟨hsaved, hknown, hexp, -⟩ := s.rewind_frame n
  refine ⟨?_, by rw [hsaved, hknown]; exact h.known, by rw [hsaved, hexp]; exact h.own⟩
  cases hc : s.ckptByNode.find? n with
  | none =>
    rw [AgentMcts.rewind, hc]
    exact h.current
  | some c =>
    by_cases hcurrent : c = s.currentCkpt
    · rw [AgentMcts.rewind, hc]
      simp only [if_pos hcurrent]
      exact h.current
    · intro hrun hstill
      have hx := List.getElem?_eq_getElem (h.known n c hc)
      rw [AgentMcts.rewind, hc]
      simp only [if_neg hcurrent]
      rw [Sandbox.saved_restore, Sandbox.state_restore hx, hx]

/-- The checkpoint of the child, where the sandbox is still where the action has left it. -/
theorem inv_record {e : Expansion σ} {es : List (Expansion σ)}
    (hknown : ∀ n c, s.ckptByNode.find? n = some c → c < s.sandbox.saved.length)
    (hexp : s.expansions = e :: es) (hown : ∀ d ∈ e :: es, d.Own s.sandbox.saved)
    (hreached : s.sandbox.state = e.reached) : (s.record child).Inv where
  current := fun _ _ => Sandbox.saved_checkpoint_self
  known := by
    intro n c hc
    simp only [record, Dict.find?_set] at hc
    simp only [record, Sandbox.saved_checkpoint, List.length_append, List.length_singleton]
    split_ifs at hc
    · obtain rfl := Option.some.inj hc
      exact Nat.lt_succ_self _
    · exact Nat.lt_succ_of_lt (hknown n c hc)
  own := by
    simp only [record, hexp]
    exact own_noteRecorded hown hreached

/-- The action and the capture behind it. The verification of an undisturbed turn leaves the sandbox
where the action has left it. -/
theorem Inv.acted (h : s.Inv) (hrun : s.running = true) (hc : s.ckptByNode.find? n = some c)
    (hstill : c = s.currentCkpt → Still s.verified)
    (hbefore : ∀ x ∈ s.sandbox.saved[c]?, ∀ diff ∈ capturePatch cfg t.before,
      (cfg.diffCaptureCwd && nonblank diff && s.liveVerifies cfg diff) = true →
        t.before.live.effect (t.agent x) = t.agent x)
    (hcaptured : Captured cfg t.before ((s.rewind n).act n t.agent) s') :
    ∃ e es, s'.expansions = e :: es ∧ (∀ d ∈ e :: es, d.Own s'.sandbox.saved) ∧
      s'.sandbox.state = e.reached ∧
      ∀ n c, s'.ckptByNode.find? n = some c → c < s'.sandbox.saved.length := by
  have hstart := h.saved_rewind hrun hc hstill
  obtain ⟨hsaved, hknown, hexp, -, hcount, hseen⟩ := s.rewind_frame n
  have hsaved' : s'.sandbox.saved = s.sandbox.saved := hcaptured.saved.trans hsaved
  refine ⟨_, _, hcaptured.expansions, ?_, ?_, ?_⟩
  · intro d hd
    rw [hsaved']
    rcases List.mem_cons.mp hd with rfl | hd
    · refine ⟨?_, by simp⟩
      simp only [hknown, hc, Option.bind_some]
      exact hstart
    · exact h.own d (hexp ▸ hd)
  · obtain ⟨hstate, -⟩ | ⟨hstate, -, diff, hdiff, hlive⟩ := hcaptured.moved
    · exact hstate
    · have hlive' : (cfg.diffCaptureCwd && nonblank diff && s.liveVerifies cfg diff) = true := by
        simpa only [liveVerifies, act, hcount, hseen] using hlive
      exact hstate.trans (hbefore _ hstart diff hdiff hlive')
  · rw [hcaptured.ckptByNode, hsaved']
    exact hknown.symm ▸ h.known

/-- **One iteration.** -/
theorem Inv.turn (h : s.Inv) (hquiet : s.Undisturbed cfg t) (hturn : s.turn cfg t = some s') :
    s'.Inv := by
  rw [AgentMcts.turn] at hturn
  by_cases hrun : s.running = true
  · rw [if_pos hrun] at hturn
    cases hn : t.selected with
    | none =>
      simp only [hn, Option.some.injEq] at hturn
      exact hturn ▸ h.stop
    | some n =>
      simp only [hn] at hturn
      by_cases hraises : (s.restores n && t.restoreRaises) = true
      · rw [if_pos hraises] at hturn
        obtain rfl := Option.some.inj hturn
        exact h.stop
      · rw [if_neg hraises] at hturn
        cases hchild : t.child with
        | none =>
          simp only [hchild, Option.some.injEq] at hturn
          exact hturn ▸ h.rewind n
        | some child =>
          obtain ⟨c, hc, hstill, hbefore⟩ := hquiet n hn child hchild
          obtain ⟨e, es, hexp, hown, hreached, hknown⟩ :=
            h.acted hrun hc hstill hbefore (captured_before cfg _ child t.before)
          simp only [hchild] at hturn
          split_ifs at hturn
          · obtain rfl := Option.some.inj hturn
            exact ⟨by simp, hknown, by rw [hexp]; exact hown⟩
          · obtain rfl := Option.some.inj hturn
            have hkeeps := captured_before cfg ((s.rewind n).act n t.agent) child t.before
            have hafter := captured_after cfg
              ((((s.rewind n).act n t.agent).captureBefore cfg child t.before).record child)
              child t.after
            refine ((inv_record hknown hexp hown hreached).captured hafter).setRunning ?_ _
            rw [hafter.running]
            exact hkeeps.running.trans ((s.rewind_frame n).2.2.2.1.trans hrun)
  · rw [if_neg hrun] at hturn
    simp at hturn

theorem own_of_run {ts : List (Turn σ)} {root : ℕ} {x : σ}
    (hquiet : Machine.Along (AgentMcts.turn cfg) (Undisturbed cfg) (seed root x) ts)
    (hrun : Machine.exec (AgentMcts.turn cfg) (seed root x) ts = some s) :
    ∀ e ∈ s.expansions, e.Own s.sandbox.saved :=
  (Machine.invariant_along Inv.turn (inv_seed root x) hquiet hrun).own

end AgentMcts

namespace HostMcts

variable {s s' : HostMcts σ} {t : StepTurn σ} {maxExpansions n : ℕ} {node : Node} {x : σ}
  {abort : Bool}

/-- What holds between two iterations. -/
structure Inv (s : HostMcts σ) : Prop where
  /-- The marker is right, unless a failed step has moved the sandbox, or the node is finished and
  was verified. -/
  current : s.running = true → ∀ node, s.nodes[s.current]? = some node → node.finished = false →
    Still s.failed → s.sandbox.saved[node.ckptId]? = some s.sandbox.state
  known : ∀ node ∈ s.nodes, node.ckptId < s.sandbox.saved.length
  own : ∀ e ∈ s.expansions, e.Own s.sandbox.saved

theorem inv_seed (x : σ) : (seed x).Inv where
  current := by
    intro _ node hnode _ _
    simp only [seed, List.getElem?_cons_zero, Option.some.injEq] at hnode
    exact hnode ▸ rfl
  known := by simp [seed]
  own := by simp [seed]

theorem Inv.stop (h : s.Inv) : { s with running := false }.Inv where
  current := by simp
  known := h.known
  own := h.own

theorem rewind_frame (s : HostMcts σ) (n c : ℕ) :
    (s.rewind n c).sandbox.saved = s.sandbox.saved ∧ (s.rewind n c).nodes = s.nodes ∧
      (s.rewind n c).expansions = s.expansions ∧ (s.rewind n c).running = s.running ∧
      (s.rewind n c).current = n := by
  rw [rewind]
  split_ifs with hcurrent
  · exact ⟨rfl, rfl, rfl, rfl, hcurrent.symm⟩
  · exact ⟨rfl, rfl, rfl, rfl, rfl⟩

/-- Before the step the sandbox is where the checkpoint of the selected node has it. -/
theorem Inv.saved_rewind (h : s.Inv) (hrun : s.running = true) (hnode : s.nodes[n]? = some node)
    (hopen : node.finished = false) (hstill : n = s.current → Still s.failed) :
    s.sandbox.saved[node.ckptId]? = some (s.rewind n node.ckptId).sandbox.state := by
  rw [rewind]
  split_ifs with hcurrent
  · exact h.current hrun node (hcurrent ▸ hnode) hopen (hstill hcurrent)
  · have hx := List.getElem?_eq_getElem (h.known node (List.mem_of_getElem? hnode))
    rw [hx, Sandbox.state_restore hx]

theorem ckptId_of_mem_modify {nodes : List Node} {i : ℕ} {ids : List ℕ}
    (h : node ∈ nodes.modify i fun m => { m with children := m.children ++ ids }) :
    ∃ m ∈ nodes, node.ckptId = m.ckptId := by
  obtain ⟨j, hj⟩ := List.getElem?_of_mem h
  rw [List.getElem?_modify] at hj
  obtain ⟨m, hm, hnode⟩ := Option.map_eq_some_iff.mp hj
  refine ⟨m, List.mem_of_getElem? hm, ?_⟩
  rw [← hnode]
  split_ifs <;> rfl

/-- The checkpoint of the child. -/
theorem inv_record {e : Expansion σ} {es : List (Expansion σ)} {finished : Bool}
    (hknown : ∀ node ∈ s.nodes, node.ckptId < s.sandbox.saved.length)
    (hexp : s.expansions = e :: es) (hown : ∀ d ∈ e :: es, d.Own s.sandbox.saved)
    (hreached : s.sandbox.state = e.reached) : (s.record n finished).Inv where
  current := by
    intro _ node hnode _ _
    simp only [record] at hnode
    rw [List.getElem?_append_right (by rw [List.length_modify]), List.length_modify,
      Nat.sub_self] at hnode
    obtain rfl := Option.some.inj hnode
    exact Sandbox.saved_checkpoint_self
  known := by
    intro node hnode
    simp only [record, Sandbox.saved_checkpoint, List.length_append, List.length_singleton]
    rcases List.mem_append.mp hnode with hnode | hnode
    · obtain ⟨m, hm, hid⟩ := ckptId_of_mem_modify hnode
      have := hknown m hm
      omega
    · obtain rfl := List.mem_singleton.mp hnode
      exact Nat.lt_succ_self _
  own := by
    simp only [record, hexp]
    exact own_noteRecorded hown hreached

/-- A child that is verified is finished, and then it is no node to go on from. -/
theorem Inv.evaluate {finished : Bool} (h : s.Inv)
    (hcurrent : ∀ node, s.nodes[s.current]? = some node → node.finished = finished)
    (verify : σ → σ) : (s.evaluate finished verify).Inv := by
  rw [HostMcts.evaluate]
  split_ifs with hfinished
  · refine ⟨?_, h.known, h.own⟩
    intro _ node hnode hopen
    rw [hcurrent node hnode, hfinished] at hopen
    simp at hopen
  · exact h

theorem finished_record {finished : Bool} (node : Node)
    (hnode : (s.record n finished).nodes[(s.record n finished).current]? = some node) :
    node.finished = finished := by
  simp only [record] at hnode
  rw [List.getElem?_append_right (by rw [List.length_modify]), List.length_modify,
    Nat.sub_self] at hnode
  obtain rfl := Option.some.inj hnode
  rfl

theorem Inv.setRunning (h : s.Inv) (hrun : s.running = true) (r : Bool) :
    { s with running := r }.Inv where
  current := fun _ => h.current hrun
  known := h.known
  own := h.own

/-- The sandbox behind the step of the worker. -/
def stepped (s : HostMcts σ) (n ckptId : ℕ) (worker : σ → σ) : HostMcts σ :=
  (s.rewind n ckptId).step n ckptId worker

theorem Inv.stepped (h : s.Inv)
    (hstart : s.sandbox.saved[node.ckptId]? = some (s.rewind n node.ckptId).sandbox.state)
    (worker : σ → σ) :
    ∃ e es, (s.stepped n node.ckptId worker).expansions = e :: es ∧
      (∀ d ∈ e :: es, d.Own (s.stepped n node.ckptId worker).sandbox.saved) ∧
      (s.stepped n node.ckptId worker).sandbox.state = e.reached := by
  obtain ⟨hsaved, -, hexp, -⟩ := s.rewind_frame n node.ckptId
  refine ⟨_, _, rfl, ?_, rfl⟩
  intro d hd
  have hsaved' : (s.stepped n node.ckptId worker).sandbox.saved = s.sandbox.saved := hsaved
  rw [hsaved']
  rcases List.mem_cons.mp hd with rfl | hd
  · exact ⟨hstart, by simp⟩
  · exact h.own d (hexp ▸ hd)

/-- A step that failed is on record. -/
theorem Inv.skip (h : s.Inv) (hnode : s.nodes[n]? = some node)
    (hstart : s.sandbox.saved[node.ckptId]? = some (s.rewind n node.ckptId).sandbox.state)
    (worker : σ → σ) :
    ((s.stepped n node.ckptId worker).skip (s.rewind n node.ckptId).sandbox.state).Inv := by
  obtain ⟨hsaved, hnodes, -, -, hcur⟩ := s.rewind_frame n node.ckptId
  obtain ⟨e, es, hexp, hown, -⟩ := h.stepped hstart worker
  refine ⟨?_, ?_, ?_⟩
  · intro _ m hm _ hstill
    simp only [HostMcts.skip, HostMcts.stepped, step, hnodes, hcur] at hm
    obtain rfl := Option.some.inj (hnode.symm.trans hm)
    simp only [HostMcts.skip, HostMcts.stepped, step, still_cons, Sandbox.state_run] at hstill
    simp only [HostMcts.skip, HostMcts.stepped, step, Sandbox.saved_run, Sandbox.state_run, hsaved,
      ← hstill.1]
    exact hstart
  · simp only [HostMcts.skip, HostMcts.stepped, step, Sandbox.saved_run, hnodes, hsaved]
    exact h.known
  · simp only [HostMcts.skip, hexp]
    exact hown

/-- **One iteration.** -/
theorem Inv.turn (h : s.Inv) (hquiet : s.Undisturbed maxExpansions t)
    (hturn : s.turn abort maxExpansions t = some s') : s'.Inv := by
  rw [HostMcts.turn] at hturn
  by_cases hrun : s.running = true
  · rw [if_pos hrun] at hturn
    cases htarget : s.target maxExpansions t with
    | none =>
      simp only [htarget, Option.some.injEq] at hturn
      exact hturn ▸ h.stop
    | some n =>
      simp only [htarget] at hturn
      obtain ⟨node, hnode, hturn⟩ := Option.map_eq_some_iff.mp hturn
      obtain ⟨opened, hopened, hopen, -⟩ := select_open htarget
      obtain rfl := Option.some.inj (hnode.symm.trans hopened)
      have hstart := h.saved_rewind hrun hnode hopen fun heq => hquiet (heq ▸ htarget)
      by_cases hraises : n ≠ s.current ∧ t.restoreRaises = true
      · rw [if_pos hraises] at hturn
        exact hturn ▸ h.stop
      · rw [if_neg hraises] at hturn
        obtain ⟨hsaved, hnodes, -, hrunning, -⟩ := s.rewind_frame n node.ckptId
        obtain ⟨e, es, hexp, hown, hreached⟩ := h.stepped hstart t.worker
        have hknown : ∀ m ∈ (s.stepped n node.ckptId t.worker).nodes,
            m.ckptId < (s.stepped n node.ckptId t.worker).sandbox.saved.length := by
          simp only [HostMcts.stepped, step, Sandbox.saved_run, hnodes, hsaved]
          exact h.known
        have hstop : { s.stepped n node.ckptId t.worker with running := false }.Inv :=
          ⟨by simp, hknown, fun d hd => hown d (hexp ▸ hd)⟩
        have hfails : (if abort = true then
            { s.stepped n node.ckptId t.worker with running := false }
            else (s.stepped n node.ckptId t.worker).skip
              (s.rewind n node.ckptId).sandbox.state).Inv := by
          split_ifs
          · exact hstop
          · exact h.skip hnode hstart t.worker
        cases hreply : t.reply with
        | raises =>
          simp only [hreply] at hturn
          exact hturn ▸ hfails
        | notOk =>
          simp only [hreply] at hturn
          exact hturn ▸ hfails
        | ok finished =>
          simp only [hreply] at hturn
          by_cases hckpt : t.checkpointRaises = true
          · rw [if_pos hckpt] at hturn
            exact hturn ▸ hstop
          · rw [if_neg hckpt] at hturn
            rw [← hturn]
            refine ((inv_record hknown hexp hown hreached).evaluate finished_record
              t.verify).setRunning ?_ _
            rw [HostMcts.evaluate]
            split_ifs <;> exact hrunning.trans hrun
  · rw [if_neg hrun] at hturn
    simp at hturn

/-- `run_decoupled` never goes on behind a step that failed. -/
theorem failed_decoupled (hturn : s.turn true maxExpansions t = some s') :
    s'.running = true → s'.failed = [] := by
  rw [HostMcts.turn] at hturn
  by_cases hrun : s.running = true
  · rw [if_pos hrun] at hturn
    cases htarget : s.target maxExpansions t with
    | none =>
      simp only [htarget, Option.some.injEq] at hturn
      simp [← hturn]
    | some n =>
      simp only [htarget] at hturn
      obtain ⟨node, -, hturn⟩ := Option.map_eq_some_iff.mp hturn
      by_cases hraises : n ≠ s.current ∧ t.restoreRaises = true
      · rw [if_pos hraises] at hturn
        simp [← hturn]
      · rw [if_neg hraises] at hturn
        cases hreply : t.reply with
        | raises => simp [← hturn, hreply]
        | notOk => simp [← hturn, hreply]
        | ok finished =>
          simp only [hreply] at hturn
          split_ifs at hturn
          · simp [← hturn]
          · rw [← hturn]
            intro _
            simp only [HostMcts.evaluate]
            split_ifs <;> rfl
  · rw [if_neg hrun] at hturn
    simp at hturn

/-- Every turn of `run_decoupled` is undisturbed. -/
theorem own_of_decoupled {ts : List (StepTurn σ)}
    (hrun : Machine.exec (runDecoupled maxExpansions) (seed x) ts = some s) :
    ∀ e ∈ s.expansions, e.Own s.sandbox.saved := by
  refine (Machine.invariant (I := fun s : HostMcts σ => s.Inv ∧ (s.running = true → s.failed = []))
    ?_ ⟨inv_seed x, fun _ => rfl⟩ hrun).1.own
  rintro s t s' ⟨h, hfailed⟩ hturn
  refine ⟨h.turn (fun _ => ?_) hturn, failed_decoupled hturn⟩
  have hrunning : s.running = true := by
    by_contra hstopped
    rw [runDecoupled, HostMcts.turn, if_neg hstopped] at hturn
    simp at hturn
  rw [hfailed hrunning]
  exact still_nil

theorem own_of_run {ts : List (StepTurn σ)}
    (hquiet : Machine.Along (runRootMcts maxExpansions) (Undisturbed maxExpansions) (seed x) ts)
    (hrun : Machine.exec (runRootMcts maxExpansions) (seed x) ts = some s) :
    ∀ e ∈ s.expansions, e.Own s.sandbox.saved :=
  (Machine.invariant_along Inv.turn (inv_seed x) hquiet hrun).own

end HostMcts

/-- **Every node is expanded from its own checkpoint**, in every run of `run_decoupled`, and in the
runs of `AgentMCTS.run` and `run_root_mcts` whose turns are undisturbed: the action starts in the
state the checkpoint of the node holds, and the checkpoint recorded for the child holds the state
that the action has reached. -/
theorem expanded_from_own_checkpoint (x : σ) :
    (∀ (cfg : Config) (root : ℕ) (ts : List (Turn σ)) (s : AgentMcts σ),
      Machine.Along (AgentMcts.turn cfg) (AgentMcts.Undisturbed cfg) (.seed root x) ts →
      Machine.exec (AgentMcts.turn cfg) (.seed root x) ts = some s →
        ∀ e ∈ s.expansions, e.Own s.sandbox.saved) ∧
    (∀ (maxExpansions : ℕ) (ts : List (StepTurn σ)) (s : HostMcts σ),
      Machine.exec (runDecoupled maxExpansions) (.seed x) ts = some s →
        ∀ e ∈ s.expansions, e.Own s.sandbox.saved) ∧
    ∀ (maxExpansions : ℕ) (ts : List (StepTurn σ)) (s : HostMcts σ),
      Machine.Along (runRootMcts maxExpansions) (HostMcts.Undisturbed maxExpansions) (.seed x) ts →
      Machine.exec (runRootMcts maxExpansions) (.seed x) ts = some s →
        ∀ e ∈ s.expansions, e.Own s.sandbox.saved :=
  ⟨fun _ _ _ _ hquiet hrun => AgentMcts.own_of_run hquiet hrun,
    fun _ _ _ hrun => HostMcts.own_of_decoupled hrun,
    fun _ _ _ hquiet hrun => HostMcts.own_of_run hquiet hrun⟩

/-- A search that verifies its patches in the sandbox. -/
def verifyingConfig : Config where
  diffCaptureCwd := true
  diffBaseCwd := true
  liveVerifyCmd := true
  liveVerifyMax := 8
  sha1 := id

/-- An iteration that expands `n` with an edit that adds `1` to the sandbox. The patch is verified
before the checkpoint by a command that adds `k`. -/
def editTurn (n child k : ℕ) (diff : String) : Turn ℕ where
  expandable := [n]
  recovery := none
  selection := .node n
  restoreRaises := false
  child := some child
  agent := (· + 1)
  before := { attemptedEdit := true, patch := some diff,
              live := { effect := (· + k), raises := false }, hostRaises := false }
  checkpointRaises := false
  after := { attemptedEdit := true, patch := some diff,
             live := { effect := id, raises := false }, hostRaises := false }
  stops := false

/-- An iteration in which the step of the worker adds `1` to the sandbox. -/
def workerTurn (reply : Reply) : StepTurn ℕ where
  uct := id
  restoreRaises := false
  worker := (· + 1)
  reply := reply
  checkpointRaises := false
  verify := id
  evaluateRaises := false

/-- Two verified edits below the root, and a child of the root beside a step that fails where nothing
else comes. -/
theorem expanded_from_own_checkpoint_edits :
    (∃ s, Machine.exec (AgentMcts.turn verifyingConfig) (.seed 0 0)
        [editTurn 0 1 0 "a", editTurn 0 2 0 "b"] = some s ∧
      ∀ e ∈ s.expansions, e.Own s.sandbox.saved) ∧
    (∃ s, Machine.exec (runDecoupled 2) (.seed 0)
        [workerTurn (.ok false), workerTurn (.ok true), workerTurn .raises] = some s ∧
      ∀ e ∈ s.expansions, e.Own s.sandbox.saved) ∧
    ∃ s, Machine.exec (runRootMcts 2) (.seed 0)
        [workerTurn (.ok false), workerTurn (.ok true), workerTurn .raises] = some s ∧
      ∀ e ∈ s.expansions, e.Own s.sandbox.saved := by
  obtain ⟨hagent, hdecoupled, hroot⟩ := expanded_from_own_checkpoint (0 : ℕ)
  refine ⟨?_, ?_, ?_⟩
  · obtain ⟨s, hs⟩ := Option.isSome_iff_exists.mp (by decide +kernel :
      (Machine.exec (AgentMcts.turn verifyingConfig) (.seed 0 0)
        [editTurn 0 1 0 "a", editTurn 0 2 0 "b"]).isSome = true)
    exact ⟨s, hs, hagent _ _ _ s (by decide +kernel) hs⟩
  · obtain ⟨s, hs⟩ := Option.isSome_iff_exists.mp (by decide +kernel :
      (Machine.exec (runDecoupled 2) (.seed 0)
        [workerTurn (.ok false), workerTurn (.ok true), workerTurn .raises]).isSome = true)
    exact ⟨s, hs, hdecoupled _ _ s hs⟩
  · obtain ⟨s, hs⟩ := Option.isSome_iff_exists.mp (by decide +kernel :
      (Machine.exec (runRootMcts 2) (.seed 0)
        [workerTurn (.ok false), workerTurn (.ok true), workerTurn .raises]).isSome = true)
    exact ⟨s, hs, hroot _ _ s (by decide +kernel) hs⟩

/-- The run has an action that did not start in its node's checkpoint, or a child whose checkpoint
holds something else than the action has reached. -/
def foreign [DecidableEq σ] (saved : List σ) (es : List (Expansion σ)) : Bool :=
  es.any fun e => !decide (e.Own saved)

theorem exists_of_foreign [DecidableEq σ] {saved : List σ} {es : List (Expansion σ)}
    (h : foreign saved es = true) : ∃ e ∈ es, ¬e.Own saved := by
  simpa [foreign] using h

/-- What a verification writes before the checkpoint is saved with the child, and in `run_root_mcts`
the action behind a step that failed starts where that step has left the sandbox. -/
theorem verification_recorded :
    (∃ s, Machine.exec (AgentMcts.turn verifyingConfig) (.seed 0 0) [editTurn 0 1 5 "a"] = some s ∧
      ∃ e ∈ s.expansions, ¬e.Own s.sandbox.saved) ∧
    ∃ s, Machine.exec (runRootMcts 2) (.seed 0) [workerTurn .raises, workerTurn (.ok false)] =
        some s ∧
      ∃ e ∈ s.expansions, ¬e.Own s.sandbox.saved := by
  have hagent : (Machine.exec (AgentMcts.turn verifyingConfig) (.seed 0 0)
      [editTurn 0 1 5 "a"]).map (fun s => foreign s.sandbox.saved s.expansions) = some true := by
    decide +kernel
  have hroot : (Machine.exec (runRootMcts 2) (.seed 0)
      [workerTurn .raises, workerTurn (.ok false)]).map
        (fun s => foreign s.sandbox.saved s.expansions) = some true := by
    decide +kernel
  obtain ⟨s, hs, hforeign⟩ := Option.map_eq_some_iff.mp hagent
  obtain ⟨r, hr, hforeign'⟩ := Option.map_eq_some_iff.mp hroot
  exact ⟨⟨s, hs, exists_of_foreign hforeign⟩, r, hr, exists_of_foreign hforeign'⟩

end Search

end DeltaBox
