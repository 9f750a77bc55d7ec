import DeltaBox.Lib.Dict
import Mathlib.Data.Int.Order.Basic
import Mathlib.Data.List.Sort
import Mathlib.Order.Basic

/-!
# Which patch is exported

A search has captured a patch at each of its nodes, and several nodes may have the same patch.
`run_one` verifies some of the patches, each text once, and notes the outcome on one of the nodes.
`_rank` then looks at each node for itself: the verifier's signal comes first, and only then leaf, depth
and length. So a node whose text was verified on another node ranks as if it had not been verified.

A text counts as failed when a verification of it has failed and none has passed.

## What is given

The nodes of the tree, what is clean and what is executable in a patch, the digests of the patches, the
verifier and the live verifications answer as they like.

## Main definitions

* `Search.candidates`, `Search.toVerify`, `Search.finalPatch` — `run_one` between search and export
* `Candidate.rank` — `_rank`
* `ExportsBest` — what is wanted of the export
* `Search.Agrees` — the condition

## Main results

* `exports_best_iff` — when the export is what is wanted
* `failed_patch_exported` — an export that is not
-/

namespace DeltaBox

namespace Eval

/-- What `_verify_candidate_patch` returns, as far as `_rank` asks for it. -/
structure Verification where
  attempted : Bool
  passed : Bool
  reason : String
  deriving DecidableEq

/-- What a live verification has returned. -/
structure Live where
  passed : Bool
  envError : Bool
  returncode : Option ℤ
  deriving DecidableEq

/-- What is asked of a node. -/
structure NodeInfo where
  terminal : Bool
  isLeaf : Bool
  depth : ℕ

/-- An entry of `candidate_patches`. -/
structure Candidate where
  nodeId : ℕ
  terminal : Bool
  isLeaf : Bool
  depth : ℕ
  patch : String
  hasExecutableChange : Bool
  liveVerification : Option Live
  verification : Option Verification
  deriving DecidableEq

/-- What a search leaves, and what `run_one` is told. -/
structure Search where
  /-- `result.diff_by_node`. -/
  diffByNode : Dict ℕ String
  /-- `node_by_id`. -/
  nodeById : ℕ → Option NodeInfo
  /-- `result.verify_by_node`. -/
  verifyByNode : ℕ → Option Live
  cleanPatch : String → String
  patchHasExecutableChange : String → Bool
  sha1 : String → String
  verifyCandidatePatch : String → Verification
  verifyCandidates : Bool
  verifyMaxCandidates : ℤ

/-! ### Assembling the candidates -/

/-- The candidate of a node. -/
def Search.candidate (s : Search) (nid : ℕ) (diff : String) : Option Candidate :=
  (s.nodeById nid).map fun node =>
    { nodeId := nid
      terminal := node.terminal
      isLeaf := node.isLeaf
      depth := node.depth
      patch := s.cleanPatch diff
      hasExecutableChange := s.patchHasExecutableChange (s.cleanPatch diff)
      liveVerification := s.verifyByNode nid
      verification := none }

/-- `candidate_patches`. -/
def Search.candidates (s : Search) : List Candidate :=
  s.diffByNode.entries.filterMap fun e => s.candidate e.1 e.2

/-- `c["diff_len"] > 0 and c["has_executable_change"]`. -/
def Candidate.eligible (c : Candidate) : Bool := 0 < c.patch.length && c.hasExecutableChange

/-- `key` of `ranked_for_verify`. -/
def Candidate.verifyKey (c : Candidate) : List ℤ := [c.depth, c.isLeaf.toNat, c.patch.length]

/-- `ranked_for_verify`. Candidates with equal keys stay in their order. -/
def Search.rankedForVerify (s : Search) : List Candidate :=
  (s.candidates.filter Candidate.eligible).insertionSort fun c c' => ¬ c.verifyKey < c'.verifyKey

/-- The loop that fills `to_verify`. -/
def pick (sha1 : String → String) (max : ℤ) : List Candidate → List String → List Candidate →
    List Candidate
  | [], _, picked => picked
  | c :: cs, seen, picked =>
    if sha1 c.patch ∈ seen then pick sha1 max cs seen picked
    else if max ≤ (picked ++ [c]).length then picked ++ [c]
    else pick sha1 max cs (sha1 c.patch :: seen) (picked ++ [c])

/-- `to_verify`. -/
def Search.toVerify (s : Search) : List Candidate :=
  if s.verifyCandidates then pick s.sha1 s.verifyMaxCandidates s.rankedForVerify [] [] else []

/-- The node's patch is verified. -/
def Search.picked (s : Search) (c : Candidate) : Bool := c.nodeId ∈ s.toVerify.map Candidate.nodeId

/-- A candidate after the verification. -/
def Search.verified (s : Search) (c : Candidate) : Candidate :=
  if s.picked c then { c with verification := some (s.verifyCandidatePatch c.patch) } else c

/-- `candidate_patches` after the verification. -/
def Search.recorded (s : Search) : List Candidate := s.candidates.map s.verified

/-! ### Ranking -/

/-- The reasons of a verification that say nothing. -/
def neutralReasons : List String := ["no_fail_to_pass_tests", "timeout", "test_command_invalid"]

/-- `verification_failed`. -/
def Verification.failed (v : Verification) : Bool :=
  v.attempted && !v.passed && decide (v.reason ∉ neutralReasons)

/-- `live_failed`. -/
def Live.failed (l : Live) : Bool :=
  !l.passed && !l.envError && decide (l.returncode ≠ none) && decide (l.returncode ≠ some 124)

/-- `verifier_signal`. -/
def verifierSignal (v : Option Verification) (l : Option Live) : ℤ :=
  if v.any (·.passed) then 4
  else if l.any (·.passed) then 3
  else if v.any (·.reason = "syntax_error") then -2
  else if v.any (·.failed) || l.any (·.failed) then -1
  else 2

/-- The signal of a candidate. -/
def Candidate.signal (c : Candidate) : ℤ := verifierSignal c.verification c.liveVerification

/-- `_rank`. -/
def Candidate.rank (c : Candidate) : List ℤ :=
  [c.signal, c.terminal.toNat, c.isLeaf.toNat, c.depth, -c.patch.length]

/-- `max(…, key=_rank)`: the first of the best. -/
def maxRank : List Candidate → Option Candidate
  | [] => none
  | c :: cs => some (cs.foldl (fun best c => if best.rank < c.rank then c else best) c)

/-- `non_empty_candidates`. -/
def Search.nonEmptyCandidates (s : Search) : List Candidate := s.recorded.filter Candidate.eligible

/-- `final_patch`. -/
def Search.finalPatch (s : Search) : String := ((maxRank s.nonEmptyCandidates).map Candidate.patch).getD ""

/-! ### What is wanted -/

/-- A verification of the candidate has passed. -/
def Candidate.passes (c : Candidate) : Bool :=
  c.verification.any (·.passed) || c.liveVerification.any (·.passed)

/-- A verification of the candidate has failed. -/
def Candidate.fails (c : Candidate) : Bool :=
  c.verification.any (fun v => v.reason = "syntax_error" || v.failed) ||
    c.liveVerification.any (·.failed)

/-- The text has a passed verification. -/
def Passed (cs : List Candidate) (text : String) : Prop :=
  ∃ c ∈ cs, c.patch = text ∧ c.passes = true

/-- The text has a failed verification, and no passed one. -/
def Failed (cs : List Candidate) (text : String) : Prop :=
  (∃ c ∈ cs, c.patch = text ∧ c.fails = true) ∧ ¬ Passed cs text

/-- The export is never a patch that was verified to fail while there is a better one. -/
structure ExportsBest (cs : List Candidate) (final : String) : Prop where
  same : ∀ c ∈ cs, ∀ c' ∈ cs, c.patch = c'.patch → c.signal = c'.signal
  passed : (∃ c ∈ cs, Passed cs c.patch) → Passed cs final
  failed : Failed cs final → ∀ c ∈ cs, c.eligible = true → Failed cs c.patch

/-! ### The condition -/

/-- With `v`, a node that was live-verified as `l` is as good as one that was live-verified as `l'`. -/
structure Alike (v : Option Verification) (l l' : Option Live) : Prop where
  notPassed : v.any (·.passed) = false
  live : l.any (·.passed) = l'.any (·.passed)
  failed : l'.any (·.passed) = false → v.any (·.reason = "syntax_error") = false ∧
    (v.any (·.failed) || l.any (·.failed)) = l'.any (·.failed)

/-- The outcome of a verification of the text, if one is made, on the node that it is noted on. -/
def Search.outcome (s : Search) (c : Candidate) : Option Verification :=
  if s.picked c then some (s.verifyCandidatePatch c.patch) else none

/-- Where nodes share a patch, its verification and their live verifications agree. And a patch that is
not up for export passes live only if one that is up for export passes, or there is none. -/
structure Search.Agrees (s : Search) : Prop where
  shared : ∀ c ∈ s.candidates, ∀ c' ∈ s.candidates, c.nodeId ≠ c'.nodeId → c.patch = c'.patch →
    s.picked c' = false → Alike (s.outcome c) c.liveVerification c'.liveVerification
  other : (∃ c ∈ s.candidates, c.eligible = false ∧ c.liveVerification.any (·.passed) = true) →
    (∃ c ∈ s.candidates, c.eligible = true ∧ ((s.outcome c).any (·.passed) = true ∨
        c.liveVerification.any (·.passed) = true)) ∨
      (∀ c ∈ s.candidates, c.eligible = false) ∧
        ∃ c ∈ s.candidates, c.patch = "" ∧ c.liveVerification.any (·.passed) = true

variable {s : Search} {c c' : Candidate} {cs : List Candidate}

/-! ### What is verified -/

theorem pick_subset (sha1 : String → String) (max : ℤ) (cs : List Candidate) (seen : List String)
    (picked : List Candidate) : pick sha1 max cs seen picked ⊆ picked ++ cs := by
  induction cs generalizing seen picked with
  | nil => simp [pick]
  | cons c cs ih =>
    rw [pick]
    split_ifs
    · exact List.Subset.trans (ih seen picked) (by simp)
    · simp
    · exact List.Subset.trans (ih _ _) (by simp)

/-- The digests of the picked patches differ. -/
theorem pick_nodup (sha1 : String → String) (max : ℤ) (cs : List Candidate) (seen : List String)
    (picked : List Candidate) (hseen : ∀ c ∈ picked, sha1 c.patch ∈ seen)
    (hnodup : (picked.map fun c => sha1 c.patch).Nodup) :
    ((pick sha1 max cs seen picked).map fun c => sha1 c.patch).Nodup := by
  induction cs generalizing seen picked with
  | nil => exact hnodup
  | cons c cs ih =>
    rw [pick]
    split_ifs with hmem hmax
    · exact ih seen picked hseen hnodup
    all_goals
      have hnew : ((picked ++ [c]).map fun c => sha1 c.patch).Nodup := by
        rw [List.map_append, List.map_singleton]
        refine hnodup.append (List.nodup_singleton _) (List.disjoint_singleton.mpr fun hin => ?_)
        obtain ⟨c', hc', heq⟩ := List.mem_map.mp hin
        exact hmem (heq ▸ hseen c' hc')
    · exact hnew
    · refine ih _ _ (fun c' hc' => ?_) hnew
      rcases List.mem_append.mp hc' with hc' | hc'
      · exact List.mem_cons_of_mem _ (hseen c' hc')
      · rw [List.mem_singleton.mp hc']
        exact List.mem_cons_self

theorem mem_candidates : c ∈ s.candidates ↔
    ∃ nid diff, s.diffByNode.find? nid = some diff ∧ s.candidate nid diff = some c := by
  simp only [Search.candidates, List.mem_filterMap, Prod.exists, Dict.find?_eq_some_iff]

/-- A node has one candidate. -/
theorem candidate_ext (hc : c ∈ s.candidates) (hc' : c' ∈ s.candidates) (h : c.nodeId = c'.nodeId) :
    c = c' := by
  obtain ⟨nid, diff, hdiff, hcand⟩ := mem_candidates.mp hc
  obtain ⟨nid', diff', hdiff', hcand'⟩ := mem_candidates.mp hc'
  have hid : c.nodeId = nid := by
    obtain ⟨node, -, rfl⟩ := Option.map_eq_some_iff.mp hcand
    rfl
  have hid' : c'.nodeId = nid' := by
    obtain ⟨node, -, rfl⟩ := Option.map_eq_some_iff.mp hcand'
    rfl
  obtain rfl : nid = nid' := hid.symm.trans (h.trans hid')
  obtain rfl := Option.some.inj (hdiff.symm.trans hdiff')
  exact Option.some.inj (hcand.symm.trans hcand')

/-- What a candidate says beyond its node comes from its patch. -/
theorem candidate_fields (hc : c ∈ s.candidates) :
    c.hasExecutableChange = s.patchHasExecutableChange c.patch ∧ c.verification = none := by
  obtain ⟨nid, diff, -, hcand⟩ := mem_candidates.mp hc
  obtain ⟨node, -, rfl⟩ := Option.map_eq_some_iff.mp hcand
  exact ⟨rfl, rfl⟩

theorem eligible_congr (hc : c ∈ s.candidates) (hc' : c' ∈ s.candidates) (h : c.patch = c'.patch) :
    c.eligible = c'.eligible := by
  rw [Candidate.eligible, Candidate.eligible, (candidate_fields hc).1, (candidate_fields hc').1, h]

theorem mem_toVerify (h : c ∈ s.toVerify) : c ∈ s.candidates ∧ c.eligible = true := by
  unfold Search.toVerify at h
  split_ifs at h
  · have hmem := pick_subset _ _ _ _ _ h
    rw [List.nil_append, Search.rankedForVerify, List.mem_insertionSort] at hmem
    exact List.mem_filter.mp hmem
  · cases h

theorem picked_iff (hc : c ∈ s.candidates) : s.picked c = true ↔ c ∈ s.toVerify := by
  rw [Search.picked, decide_eq_true_eq, List.mem_map]
  refine ⟨?_, fun h => ⟨c, h, rfl⟩⟩
  rintro ⟨c', hc', hid⟩
  rwa [candidate_ext hc (mem_toVerify hc').1 hid.symm]

/-- A text is verified on one node. -/
theorem picked_unique (hc : c ∈ s.candidates) (hc' : c' ∈ s.candidates) (h : c.patch = c'.patch)
    (hpicked : s.picked c = true) (hpicked' : s.picked c' = true) : c = c' := by
  rw [picked_iff hc] at hpicked
  rw [picked_iff hc'] at hpicked'
  have hnodup : (s.toVerify.map fun c => s.sha1 c.patch).Nodup := by
    unfold Search.toVerify
    split_ifs
    · exact pick_nodup _ _ _ _ _ (fun _ h => nomatch h) List.nodup_nil
    · exact List.nodup_nil
  exact List.inj_on_of_nodup_map hnodup hpicked hpicked' (by rw [h])

theorem verified_patch (s : Search) (c : Candidate) : (s.verified c).patch = c.patch := by
  unfold Search.verified
  split_ifs <;> rfl

theorem verified_eligible (s : Search) (c : Candidate) : (s.verified c).eligible = c.eligible := by
  unfold Search.verified
  split_ifs <;> rfl

theorem verified_live (s : Search) (c : Candidate) :
    (s.verified c).liveVerification = c.liveVerification := by
  unfold Search.verified
  split_ifs <;> rfl

theorem verified_verification (hc : c ∈ s.candidates) :
    (s.verified c).verification = s.outcome c := by
  unfold Search.verified Search.outcome
  split_ifs
  · rfl
  · exact (candidate_fields hc).2

/-! ### Signals -/

theorem alike_iff {v : Option Verification} {l l' : Option Live} :
    Alike v l l' ↔ verifierSignal v l = verifierSignal none l' := by
  have halike : Alike v l l' ↔ v.any (·.passed) = false ∧ l.any (·.passed) = l'.any (·.passed) ∧
      (l'.any (·.passed) = false → v.any (·.reason = "syntax_error") = false ∧
        (v.any (·.failed) || l.any (·.failed)) = l'.any (·.failed)) :=
    ⟨fun h => ⟨h.notPassed, h.live, h.failed⟩, fun h => ⟨h.1, h.2.1, h.2.2⟩⟩
  rw [halike, verifierSignal, verifierSignal]
  generalize v.any (·.passed) = vp
  generalize l.any (·.passed) = lp
  generalize l'.any (·.passed) = lp'
  generalize v.any (fun v => decide (v.reason = "syntax_error")) = sy
  generalize v.any (·.failed) = vf
  generalize l.any (·.failed) = lf
  generalize l'.any (·.failed) = lf'
  revert vp lp lp' sy vf lf lf'
  simp only [Option.any_none]
  decide

theorem passes_iff : c.passes = true ↔ 3 ≤ c.signal := by
  unfold Candidate.passes Candidate.signal verifierSignal
  generalize c.verification.any (·.passed) = vp
  generalize c.liveVerification.any (·.passed) = lp
  split_ifs <;> simp_all

/-- A failed verification counts unless another has passed. -/
theorem signal_neg_iff : c.signal < 0 ↔ c.fails = true ∧ c.passes = false := by
  have hfails : c.fails = (c.verification.any (·.reason = "syntax_error") ||
      c.verification.any (·.failed) || c.liveVerification.any (·.failed)) := by
    unfold Candidate.fails
    cases c.verification <;> rfl
  rw [hfails]
  unfold Candidate.passes Candidate.signal verifierSignal
  generalize c.verification.any (·.passed) = vp
  generalize c.liveVerification.any (·.passed) = lp
  generalize c.verification.any (fun v => decide (v.reason = "syntax_error")) = sy
  generalize c.verification.any (·.failed) = vf
  generalize c.liveVerification.any (·.failed) = lf
  revert vp lp sy vf lf
  decide

theorem signal_le_of_not_lt (h : ¬ c.rank < c'.rank) : c'.signal ≤ c.signal := by
  by_contra hlt
  exact h (List.cons_lt_cons_iff.mpr (.inl (not_le.mp hlt)))

theorem signal_le_of_lt (h : c.rank < c'.rank) : c.signal ≤ c'.signal := by
  rcases List.cons_lt_cons_iff.mp h with hlt | ⟨heq, -⟩
  · exact hlt.le
  · exact heq.le

theorem foldl_best (cs : List Candidate) (c : Candidate) :
    let best := cs.foldl (fun best c => if best.rank < c.rank then c else best) c
    best ∈ c :: cs ∧ ∀ c' ∈ c :: cs, c'.signal ≤ best.signal := by
  induction cs generalizing c with
  | nil => simp
  | cons c' cs ih =>
    simp only [List.foldl_cons]
    split_ifs with hlt
    · obtain ⟨hmem, hbest⟩ := ih c'
      refine ⟨List.mem_cons_of_mem _ hmem, fun x hx => ?_⟩
      rcases List.mem_cons.mp hx with rfl | hx
      · exact (signal_le_of_lt hlt).trans (hbest c' List.mem_cons_self)
      · exact hbest x hx
    · obtain ⟨hmem, hbest⟩ := ih c
      refine ⟨?_, fun x hx => ?_⟩
      · rcases List.mem_cons.mp hmem with hmem | hmem
        · rw [hmem]
          exact List.mem_cons_self
        · exact List.mem_cons_of_mem _ (List.mem_cons_of_mem _ hmem)
      · rcases List.mem_cons.mp hx with rfl | hx
        · exact hbest x List.mem_cons_self
        · rcases List.mem_cons.mp hx with rfl | hx
          · exact (signal_le_of_not_lt hlt).trans (hbest c List.mem_cons_self)
          · exact hbest x (List.mem_cons_of_mem _ hx)

/-- The final patch is that of a candidate with the best signal. -/
theorem finalPatch_cases (s : Search) :
    (s.nonEmptyCandidates = [] ∧ s.finalPatch = "") ∨
      ∃ best ∈ s.nonEmptyCandidates, s.finalPatch = best.patch ∧
        ∀ c ∈ s.nonEmptyCandidates, c.signal ≤ best.signal := by
  unfold Search.finalPatch
  cases s.nonEmptyCandidates with
  | nil => exact .inl ⟨rfl, rfl⟩
  | cons c cs =>
    obtain ⟨hmem, hbest⟩ := foldl_best cs c
    exact .inr ⟨_, hmem, rfl, hbest⟩

/-! ### The export -/

theorem mem_nonEmptyCandidates : c ∈ s.nonEmptyCandidates ↔
    ∃ c₀ ∈ s.candidates, c₀.eligible = true ∧ s.verified c₀ = c := by
  rw [Search.nonEmptyCandidates, List.mem_filter, Search.recorded, List.mem_map]
  constructor
  · rintro ⟨⟨c₀, hc₀, rfl⟩, heligible⟩
    exact ⟨c₀, hc₀, (verified_eligible s c₀).symm.trans heligible, rfl⟩
  · rintro ⟨c₀, hc₀, heligible, rfl⟩
    exact ⟨⟨c₀, hc₀, rfl⟩, (verified_eligible s c₀).trans heligible⟩

theorem mem_recorded (hc : c ∈ s.candidates) : s.verified c ∈ s.recorded :=
  List.mem_map_of_mem hc

theorem passes_verified (hc : c ∈ s.candidates) : (s.verified c).passes = true ↔
    (s.outcome c).any (·.passed) = true ∨ c.liveVerification.any (·.passed) = true := by
  rw [Candidate.passes, verified_verification hc, verified_live, Bool.or_eq_true]

/-- A patch that is not up for export is not verified. -/
theorem outcome_of_not_eligible (hc : c ∈ s.candidates) (h : c.eligible = false) :
    s.outcome c = none := by
  rw [Search.outcome, if_neg]
  intro hpicked
  rw [(mem_toVerify ((picked_iff hc).mp hpicked)).2] at h
  cases h

/-- **Equal patches have equal signals when what was noted on their nodes agrees, and not otherwise.** -/
theorem same_iff : (∀ c ∈ s.recorded, ∀ c' ∈ s.recorded, c.patch = c'.patch → c.signal = c'.signal) ↔
    ∀ c ∈ s.candidates, ∀ c' ∈ s.candidates, c.nodeId ≠ c'.nodeId → c.patch = c'.patch →
      s.picked c' = false → Alike (s.outcome c) c.liveVerification c'.liveVerification := by
  have hsignal : ∀ {c}, c ∈ s.candidates →
      (s.verified c).signal = verifierSignal (s.outcome c) c.liveVerification := by
    intro c hc
    rw [Candidate.signal, verified_verification hc, verified_live]
  constructor
  · intro h c hc c' hc' _ hpatch hpicked
    have heq := h _ (mem_recorded hc) _ (mem_recorded hc') (by
      rw [verified_patch, verified_patch, hpatch])
    rw [hsignal hc, hsignal hc', show s.outcome c' = none from if_neg (by simp [hpicked])] at heq
    exact alike_iff.mpr heq
  · intro h d hd d' hd' hpatch
    obtain ⟨c, hc, rfl⟩ := List.mem_map.mp hd
    obtain ⟨c', hc', rfl⟩ := List.mem_map.mp hd'
    rw [verified_patch, verified_patch] at hpatch
    have hone : ∀ {c c' : Candidate}, c ∈ s.candidates → c' ∈ s.candidates → c.nodeId ≠ c'.nodeId →
        c.patch = c'.patch → s.picked c' = false → (s.verified c).signal = (s.verified c').signal := by
      intro c c' hc hc' hne hpatch hpicked
      rw [hsignal hc, hsignal hc', show s.outcome c' = none from if_neg (by simp [hpicked])]
      exact alike_iff.mp (h c hc c' hc' hne hpatch hpicked)
    by_cases hne : c.nodeId = c'.nodeId
    · rw [candidate_ext hc hc' hne]
    · by_cases hpicked' : s.picked c' = true
      · have hpicked : s.picked c = false := by
          by_contra hpicked
          rw [picked_unique hc hc' hpatch (by simpa using hpicked) hpicked'] at hne
          exact hne rfl
        exact (hone hc' hc (Ne.symm hne) hpatch.symm hpicked).symm
      · exact hone hc hc' hne hpatch (by simpa using hpicked')

/-- A candidate that is up for export and passes makes the final patch pass. -/
theorem passed_of_eligible (hc : c ∈ s.candidates) (heligible : c.eligible = true)
    (hpasses : (s.verified c).passes = true) : Passed s.recorded s.finalPatch := by
  have hmem : s.verified c ∈ s.nonEmptyCandidates := mem_nonEmptyCandidates.mpr ⟨c, hc, heligible, rfl⟩
  rcases finalPatch_cases s with ⟨hnone, -⟩ | ⟨best, hbest, hfinal, hmax⟩
  · rw [hnone] at hmem
    cases hmem
  · refine ⟨best, (List.mem_filter.mp hbest).1, hfinal.symm, ?_⟩
    exact passes_iff.mpr ((passes_iff.mp hpasses).trans (hmax _ hmem))

/-- **What the export needs, exactly.** -/
theorem exports_best_iff (s : Search) : ExportsBest s.recorded s.finalPatch ↔ s.Agrees := by
  constructor
  · intro h
    refine ⟨same_iff.mp h.same, ?_⟩
    rintro ⟨c, hc, heligible, hlive⟩
    have hpassed := h.passed ⟨s.verified c, mem_recorded hc, s.verified c, mem_recorded hc, rfl,
      (passes_verified hc).mpr (.inr hlive)⟩
    obtain ⟨d, hd, hpatch, hpasses⟩ := hpassed
    obtain ⟨c', hc', rfl⟩ := List.mem_map.mp hd
    rw [verified_patch] at hpatch
    rcases finalPatch_cases s with ⟨hnone, hfinal⟩ | ⟨best, hbest, hfinal, -⟩
    · have hall : ∀ c ∈ s.candidates, c.eligible = false := by
        intro x hx
        by_contra hne
        have hmem := mem_nonEmptyCandidates.mpr ⟨x, hx, by simpa using hne, rfl⟩
        rw [hnone] at hmem
        cases hmem
      refine .inr ⟨hall, c', hc', hpatch.trans hfinal, ?_⟩
      have hor := (passes_verified hc').mp hpasses
      rw [outcome_of_not_eligible hc' (hall c' hc')] at hor
      exact hor.resolve_left (by simp)
    · obtain ⟨c₀, hc₀, heligible₀, rfl⟩ := mem_nonEmptyCandidates.mp hbest
      rw [hfinal, verified_patch] at hpatch
      refine .inl ⟨c', hc', ?_, (passes_verified hc').mp hpasses⟩
      rw [eligible_congr hc' hc₀ hpatch, heligible₀]
  · intro h
    have hsame := same_iff.mpr h.shared
    refine ⟨hsame, ?_, ?_⟩
    · rintro ⟨-, -, d, hd, -, hpasses⟩
      obtain ⟨c, hc, rfl⟩ := List.mem_map.mp hd
      by_cases heligible : c.eligible = true
      · exact passed_of_eligible hc heligible hpasses
      · have hnot : c.eligible = false := by simpa using heligible
        have hor := (passes_verified hc).mp hpasses
        rw [outcome_of_not_eligible hc hnot] at hor
        rcases h.other ⟨c, hc, hnot, hor.resolve_left (by simp)⟩ with
          ⟨c', hc', heligible', hor'⟩ | ⟨hall, c', hc', hempty, hlive⟩
        · exact passed_of_eligible hc' heligible' ((passes_verified hc').mpr hor')
        · rcases finalPatch_cases s with ⟨-, hfinal⟩ | ⟨best, hbest, -, -⟩
          · refine ⟨_, mem_recorded hc', ?_, (passes_verified hc').mpr (.inr hlive)⟩
            rw [verified_patch, hempty, hfinal]
          · obtain ⟨c₀, hc₀, heligible₀, -⟩ := mem_nonEmptyCandidates.mp hbest
            rw [hall c₀ hc₀] at heligible₀
            cases heligible₀
    · rintro ⟨⟨d, hd, hpatch, hfails⟩, hnotPassed⟩ x hx heligible
      rcases finalPatch_cases s with ⟨hnone, -⟩ | ⟨best, hbest, hfinal, hmax⟩
      · have hmem : x ∈ s.nonEmptyCandidates := List.mem_filter.mpr ⟨hx, heligible⟩
        rw [hnone] at hmem
        cases hmem
      · have hneg : d.signal < 0 := by
          refine signal_neg_iff.mpr ⟨hfails, ?_⟩
          by_contra hpasses
          exact hnotPassed ⟨d, hd, hpatch, by simpa using hpasses⟩
        have hbestNeg : best.signal < 0 := by
          rwa [hsame best (List.mem_filter.mp hbest).1 d hd (hfinal.symm.trans hpatch.symm)]
        have hxNeg : x.signal < 0 :=
          (hmax x (List.mem_filter.mpr ⟨hx, heligible⟩)).trans_lt hbestNeg
        refine ⟨⟨x, hx, rfl, (signal_neg_iff.mp hxNeg).1⟩, ?_⟩
        rintro ⟨y, hy, hxy, hpasses⟩
        have hy3 := passes_iff.mp hpasses
        rw [hsame y hy x hx hxy] at hy3
        omega

/-- Two nodes have the patch `A`, which fails on the deeper one, and the verification of the third node's
patch runs out of time. -/
def exampleSearch : Search where
  diffByNode := ⟨[(1, "A"), (2, "A"), (3, "B")], by decide⟩
  nodeById nid := some ⟨false, true, 4 - nid⟩
  verifyByNode _ := none
  cleanPatch diff := diff
  patchHasExecutableChange _ := true
  sha1 patch := patch
  verifyCandidatePatch patch := ⟨true, false, if patch = "A" then "tests_failed" else "timeout"⟩
  verifyCandidates := true
  verifyMaxCandidates := 5

/-- The other node of `A` ranks as not verified, and wins. -/
theorem failed_patch_exported :
    exampleSearch.finalPatch = "A" ∧
      exampleSearch.recorded.any (fun c => c.patch = "A" ∧ c.fails) = true ∧
      exampleSearch.recorded.all (fun c => c.patch = "A" || !c.fails) = true ∧
      ¬ ExportsBest exampleSearch.recorded exampleSearch.finalPatch := by
  refine ⟨by decide, by decide, by decide, fun h => ?_⟩
  have hsame := h.same
  revert hsame
  decide

end Eval

end DeltaBox
