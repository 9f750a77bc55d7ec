import DeltaBox.Index.Refinement

/-!
# Snapshots of the index are isolated

After a snapshot is restored, every query is answered as it was when the snapshot was taken. On
values this is immediate. The sidecar has it because it behaves as on values, whatever tables it
shares.

## Main results

* `snapshots_isolated` — the answers after a restore are those after the latest snapshot
-/

namespace DeltaBox

namespace Index

variable {h : Host} {s : Sidecar}

/-- A request other than a snapshot under this name. -/
def Call.leaves (id : String) : Call → Bool
  | .snapshot id' => id' ≠ id
  | _ => true

/-- The answer to a query depends on what the tables hold. -/
theorem answer_congr {t : Sidecar} (hindex : t.index = s.index) (q : Query) :
    answer h t q = answer h s q := by
  cases q <;> simp only [answer, hindex]

/-- Another request leaves the copy of that name. -/
theorem plainCall_snapshots {x : Plain} {c : Call} {id : String} (hc : c.leaves id = true)
    (tree : Tree) :
    (plainCall h tree x c).1.snapshots.find? id = x.snapshots.find? id := by
  cases c with
  | build root => simp only [plainCall]
  | refreshPath path root => simp only [plainCall]
  | snapshot id' =>
    have hne : id ≠ id' := by
      rintro rfl
      simp [Call.leaves] at hc
    simp only [plainCall]
    split_ifs
    · rfl
    · exact Dict.find?_set_of_ne _ _ hne
  | restoreSnapshot id' =>
    simp only [plainCall]
    split_ifs
    · rfl
    · cases x.snapshots.find? id' <;> rfl

/-- What the snapshot of a name holds, after requests that leave it. -/
theorem run_snapshots (hs : s.Sound) {id : String} {calls : List (Tree × Call)}
    (hcalls : ∀ c ∈ calls, c.2.leaves id = true) :
    (run h s calls).plain.snapshots.find? id = s.plain.snapshots.find? id := by
  induction calls generalizing s with
  | nil => rfl
  | cons c calls ih =>
    obtain ⟨hsound, hplain⟩ := call_spec hs h c.1 c.2
    have hstep : (call h c.1 s c.2).1.plain.snapshots.find? id = s.plain.snapshots.find? id := by
      rw [show (call h c.1 s c.2).1.plain = (plainCall h c.1 s.plain c.2).1 from
        congrArg Prod.fst hplain]
      exact plainCall_snapshots (hcalls c List.mem_cons_self) c.1
    exact (ih hsound fun c' hc' => hcalls c' (List.mem_cons_of_mem _ hc')).trans hstep

/-- **Snapshots are isolated.** Take any requests, a snapshot that succeeds, any requests but a
snapshot under the same name, and a restore. The restore succeeds, and then every query is answered
as it was right after the snapshot. A restore of a name without a snapshot changes nothing. -/
theorem snapshots_isolated (h : Host) (before between : List (Tree × Call)) (id : String)
    (t₁ t₂ : Tree) :
    ((call h t₁ (run h Sidecar.start before) (.snapshot id)).2 = .done →
      (∀ c ∈ between, c.2.leaves id = true) →
      let taken := (call h t₁ (run h Sidecar.start before) (.snapshot id)).1
      let restored := call h t₂ (run h taken between) (.restoreSnapshot id)
      restored.2 = .done ∧ ∀ q, answer h restored.1 q = answer h taken q) ∧
    ((run h Sidecar.start before).snapshots.find? id = none →
      (call h t₁ (run h Sidecar.start before) (.restoreSnapshot id)).1 =
        run h Sidecar.start before) := by
  have hs := Sidecar.Sound.start.run h before
  refine ⟨fun hdone hbetween => ?_, fun hnone => ?_⟩
  · intro taken restored
    -- a snapshot that succeeds has a name, and keeps the live index
    have htaken : taken = { run h Sidecar.start before with
        snapshots := (run h Sidecar.start before).snapshots.set id
          (run h Sidecar.start before).state } ∧ id ≠ "" := by
      simp only [call, snapshot] at hdone
      split_ifs at hdone with hbad
      · exact ⟨by simp only [taken, call, snapshot, if_neg hbad], fun hid => hbad (.inl hid)⟩
    have hsound : taken.Sound := (call_spec hs h t₁ (.snapshot id)).1
    have hcopy : taken.plain.snapshots.find? id = some taken.index := by
      rw [htaken.1]
      simp only [Sidecar.plain, Dict.find?_map, Dict.find?_set_self]
      rfl
    have hkept := (run_snapshots (h := h) hsound hbetween).trans hcopy
    obtain ⟨top, htop, hindex⟩ := Option.map_eq_some_iff.mp
      ((Dict.find?_map _ _ _).symm.trans hkept)
    have hrestored : restored = ({ run h taken between with state := top }, .done) := by
      simp only [restored, call, restoreSnapshot, if_neg htaken.2, htop]
    rw [hrestored]
    exact ⟨rfl, answer_congr (t := { run h taken between with state := top }) hindex⟩
  · simp only [call, restoreSnapshot, hnone]
    split_ifs <;> rfl

/-! ### A file that changes -/

/-- A parser for texts that are a class name, or nothing. -/
def oneClass : Host where
  cwd := "/"
  cwd_abs := Posix.isabs_root
  workerRoot := "/testbed"
  maxFileBytes := 100
  maxTotalBytes := 1000
  parse := fun text => .names (if text = "" then [] else [text]) []
  regex := fun _ => none
  sha256 := id

/-- A tree with one file. -/
def oneFile (text : String) : Tree where
  dir := fun root => if root = "/r" then some (.mk ["a.py"] []) else none
  stat := fun path => if path = "/r/a.py" then some ⟨text.length, 0, true⟩ else none
  read := fun path => if path = "/r/a.py" then some text else none

/-- The class of the file was renamed and the file refreshed, and another snapshot was taken. The
restore brings the old class back. -/
theorem snapshots_isolated_renamed :
    let before := [(oneFile "A", Call.build (some "/r"))]
    let between := [(oneFile "B", Call.refreshPath "a.py" none), (oneFile "B", .snapshot "t")]
    let taken := (call oneClass (oneFile "A") (run oneClass Sidecar.start before)
      (.snapshot "s")).1
    let restored := call oneClass (oneFile "B") (run oneClass taken between) (.restoreSnapshot "s")
    answer oneClass (run oneClass taken between) (.findSymbol "A" (some "class") none) ≠
      answer oneClass taken (.findSymbol "A" (some "class") none) ∧
    ∀ q, answer oneClass restored.1 q = answer oneClass taken q :=
  ⟨by decide +kernel, ((snapshots_isolated oneClass [(oneFile "A", .build (some "/r"))]
    [(oneFile "B", .refreshPath "a.py" none), (oneFile "B", .snapshot "t")] "s" (oneFile "A")
    (oneFile "B")).1 (by decide +kernel) (by decide +kernel)).2⟩

end Index

end DeltaBox
