import DeltaBox.Restore.Returns

/-!
# The books of a restore

The controller keeps its own record of what is mounted: `current_upper` and `current_work` for the
task overlay, and three fields of each `RootOverlay`. Later calls trust this record, also after a
call that raised. Since a call stops only at the stages of `Left`, the record is right at all of
them, and then it is right after any number of calls.

## Main definitions

* `Core.Booked` — the books say what is mounted
* `RootOverlay.Later` — what becomes of a root overlay
* `Request`, `serve` — a run of the controller

## Main results

* `run_served` — one call
* `restores_consistent` — any number of calls
-/

namespace DeltaBox

namespace Restore

variable {env : Env} {cfg : Config}

/-! ### The books -/

/-- The books say what is mounted. -/
structure Core.Booked (x : Core) : Prop where
  upper : x.currentUpper = x.task.upper
  work : x.currentWork = x.task.work
  roots : ∀ o ∈ x.rootOverlays.getD [], o.mounted = ⟨o.lowerChain, o.upper, o.work⟩

/-- A root overlay some restores later. Its directories are the old ones, or directories made since. -/
structure RootOverlay.Later (o o' : RootOverlay) : Prop where
  root : o'.root = o.root
  n : o.n ≤ o'.n
  dirs : (o'.upper, o'.work) = (o.upper, o.work) ∨
    ∃ n, o.n < n ∧ n ≤ o'.n ∧ (o'.upper, o'.work) = RootOverlay.fresh { o with n := n }

theorem RootOverlay.Later.refl (o : RootOverlay) : o.Later o := ⟨rfl, Nat.le_refl _, .inl rfl⟩

theorem RootOverlay.Later.trans {o o' o'' : RootOverlay} (h : o.Later o') (h' : o'.Later o'') :
    o.Later o'' := by
  refine ⟨h'.root.trans h.root, Nat.le_trans h.n h'.n, ?_⟩
  rcases h'.dirs with hdirs | ⟨n, hlt, hle, hdirs⟩
  · rcases h.dirs with hdirs' | ⟨n, hlt, hle, hdirs'⟩
    · exact .inl (hdirs.trans hdirs')
    · exact .inr ⟨n, hlt, Nat.le_trans hle h'.n, hdirs.trans hdirs'⟩
  · refine .inr ⟨n, Nat.lt_of_le_of_lt h.n hlt, hle, ?_⟩
    rw [hdirs, RootOverlay.fresh, RootOverlay.fresh, h.root]

/-- What the rollback may do to one of them. -/
inductive RootOverlay.Moved (id : String) (o : RootOverlay) : RootOverlay → Prop where
  | same : Moved id o o
  | fresh : Moved id o { o with n := o.n + 1 }
  | rolled : Moved id o (o.rolledBack id)

theorem RootOverlay.Moved.later {id : String} {o o' : RootOverlay} (h : o.Moved id o') :
    o.Later o' := by
  cases h with
  | same => exact .refl o
  | fresh => exact ⟨rfl, Nat.le_succ _, .inl rfl⟩
  | rolled =>
    rw [RootOverlay.rolledBack]
    split
    · exact .refl o
    · exact ⟨rfl, Nat.le_succ _, .inr ⟨o.n + 1, Nat.lt_succ_self _, Nat.le_refl _, rfl⟩⟩

theorem RootOverlay.Moved.booked {id : String} {o o' : RootOverlay} (h : o.Moved id o')
    (ho : o.mounted = ⟨o.lowerChain, o.upper, o.work⟩) :
    o'.mounted = ⟨o'.lowerChain, o'.upper, o'.work⟩ := by
  cases h with
  | same => exact ho
  | fresh => exact ho
  | rolled =>
    rw [RootOverlay.rolledBack]
    split
    · exact ho
    · rfl

theorem forall₂_map_self {α : Type} {R : α → α → Prop} {f : α → α} (h : ∀ a, R a (f a))
    (as : List α) : List.Forall₂ R as (as.map f) := by
  induction as with
  | nil => exact .nil
  | cons a as ih => exact .cons (h a) ih

theorem Left.roots {id : String} {m : Mounted} {x y : Core} (h : Left id m x y) :
    List.Forall₂ (RootOverlay.Moved id) (x.rootOverlays.getD []) (y.rootOverlays.getD []) := by
  have hsame : ∀ os : List RootOverlay, List.Forall₂ (RootOverlay.Moved id) os os :=
    fun os => List.forall₂_same.mpr fun o _ => .same
  have hrolled : List.Forall₂ (RootOverlay.Moved id) (x.rootOverlays.getD [])
      ((x.rolledBack id).rootOverlays.getD []) := by
    rw [Core.rolledBack]
    split
    · cases x.rootOverlays with
      | none => exact .nil
      | some os => exact forall₂_map_self (fun _ => .rolled) os
    · exact hsame _
  cases h with
  | same => exact hsame _
  | rolled => exact hrolled
  | mounted => exact hrolled
  | active => exact hrolled
  | fresh k hk hcheck =>
    cases hos : x.rootOverlays with
    | none => simp [hos] at hk
    | some os =>
      have hlen : k < os.length := by simpa [hos] using hk
      have hsplit : os = os.take k ++ os[k] :: os.drop (k + 1) := by
        rw [← List.drop_eq_getElem_cons hlen, List.take_append_drop]
      have hmodify := modify_append_length (fun o : RootOverlay => { o with n := o.n + 1 })
        ((os.take k).map (RootOverlay.rolledBack id)) os[k] (os.drop (k + 1))
      rw [length_rolled hlen, ← rollFirst_split hlen] at hmodify
      simp only [Change.after, Core.rollFirst, hos, Option.map_some, Option.getD_some, hmodify]
      nth_rewrite 1 [hsplit]
      refine List.rel_append (forall₂_map_self (fun _ => .rolled) _) (.cons .fresh (hsame _))

theorem forall₂_right {α β : Type} {R : α → β → Prop} {p : β → Prop} {as : List α} {bs : List β}
    (h : List.Forall₂ R as bs) (hp : ∀ a ∈ as, ∀ b, R a b → p b) : ∀ b ∈ bs, p b := by
  induction h with
  | nil => exact fun b hb => absurd hb List.not_mem_nil
  | cons hab _ ih =>
    intro b hb
    rcases List.mem_cons.mp hb with rfl | hb
    · exact hp _ List.mem_cons_self _ hab
    · exact ih (fun a ha => hp a (List.mem_cons_of_mem _ ha)) b hb

theorem forall₂_later_trans {os os' os'' : List RootOverlay}
    (h : List.Forall₂ RootOverlay.Later os os') (h' : List.Forall₂ RootOverlay.Later os' os'') :
    List.Forall₂ RootOverlay.Later os os'' := by
  induction h generalizing os'' with
  | nil => exact h'
  | cons hab _ ih =>
    cases h' with
    | cons hbc h' => exact .cons (hab.trans hbc) (ih h')

/-- One stage after another, the books keep up. -/
theorem Left.booked {id : String} {m : Mounted} {x y : Core} (h : Left id m x y) (hx : x.Booked) :
    y.Booked := by
  have hroots := forall₂_right h.roots fun o ho o' hmoved => hmoved.booked (hx.roots o ho)
  have htask : y.currentUpper = y.task.upper ∧ y.currentWork = y.task.work := by
    have hrolled : (x.rolledBack id).currentUpper = (x.rolledBack id).task.upper ∧
        (x.rolledBack id).currentWork = (x.rolledBack id).task.work := by
      rw [Core.rolledBack]
      split
      · exact ⟨hx.upper, hx.work⟩
      · exact ⟨hx.upper, hx.work⟩
    cases h with
    | same => exact ⟨hx.upper, hx.work⟩
    | fresh => exact ⟨hx.upper, hx.work⟩
    | rolled => exact hrolled
    | mounted => exact ⟨rfl, rfl⟩
    | active => exact ⟨rfl, rfl⟩
  exact ⟨htask.1, htask.2, hroots⟩

theorem Core.rolledBack_fields (id : String) (x : Core) :
    (x.rolledBack id).task = x.task ∧ (x.rolledBack id).currentEpoch = x.currentEpoch := by
  rw [Core.rolledBack]
  split
  · exact ⟨rfl, rfl⟩
  · exact ⟨rfl, rfl⟩

/-- A call that does not get to its end does not start an epoch. -/
theorem Left.epoch {id : String} {m : Mounted} {x y : Core} (h : Left id m x y) :
    y.currentEpoch = x.currentEpoch := by
  have hrolled := (x.rolledBack_fields id).2
  cases h with
  | same => rfl
  | fresh => rfl
  | rolled => exact hrolled
  | mounted => exact hrolled
  | active => exact hrolled

/-- The task overlay is the old one or the new one, and nothing between. -/
theorem Left.task {id : String} {m : Mounted} {x y : Core} (h : Left id m x y) :
    y.task = x.task ∨ y.task = m := by
  have hrolled := (x.rolledBack_fields id).1
  cases h with
  | same => exact .inl rfl
  | fresh => exact .inl rfl
  | rolled => exact .inl hrolled
  | mounted => exact .inr rfl
  | active => exact .inr rfl

/-- A return is the last stage and a new epoch. -/
theorem Returned.last {allow : Bool} {id : String} {e : Entry} {m : Mounted} {x y : Core}
    {path : Path} (h : Returned env cfg allow id e m x path y) :
    ∃ z, Left id m x z ∧ y = z.bump := by
  cases h with
  | @warm child _ _ => exact ⟨_, .active true child, rfl⟩
  | @cold external pid _ _ _ =>
    cases pid with
    | none => exact ⟨_, .mounted, rfl⟩
    | some p => exact ⟨_, .active external p, rfl⟩

/-! ### Calls -/

/-- A call, and what the registry, the process table and the notes hold when it comes. -/
structure Request where
  env : Env
  cfg : Config
  targetId : String
  allowColdFallback : Bool
  restoreId : String
  registry : Dict String Entry
  procs : Dict ℕ Proc
  book : Book

/-- The sandbox that it finds. -/
def Request.box (q : Request) (x : Core) : Sandbox where
  agentPid := x.agentPid
  nsInitPid := x.nsInitPid
  currentUpper := x.currentUpper
  currentWork := x.currentWork
  task := x.task
  rootOverlays := x.rootOverlays
  registry := q.registry
  currentEpoch := x.currentEpoch
  procs := q.procs

/-- How it ends. -/
def Request.run (q : Request) (x : Core) : Except Err (Path × List String) × World :=
  call q.env q.cfg q.targetId q.allowColdFallback q.restoreId (q.box x) q.book

/-- The controller after some calls, and how many of them have returned. -/
def serve : List Request → Core → Core × ℕ
  | [], x => (x, 0)
  | q :: qs, x =>
    let rest := serve qs (q.run x).2.box.core
    match (q.run x).1 with
    | .ok _ => (rest.1, rest.2 + 1)
    | .error _ => rest

theorem serve_cons (q : Request) (qs : List Request) (x : Core) :
    (serve (q :: qs) x).1 = (serve qs (q.run x).2.box.core).1 ∧ (serve (q :: qs) x).2 =
      match (q.run x).1 with
      | .ok _ => (serve qs (q.run x).2.box.core).2 + 1
      | .error _ => (serve qs (q.run x).2.box.core).2 := by
  rw [serve]
  cases (q.run x).1 with
  | ok _ => exact ⟨rfl, rfl⟩
  | error _ => exact ⟨rfl, rfl⟩

/-- What one call does to the core. -/
structure Served (q : Request) (x y : Core) : Prop where
  booked : x.Booked → y.Booked
  task : y.task = x.task ∨ ∃ id e, Seen q.env (q.box x) id e ∧
    y.task = newTask q.cfg q.restoreId e.layers
  roots : List.Forall₂ RootOverlay.Later (x.rootOverlays.getD []) (y.rootOverlays.getD [])

theorem Left.served {q : Request} {id : String} {e : Entry} {x y : Core}
    (h : Left id (newTask q.cfg q.restoreId e.layers) x y) (hseen : Seen q.env (q.box x) id e) :
    Served q x y where
  booked := h.booked
  task := h.task.imp_right fun htask => ⟨id, e, hseen, htask⟩
  roots := h.roots.imp fun _ _ hmoved => hmoved.later

/-- **One call.** -/
theorem run_served (q : Request) (x : Core) :
    Served q x (q.run x).2.box.core ∧ (q.run x).2.box.core.currentEpoch =
      match (q.run x).1 with
      | .ok _ => x.currentEpoch + 1
      | .error _ => x.currentEpoch := by
  rcases hrun : q.run x with ⟨e | ⟨path, cmds⟩, w⟩
  · rcases (restore_stages hrun).2 e rfl with hsame | ⟨-, id, entry, -, -, hseen, hleft⟩
    · have hcore : w.box.core = x := hsame
      rw [hcore]
      exact ⟨⟨fun hx => hx, .inl rfl, List.forall₂_same.mpr fun o _ => .refl o⟩, rfl⟩
    · exact ⟨Left.served hleft hseen, Left.epoch hleft⟩
  · obtain ⟨-, id, entry, -, -, hseen, -, hreturned⟩ := (restore_stages hrun).1 path cmds rfl
    obtain ⟨z, hleft, hbump⟩ := hreturned.last
    have hserved : Served q x z := Left.served hleft hseen
    rw [hbump]
    refine ⟨⟨fun hx => ?_, hserved.task, hserved.roots⟩, congrArg (· + 1) (Left.epoch hleft)⟩
    exact ⟨(hserved.booked hx).upper, (hserved.booked hx).work, (hserved.booked hx).roots⟩

/-- **The books and the mounts agree after any number of restores**, whatever else goes on, and
whether the calls return or raise. The epoch counts those that return. The task overlay is the first
one, or that of a single call for the layers of an entry it has seen. No directory of a root overlay
is mounted again. -/
theorem restores_consistent (qs : List Request) (x : Core) (hx : x.Booked) :
    (serve qs x).1.Booked ∧
      (serve qs x).1.currentEpoch = x.currentEpoch + (serve qs x).2 ∧
      ((serve qs x).1.task = x.task ∨ ∃ q ∈ qs, ∃ y id e, Seen q.env (q.box y) id e ∧
        (serve qs x).1.task = newTask q.cfg q.restoreId e.layers) ∧
      List.Forall₂ RootOverlay.Later (x.rootOverlays.getD [])
        ((serve qs x).1.rootOverlays.getD []) := by
  induction qs generalizing x with
  | nil => exact ⟨hx, rfl, .inl rfl, List.forall₂_same.mpr fun o _ => .refl o⟩
  | cons q qs ih =>
    obtain ⟨hserved, hepoch⟩ := run_served q x
    obtain ⟨hbooked, hepochs, htask, hroots⟩ := ih _ (hserved.booked hx)
    obtain ⟨hend, hcount⟩ := serve_cons q qs x
    rw [hend, hcount]
    refine ⟨hbooked, ?_, ?_, forall₂_later_trans hserved.roots hroots⟩
    · rw [hepochs, hepoch]
      cases (q.run x).1 with
      | ok _ => exact Nat.add_right_comm _ _ _
      | error _ => rfl
    · rcases htask with htask | ⟨q', hq', htask⟩
      · refine hserved.task.imp (fun h => htask.trans h) ?_
        rintro ⟨id, e, hseen, h⟩
        exact ⟨q, List.mem_cons_self, x, id, e, hseen, htask.trans h⟩
      · exact .inr ⟨q', List.mem_cons_of_mem _ hq', htask⟩

/-- A restore of "l", while a template of "a" is there. -/
def forkRequest : Request where
  env := forkingEnv
  cfg := exampleConfig
  targetId := "l"
  allowColdFallback := false
  restoreId := "r"
  registry := templateBox.registry
  procs := templateBox.procs
  book := templateBook

theorem restores_consistent_forked :
    (serve [forkRequest, { forkRequest with targetId := "m" }] templateBox.core).1.Booked ∧
      (serve [forkRequest, { forkRequest with targetId := "m" }] templateBox.core).1.currentEpoch =
        4 := by
  obtain ⟨hbooked, hepoch, -⟩ := restores_consistent
    [forkRequest, { forkRequest with targetId := "m" }] templateBox.core
    ⟨rfl, rfl, fun o ho => absurd ho List.not_mem_nil⟩
  exact ⟨hbooked, hepoch.trans (by decide +kernel)⟩

end Restore

end DeltaBox
