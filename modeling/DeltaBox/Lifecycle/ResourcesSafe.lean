import DeltaBox.Lifecycle.ResourceFacts

/-!
# What a replay owns is never mixed up

At most one descriptor has no owner, that of the item that is next. The descriptors of the namespaces
that are to be killed are those of the namespaces that are owned, each of them once.

## Main definitions

* `Item.Fits`, `Item.Waits` — what is true where an item is next, or further down
* `Ready`, `Turn` — the world in front of an item, and what the item leads to
* `Inv` — the invariant

## Main results

* `next_spec` — an item
* `inv_step`, `inv_of_exec` — a step, and a run
* `resources_safe` — signals and descriptors
-/

namespace DeltaBox

namespace Resources

open Pidfd (Proc Kernel Ledger)
open Pidfd.Kernel (byPid_eq_some byId_eq_some pinned_eq_some)

variable {w w' : World} {item : Item} {items : List Item} {a : Answer} {p : Proc}
  {pid id fd n self : ℕ} {o : Option ℕ}

/-! ### Items -/

/-- The descriptor that an item will close or store. -/
def Item.held : Item → Option ℕ
  | .store _ fd _ | .closeMount fd | .check _ _ fd _ | .strike _ _ fd _ | .await _ _ fd _
  | .drop _ fd _ _ => some fd
  | _ => none

/-- The namespace that is to be killed. -/
def Item.kills : Item → Option ℕ
  | .kill pid _ | .gone pid _ | .close pid _ _ => some pid
  | _ => none

/-- The namespace whose entry is set or removed. -/
def Item.edits : Item → Option ℕ
  | .store pid _ _ | .close pid _ _ => some pid
  | _ => none

/-- It belongs to `own_namespace`. -/
def Item.isOwn : Item → Bool
  | .look _ | .opening _ _ | .store _ _ _ => true
  | _ => false

/-- An item may stand further down. -/
def Item.Waits (w : World) : Item → Prop
  | .kill pid fd => w.namespaces.find? pid = some fd
  | .stop _ s => s = .poll
  | .children _ | .abortDumps _ | .pool _ | .restamp _ | .cache _ _ | .mount _ | .overlays _
  | .callbacks | .other _ | .finish _ => True
  | _ => False

/-- An item may be next. -/
def Item.Fits (w : World) : Item → Prop
  | .kill pid fd | .gone pid fd | .close pid fd _ => w.namespaces.find? pid = some fd
  | .opening pid previous => previous = w.namespaces.find? pid
  | .store pid fd previous => previous = w.namespaces.find? pid ∧
      ∃ id, w.os.fds.find? fd = some id ∧ (pid, id) ∈ w.owned
  | .each n _ => w.Runs n
  | .check n pid fd _ => w.Runs n ∧ ∃ id, w.os.fds.find? fd = some id ∧ w.Had id pid
  | .strike n _ fd _ => w.Runs n ∧ ∃ id, w.os.fds.find? fd = some id ∧
      ∀ p ∈ w.os.procs, p.id = id → w.Right p (.launcherChild n)
  | .await n _ _ _ => w.Runs n
  | .drop n _ _ none => w.Runs n
  | _ => True

theorem Item.Waits.fits (h : item.Waits w) : item.Fits w := by
  cases item <;> first | exact h | exact h.elim | exact trivial

theorem Item.Waits.held (h : item.Waits w) : item.held = none := by
  cases item <;> first | rfl | exact h.elim

theorem Item.Waits.isOwn (h : item.Waits w) : item.isOwn = false := by
  cases item <;> first | rfl | exact h.elim

theorem Item.Waits.ne (h : item.Waits w) : item ≠ .killNamespaces := by
  rintro rfl
  exact h

/-- Only a namespace that is to be killed matters. -/
theorem Item.Waits.keep (h : item.Waits w)
    (hkeep : ∀ pid, item.kills = some pid → w'.namespaces.find? pid = w.namespaces.find? pid) :
    item.Waits w' := by
  cases item with
  | kill pid fd => exact (hkeep pid rfl).trans h
  | _ => exact h

/-! ### The world in front of an item -/

/-- The world, with the descriptor that nobody owns. -/
structure Ready (w : World) (o : Option ℕ) : Prop where
  facts : Facts w
  ledger : Ledger w.os w.own o
  wrong : w.os.wrong = false

/-- What an item leads to. -/
structure Turn (w : World) (item : Item) (w' : World) (items : List Item) : Prop where
  ready : Ready w' (items.head?.bind Item.held)
  head : ∀ i ∈ items.head?, i.Fits w'
  rest : ∀ i ∈ items.tail, i.Waits w'
  later : Later w w'
  keeps : ∀ pid, some pid ≠ item.edits → w'.namespaces.find? pid = w.namespaces.find? pid
  kills : items.filterMap Item.kills = [] ∨ items.filterMap Item.kills = item.kills.toList ∨
    item = .killNamespaces ∧ (items.filterMap Item.kills).Nodup
  own : item.isOwn = true → items.tail = []
  fresh : ∀ i ∈ items.head?, (i.isOwn = true → item.isOwn = true) ∧ i ≠ .killNamespaces

/-- Nothing is left of an item. -/
theorem Turn.nil (hready : Ready w' none) (hlater : Later w w')
    (hkeeps : ∀ pid, some pid ≠ item.edits → w'.namespaces.find? pid = w.namespaces.find? pid) :
    Turn w item w' [] where
  ready := hready
  head := nofun
  rest := nofun
  later := hlater
  keeps := hkeeps
  kills := .inl rfl
  own _ := rfl
  fresh := nofun

/-- Another item comes in its place. -/
theorem Turn.one {i : Item} (hready : Ready w' i.held) (hlater : Later w w')
    (hkeeps : w'.namespaces = w.namespaces) (hfits : i.Fits w')
    (hkills : i.kills = none ∨ i.kills = item.kills) (hown : i.isOwn = true → item.isOwn = true)
    (hne : i ≠ .killNamespaces) : Turn w item w' [i] where
  ready := hready
  head j hj := by obtain rfl := Option.some.inj hj; exact hfits
  rest := nofun
  later := hlater
  keeps pid _ := by rw [hkeeps]
  kills := by
    obtain hnone | heq := hkills
    · exact .inl (by simp [hnone])
    · refine .inr (.inl ?_)
      rw [← heq]
      cases hi : i.kills <;> simp [hi]
  own _ := rfl
  fresh j hj := by obtain rfl := Option.some.inj hj; exact ⟨hown, hne⟩

theorem Ready.of_eq (h : Ready w o) (hos : w'.os = w.os) (hparents : w'.parents = w.parents)
    (hpopens : w'.popens = w.popens) (hnamespaces : w'.namespaces = w.namespaces)
    (hsignals : w'.signals = w.signals) (howned : w'.owned = w.owned)
    (hcontrollers : ∀ i : ℕ, (w'.controllers[i]?).bind Controller.mountFd =
      (w.controllers[i]?).bind Controller.mountFd) : Ready w' o where
  facts := h.facts.of_eq hos hparents hpopens hnamespaces hsignals howned
  ledger := by
    rw [hos, World.own_congr hnamespaces hcontrollers]
    exact h.ledger
  wrong := hos ▸ h.wrong

theorem Ready.errors (h : Ready w o) (errors : List String) :
    Ready { w with cleanupErrors := errors } o :=
  h.of_eq rfl rfl rfl rfl rfl rfl fun _ => rfl

theorem later_errors (errors : List String) : Later w { w with cleanupErrors := errors } :=
  .of_eq rfl rfl rfl (List.Subset.refl _) rfl

theorem Ready.report (h : Ready w o) (name error : String) : Ready (w.report name error) o :=
  h.errors _

theorem later_report (name error : String) : Later w (w.report name error) := later_errors _

/-- A call of `_cleanup` may add an error. -/
theorem World.call_cases {name : String} (h : w.call name a = some w') :
    ∃ errors, w' = { w with cleanupErrors := errors } := by
  cases a with
  | ok => exact ⟨_, (Option.some.inj h).symm⟩
  | fails error => exact ⟨_, (Option.some.inj h).symm⟩
  | no => cases h
  | vanished => cases h
  | fd n => cases h
  | pids l => cases h

theorem Ready.poll (h : Ready w o) (n : ℕ) : Ready (w.poll n) o := by
  obtain ⟨hfds, hwrong, hnamespaces, hcontrollers⟩ := w.poll_same n
  refine ⟨h.facts.poll n, ?_, hwrong.trans h.wrong⟩
  rw [World.own_congr hnamespaces fun _ => by rw [hcontrollers]]
  exact h.ledger.of_fds hfds

theorem Ready.sendSignal (h : Ready w o) (n : ℕ) : Ready (w.sendSignal n) o := by
  obtain ⟨hfds, hwrong, hnamespaces, hcontrollers⟩ := w.sendSignal_same n
  refine ⟨h.facts.sendSignal n, ?_, hwrong.trans h.wrong⟩
  rw [World.own_congr hnamespaces fun _ => by rw [hcontrollers]]
  exact h.ledger.of_fds hfds

/-- A signal to the process of a descriptor. -/
theorem World.send_cases {why : Why} (h : w.send fd why = some w') :
    ∃ p, w.os.pinned fd = some p ∧ w' = { w with signals := w.signals ++ [(p, why)] } := by
  obtain ⟨p, hp, rfl⟩ := Option.map_eq_some_iff.mp h
  exact ⟨p, hp, rfl⟩

theorem Ready.signal {why : Why} (h : Ready w o) (hright : w.Right p why) :
    Ready { w with signals := w.signals ++ [(p, why)] } o where
  facts := h.facts.signal hright
  ledger := h.ledger
  wrong := h.wrong

theorem later_signal {why : Why} : Later w { w with signals := w.signals ++ [(p, why)] } :=
  .of_eq rfl rfl rfl (List.Subset.refl _) rfl

/-! ### Descriptors -/

/-- The descriptors, the namespaces and what is owned are changed. -/
theorem Facts.edit (h : Facts w) {os : Kernel} {namespaces : Dict ℕ ℕ} {owned : List (ℕ × ℕ)}
    (hok : os.Ok) (hprocs : os.procs = w.os.procs) (hnext : os.next = w.os.next)
    (howned : w.owned ⊆ owned) (hhad : ∀ e ∈ owned, w.Had e.2 e.1)
    (hnamespaces : ∀ pid fd, namespaces.find? pid = some fd →
      ∃ id, os.fds.find? fd = some id ∧ (pid, id) ∈ owned) :
    Facts { w with os, namespaces, owned } := by
  have hlater : Later w { w with os, namespaces, owned } := .of_eq hprocs hnext rfl howned rfl
  exact {
    os := hok
    positive := hnext.symm ▸ h.positive
    ids := h.ids
    past := hnext.symm ▸ h.past
    alive := hprocs.symm ▸ h.alive
    owned := fun e he => (hhad e he).later hlater
    namespaces := hnamespaces
    signals := fun e he => (h.signals e he).later hlater }

/-- A process is pinned, and perhaps owned from now on. -/
theorem Ready.pin (h : Ready w none) (hfree : w.os.fds.find? fd = none) (hp : p ∈ w.os.procs)
    {owned : List (ℕ × ℕ)} (howned : w.owned ⊆ owned) (hhad : ∀ e ∈ owned, w.Had e.2 e.1) :
    Ready { w with os := w.os.pin fd p.id, owned } (some fd) where
  facts := h.facts.edit (h.facts.os.pin hp) rfl rfl howned hhad fun pid fd' hfd' => by
    obtain ⟨id, hid, hmem⟩ := h.facts.namespaces pid fd' hfd'
    refine ⟨id, ?_, howned hmem⟩
    rw [Kernel.pin, Dict.find?_set_of_ne _ _ fun heq => by simp [heq, hfree] at hid, hid]
  ledger := h.ledger.pin hfree
  wrong := h.wrong

/-- What is held is closed. -/
theorem Ready.drop (h : Ready w (some fd)) : Ready { w with os := w.os.close fd } none where
  facts := h.facts.edit h.facts.os.close rfl rfl (List.Subset.refl _) h.facts.owned
    fun pid fd' hfd' => by
      obtain ⟨id, hid, hmem⟩ := h.facts.namespaces pid fd' hfd'
      refine ⟨id, ?_, hmem⟩
      rw [Kernel.close, Dict.find?_erase_of_ne, hid]
      rintro rfl
      exact h.ledger.held_apart (.namespacePid pid) fd' rfl hfd'
  ledger := h.ledger.drop
  wrong := h.ledger.wrong_drop.trans h.wrong

theorem later_close {os : Kernel} {namespaces : Dict ℕ ℕ} (hprocs : os.procs = w.os.procs)
    (hnext : os.next = w.os.next) : Later w { w with os, namespaces } :=
  .of_eq hprocs hnext rfl (List.Subset.refl _) rfl

/-- A namespace is not owned any more. -/
theorem Ready.pop (h : Ready w none) (hfd : w.namespaces.find? pid = some fd) :
    Ready { w with os := w.os.close fd, namespaces := w.namespaces.erase pid } none where
  facts := h.facts.edit h.facts.os.close rfl rfl (List.Subset.refl _) h.facts.owned
    fun pid' fd' hfd' => by
      rw [Dict.find?_erase] at hfd'
      split_ifs at hfd' with hne
      obtain ⟨id, hid, hmem⟩ := h.facts.namespaces pid' fd' hfd'
      refine ⟨id, ?_, hmem⟩
      rw [Kernel.close, Dict.find?_erase_of_ne, hid]
      rintro rfl
      exact hne (Key.namespacePid.inj (h.ledger.apart (.namespacePid pid') (.namespacePid pid) fd' hfd' hfd))
  ledger := by
    have hown : w.own (.namespacePid pid) = some fd := hfd
    rw [World.own_erase (w := { w with os := w.os.close fd })]
    exact h.ledger.pop hown
  wrong := by
    have hown : w.own (.namespacePid pid) = some fd := hfd
    exact (h.ledger.wrong_close hown).trans h.wrong

/-- A namespace is owned. The descriptor that it had before is closed. -/
theorem Ready.store (h : Ready w (some fd)) (hid : w.os.fds.find? fd = some id)
    (hmem : (pid, id) ∈ w.owned) :
    Ready { w with
      os := (w.namespaces.find? pid).elim w.os w.os.close
      namespaces := w.namespaces.set pid fd } none := by
  cases hprevious : w.namespaces.find? pid with
  | none =>
    have hown : w.own (.namespacePid pid) = none := hprevious
    refine ⟨h.facts.edit h.facts.os rfl rfl (List.Subset.refl _) h.facts.owned
      fun pid' fd' hfd' => ?_, ?_, h.wrong⟩
    · rw [Dict.find?_set] at hfd'
      split_ifs at hfd' with heq
      · obtain rfl := Option.some.inj hfd'
        exact ⟨id, hid, heq ▸ hmem⟩
      · exact h.facts.namespaces pid' fd' hfd'
    · rw [World.own_set (w := { w with os := (none : Option ℕ).elim w.os w.os.close })]
      exact h.ledger.store hown
  | some old =>
    have hown : w.own (.namespacePid pid) = some old := hprevious
    have hne : fd ≠ old := by
      rintro rfl
      exact h.ledger.held_apart (.namespacePid pid) fd rfl hprevious
    refine ⟨h.facts.edit h.facts.os.close rfl rfl (List.Subset.refl _) h.facts.owned
      fun pid' fd' hfd' => ?_, ?_, ?_⟩
    · rw [Dict.find?_set] at hfd'
      rw [Option.elim_some, Kernel.close]
      split_ifs at hfd' with heq
      · obtain rfl := Option.some.inj hfd'
        exact ⟨id, by rw [Dict.find?_erase_of_ne _ hne, hid], heq ▸ hmem⟩
      · obtain ⟨id', hid', hmem'⟩ := h.facts.namespaces pid' fd' hfd'
        refine ⟨id', ?_, hmem'⟩
        rw [Dict.find?_erase_of_ne, hid']
        rintro rfl
        exact heq (Key.namespacePid.inj
          (h.ledger.apart (.namespacePid pid') (.namespacePid pid) fd' hfd' hprevious))
    · rw [World.own_set (w := { w with os := (some old).elim w.os w.os.close })]
      exact h.ledger.swap hown
    · exact (h.ledger.wrong_close hown).trans h.wrong

/-! ### The items in turn -/

theorem ownNamespace_spec (h : Ready w item.held) (hfits : item.Fits w)
    (hnext : w.ownNamespace self item a = some (w', items)) : Turn w item w' items := by
  unfold World.ownNamespace at hnext
  split at hnext
  · -- the pid is looked up
    rename_i pid
    split_ifs at hnext
    · obtain ⟨rfl, rfl⟩ := Prod.mk.inj (Option.some.inj hnext)
      exact .nil h (Later.refl w) fun _ _ => rfl
    · split at hnext
      · rename_i previous hprevious
        obtain ⟨rfl, rfl⟩ := Prod.mk.inj (Option.some.inj hnext)
        split_ifs
        · exact .one h (Later.refl w) rfl hprevious.symm (.inl rfl) (fun _ => rfl) nofun
        · exact .nil h (Later.refl w) fun _ _ => rfl
      · rename_i hnone
        obtain ⟨rfl, rfl⟩ := Prod.mk.inj (Option.some.inj hnext)
        exact .one h (Later.refl w) rfl hnone.symm (.inl rfl) (fun _ => rfl) nofun
  · -- the descriptor is opened
    rename_i pid previous fd
    split_ifs at hnext with hfree
    obtain ⟨p, hp, heq⟩ := Option.map_eq_some_iff.mp hnext
    obtain ⟨rfl, rfl⟩ := Prod.mk.inj heq
    obtain ⟨hmem, hpid⟩ := byPid_eq_some hp
    have hhad : w.Had p.id pid := ⟨h.facts.os.fresh p hmem, fun q hq hid => by
      rw [h.facts.os.ids q hq p hmem hid, hpid]⟩
    have howned : ∀ e ∈ w.owned ++ [(pid, p.id)], w.Had e.2 e.1 := by
      intro e he
      rcases List.mem_append.mp he with he | he
      · exact h.facts.owned e he
      · obtain rfl := List.mem_singleton.mp he
        exact hhad
    exact .one (h.pin hfree hmem (List.subset_append_left _ _) howned)
      (.of_eq rfl rfl rfl (List.subset_append_left _ _) rfl) rfl
      ⟨hfits, p.id, Dict.find?_set_self _ _ _, List.mem_append_right _ List.mem_cons_self⟩
      (.inl rfl) (fun _ => rfl) nofun
  · split_ifs at hnext
    obtain ⟨rfl, rfl⟩ := Prod.mk.inj (Option.some.inj hnext)
    exact .nil h (Later.refl w) fun _ _ => rfl
  · obtain ⟨rfl, rfl⟩ := Prod.mk.inj (Option.some.inj hnext)
    exact .nil h (Later.refl w) fun _ _ => rfl
  · -- the entry is set
    rename_i pid fd previous
    obtain ⟨rfl, rfl⟩ := Prod.mk.inj (Option.some.inj hnext)
    obtain ⟨rfl, id, hid, hmem⟩ := hfits
    refine .nil (h.store hid hmem) (later_close ?_ ?_) fun pid' hne => ?_
    · cases w.namespaces.find? pid <;> rfl
    · cases w.namespaces.find? pid <;> rfl
    · exact Dict.find?_set_of_ne _ _ fun heq => hne (congrArg some heq)
  · cases hnext

/-- The descriptors of the namespaces, one for each. -/
theorem nodup_kills (d : Dict ℕ ℕ) :
    ((d.entries.map fun e => Item.kill e.1 e.2).filterMap Item.kills).Nodup := by
  rw [List.filterMap_map]
  have heq : (Item.kills ∘ fun e : ℕ × ℕ => Item.kill e.1 e.2) = some ∘ Prod.fst := rfl
  rw [heq, List.filterMap_eq_map]
  exact d.nodup

theorem killNamespace_spec (h : Ready w item.held) (hfits : item.Fits w)
    (hnext : w.killNamespace item a = some (w', items)) : Turn w item w' items := by
  unfold World.killNamespace at hnext
  split at hnext
  · -- all of them
    obtain ⟨rfl, rfl⟩ := Prod.mk.inj (Option.some.inj hnext)
    have hwaits : ∀ i ∈ w.namespaces.entries.map fun e => Item.kill e.1 e.2, i.Waits w := by
      intro i hi
      obtain ⟨e, he, rfl⟩ := List.mem_map.mp hi
      exact Dict.find?_eq_some_iff.mpr he
    refine ⟨?_, fun i hi => (hwaits i (List.mem_of_mem_head? hi)).fits,
      fun i hi => hwaits i (List.mem_of_mem_tail hi), Later.refl w, fun _ _ => rfl,
      .inr (.inr ⟨rfl, nodup_kills _⟩), nofun, fun i hi => ?_⟩
    · cases hl : w.namespaces.entries.map fun e => Item.kill e.1 e.2 with
      | nil => exact h
      | cons i l =>
        have hi : i.held = none := (hwaits i (hl ▸ List.mem_cons_self)).held
        rw [List.head?_cons, Option.bind_some, hi]
        exact h
    · have hwait := hwaits i (List.mem_of_mem_head? hi)
      rw [hwait.isOwn]
      exact ⟨nofun, hwait.ne⟩
  · -- the signal
    rename_i pid fd
    obtain ⟨rfl, rfl⟩ := Prod.mk.inj (Option.some.inj hnext)
    cases hsend : w.send fd (.namespacePid pid) with
    | none => exact .one h (Later.refl w) rfl hfits (.inr rfl) (fun h => h) nofun
    | some w₁ =>
      obtain ⟨p, hp, rfl⟩ := World.send_cases hsend
      obtain ⟨hfd, hmem⟩ := pinned_eq_some hp
      obtain ⟨id, hid, howned⟩ := h.facts.namespaces pid fd hfits
      obtain rfl := Option.some.inj (hfd.symm.trans hid)
      have hright : w.Right p (.namespacePid pid) :=
        ⟨(h.facts.owned _ howned).2 p hmem rfl, howned⟩
      exact .one (h.signal hright) later_signal rfl hfits (.inr rfl) (fun h => h) nofun
  · obtain ⟨rfl, rfl⟩ := Prod.mk.inj (Option.some.inj hnext)
    exact .one h (Later.refl w) rfl hfits (.inr rfl) (fun h => h) nofun
  · split_ifs at hnext
    obtain ⟨rfl, rfl⟩ := Prod.mk.inj (Option.some.inj hnext)
    exact .one h (Later.refl w) rfl hfits (.inr rfl) (fun h => h) nofun
  · split_ifs at hnext
    obtain ⟨rfl, rfl⟩ := Prod.mk.inj (Option.some.inj hnext)
    exact .one h (Later.refl w) rfl hfits (.inr rfl) (fun h => h) nofun
  · obtain ⟨rfl, rfl⟩ := Prod.mk.inj (Option.some.inj hnext)
    exact .one h (Later.refl w) rfl hfits (.inr rfl) (fun h => h) nofun
  · -- the entry is removed
    rename_i pid fd error
    obtain ⟨rfl, rfl⟩ := Prod.mk.inj (Option.some.inj hnext)
    have hready := h.pop hfits
    have hlater : Later w { w with os := w.os.close fd, namespaces := w.namespaces.erase pid } :=
      later_close rfl rfl
    have hkeeps : ∀ pid', some pid' ≠ some pid →
        (w.namespaces.erase pid).find? pid' = w.namespaces.find? pid' :=
      fun pid' hne => Dict.find?_erase_of_ne _ fun heq => hne (congrArg some heq)
    cases error with
    | none => exact .nil hready hlater hkeeps
    | some error => exact .nil (hready.report _ _) (hlater.trans (later_report _ _)) hkeeps
  · cases hnext

/-- A call of `_cleanup` leads to an item that only looks at the controller. -/
theorem Turn.call {name : String} (h : Ready w none) (hcall : w.call name a = some w')
    {l : List Item} (hl : l = [] ∨ ∃ i : Item, l = [i] ∧ i.held = none ∧ i.kills = none ∧
      i.isOwn = false ∧ i ≠ .killNamespaces ∧ ∀ w, i.Fits w) : Turn w item w' l := by
  obtain ⟨errors, rfl⟩ := World.call_cases hcall
  obtain rfl | ⟨i, rfl, hheld, hkills, hown, hne, hfits⟩ := hl
  · exact .nil (h.errors errors) (later_errors errors) fun _ _ => rfl
  · exact .one (hheld ▸ h.errors errors) (later_errors errors) rfl (hfits _) (.inl hkills)
      (by simp [hown]) hne

/-- A call that may be left out. -/
theorem Turn.callIf {name : String} {b : Bool} (h : Ready w none)
    (hnext : (if b then w.call name a else some w).map (·, []) = some (w', items)) :
    Turn w item w' items := by
  obtain ⟨w₁, hw₁, heq⟩ := Option.map_eq_some_iff.mp hnext
  obtain ⟨rfl, rfl⟩ := Prod.mk.inj heq
  split_ifs at hw₁
  · exact .call h hw₁ (.inl rfl)
  · obtain rfl := Option.some.inj hw₁
    exact .nil h (Later.refl w) fun _ _ => rfl

theorem close_spec {c : Controller} (h : Ready w none)
    (hc : ∀ i, item = .mount i → w.controllers[i]? = some c)
    (hnext : w.close c item a = some (w', items)) : Turn w item w' items := by
  unfold World.close at hnext
  split at hnext
  · exact .callIf h hnext
  · split_ifs at hnext
    · obtain ⟨w₁, hw₁, heq⟩ := Option.map_eq_some_iff.mp hnext
      obtain ⟨rfl, rfl⟩ := Prod.mk.inj heq
      exact .call h hw₁ (.inr ⟨_, rfl, rfl, rfl, rfl, by simp, fun _ => trivial⟩)
    · obtain ⟨rfl, rfl⟩ := Prod.mk.inj (Option.some.inj hnext)
      exact .one h (Later.refl w) rfl trivial (.inl rfl)
        (fun h => absurd h Bool.false_ne_true) fun h => by cases h
  · obtain ⟨rfl, rfl⟩ := Prod.mk.inj (Option.some.inj hnext)
    exact .one (h.errors _) (later_errors _) rfl trivial (.inl rfl)
        (fun h => absurd h Bool.false_ne_true) fun h => by cases h
  · obtain ⟨rfl, rfl⟩ := Prod.mk.inj (Option.some.inj hnext)
    exact .one h (Later.refl w) rfl trivial (.inl rfl)
        (fun h => absurd h Bool.false_ne_true) fun h => by cases h
  · -- the daemons
    rename_i i stopped
    obtain ⟨rfl, rfl⟩ := Prod.mk.inj (Option.some.inj hnext)
    have hwaits : ∀ j ∈ (c.lazyPageDaemons.map fun n => Item.stop n .poll) ++ [.cache i stopped],
        j.Waits w ∧ j.kills = none := by
      intro j hj
      rcases List.mem_append.mp hj with hj | hj
      · obtain ⟨n, -, rfl⟩ := List.mem_map.mp hj
        exact ⟨rfl, rfl⟩
      · obtain rfl := List.mem_singleton.mp hj
        exact ⟨trivial, rfl⟩
    refine ⟨?_, fun j hj => (hwaits j (List.mem_of_mem_head? hj)).1.fits,
      fun j hj => (hwaits j (List.mem_of_mem_tail hj)).1, Later.refl w, fun _ _ => rfl,
      .inl (List.filterMap_eq_nil_iff.mpr fun j hj => (hwaits j hj).2),
      fun h => absurd h Bool.false_ne_true, fun j hj => ?_⟩
    · cases c.lazyPageDaemons <;> exact h
    · have hwait := (hwaits j (List.mem_of_mem_head? hj)).1
      rw [hwait.isOwn]
      exact ⟨by simp, hwait.ne⟩
  · exact .callIf h hnext
  · -- the mount
    rename_i i
    split at hnext
    · rename_i fd hfd
      obtain ⟨rfl, rfl⟩ := Prod.mk.inj (Option.some.inj hnext)
      have hi := hc i rfl
      have hlt := (List.getElem?_eq_some_iff.mp hi).1
      have hown : w.own (.mount i) = some fd := by rw [World.own, hi]; exact hfd
      have hmount : World.own
          { w with controllers := w.controllers.set i { c with mountFd := none } } =
            Function.update w.own (.mount i) none := by
        refine World.own_mount fun j => ?_
        by_cases heq : j = i
        · subst heq
          rw [List.getElem?_set_self hlt, if_pos rfl]
          rfl
        · rw [List.getElem?_set_ne fun h => heq h.symm, if_neg heq]
      have hledger := h.ledger.take hown
      rw [← hmount] at hledger
      exact .one ⟨h.facts.of_eq rfl rfl rfl rfl rfl rfl, hledger, h.wrong⟩
        (.of_eq rfl rfl rfl (List.Subset.refl _) rfl) rfl trivial (.inl rfl)
        (fun h => absurd h Bool.false_ne_true) fun h => by cases h
    · obtain ⟨rfl, rfl⟩ := Prod.mk.inj (Option.some.inj hnext)
      exact .nil h (Later.refl w) fun _ _ => rfl
  · exact .callIf h hnext
  · cases hnext

theorem stopProcess_spec {s : Stop} (h : Ready w none)
    (hnext : w.stopProcess n s a = some (w', items)) : Turn w (.stop n s) w' items := by
  have hpoll := h.poll n
  have hlater := World.later_poll (w := w) (n := n)
  have hsame := (w.poll_same n).2.2.1
  unfold World.stopProcess at hnext
  split at hnext
  · obtain ⟨rfl, rfl⟩ := Prod.mk.inj (Option.some.inj hnext)
    split_ifs
    · exact .nil hpoll hlater fun _ _ => by rw [hsame]
    · exact .one hpoll hlater hsame trivial (.inl rfl) nofun nofun
  · obtain ⟨rfl, rfl⟩ := Prod.mk.inj (Option.some.inj hnext)
    exact .one (h.sendSignal n) World.later_sendSignal (w.sendSignal_same n).2.2.1 trivial (.inl rfl)
      nofun nofun
  · obtain ⟨rfl, rfl⟩ := Prod.mk.inj (Option.some.inj hnext)
    exact .one (h.sendSignal n) World.later_sendSignal (w.sendSignal_same n).2.2.1 trivial (.inl rfl)
      nofun nofun
  · dsimp only at hnext
    split_ifs at hnext
    obtain ⟨rfl, rfl⟩ := Prod.mk.inj (Option.some.inj hnext)
    exact .nil (hpoll.report _ _) (hlater.trans (later_report _ _)) fun _ _ => by
      rw [World.report, hsame]
  · dsimp only at hnext
    split_ifs at hnext
    obtain ⟨rfl, rfl⟩ := Prod.mk.inj (Option.some.inj hnext)
    exact .nil (hpoll.report _ _) (hlater.trans (later_report _ _)) fun _ _ => by
      rw [World.report, hsame]
  · dsimp only at hnext
    split_ifs at hnext
    obtain ⟨rfl, rfl⟩ := Prod.mk.inj (Option.some.inj hnext)
    exact .nil hpoll hlater fun _ _ => by rw [hsame]
  · dsimp only at hnext
    split_ifs at hnext
    obtain ⟨rfl, rfl⟩ := Prod.mk.inj (Option.some.inj hnext)
    exact .nil hpoll hlater fun _ _ => by rw [hsame]
  · split_ifs at hnext
    obtain ⟨rfl, rfl⟩ := Prod.mk.inj (Option.some.inj hnext)
    exact .one h (Later.refl w) rfl trivial (.inl rfl) nofun nofun
  · split_ifs at hnext
    obtain ⟨rfl, rfl⟩ := Prod.mk.inj (Option.some.inj hnext)
    exact .nil (h.report _ _) (later_report _ _) fun _ _ => rfl
  · cases hnext

/-- **A process that has been looked at behind its pin was a child of the launcher**, if it is still
there. -/
theorem right_of_ppid {c : Popen} (h : Facts w) (hc : w.popens[n]? = some c) (hrunning : c.done = false)
    (hp : w.os.byPid pid = some p) (hppid : w.ppid p.id = (w.popens[n]?).map Popen.pid)
    (hhad : w.Had id pid) {q : Proc} (hq : q ∈ w.os.procs) (hid : q.id = id) :
    w.Right q (.launcherChild n) := by
  obtain ⟨hmem, hpid⟩ := byPid_eq_some hp
  -- the one that is pinned is the one that has the pid
  obtain rfl : q = p := h.os.pids q hq p hmem ((hhad.2 q hq hid).trans hpid.symm)
  obtain ⟨l, hl, hlid⟩ := h.byPid (List.mem_of_getElem? hc) hrunning
  obtain ⟨hlmem, hlpid⟩ := byPid_eq_some hl
  rw [hc, World.ppid] at hppid
  obtain ⟨r, hr, hrpid⟩ := Option.map_eq_some_iff.mp hppid
  obtain ⟨parent, hparent, hbyId⟩ := Option.bind_eq_some_iff.mp hr
  obtain ⟨hrmem, rfl⟩ := byId_eq_some hbyId
  obtain rfl : r = l := h.os.pids r hrmem l hlmem (hrpid.trans hlpid.symm)
  refine ⟨c.id, by rw [World.popenId, hc]; rfl, ?_⟩
  rw [← hlid]
  obtain ⟨l₁, l₂, heq, -⟩ := List.lookup_eq_some_iff.mp hparent
  rw [heq]
  exact List.mem_append_right _ List.mem_cons_self

theorem stopLauncherChildren_spec (h : Ready w item.held) (hfits : item.Fits w)
    (hnext : w.stopLauncherChildren item a = some (w', items)) : Turn w item w' items := by
  unfold World.stopLauncherChildren at hnext
  split at hnext
  · -- the children are read
    rename_i n
    have hpoll := h.poll n
    have hlater := World.later_poll (w := w) (n := n)
    have hsame := (w.poll_same n).2.2.1
    dsimp only at hnext
    split_ifs at hnext with hdone
    · obtain ⟨rfl, rfl⟩ := Prod.mk.inj (Option.some.inj hnext)
      exact .nil hpoll hlater fun _ _ => by rw [hsame]
    · split at hnext
      · obtain ⟨rfl, rfl⟩ := Prod.mk.inj (Option.some.inj hnext)
        exact .one hpoll hlater hsame (World.runs_of_isDone (by simpa using hdone)) (.inl rfl) nofun
          nofun
      · obtain ⟨rfl, rfl⟩ := Prod.mk.inj (Option.some.inj hnext)
        exact .nil hpoll hlater fun _ _ => by rw [hsame]
      · obtain ⟨rfl, rfl⟩ := Prod.mk.inj (Option.some.inj hnext)
        exact .nil (hpoll.report _ _) (hlater.trans (later_report _ _)) fun _ _ => by
          rw [World.report, hsame]
      · cases hnext
  · obtain ⟨rfl, rfl⟩ := Prod.mk.inj (Option.some.inj hnext)
    exact .nil h (Later.refl w) fun _ _ => rfl
  · -- one of them is pinned
    rename_i n pid pids fd
    split_ifs at hnext with hfree
    obtain ⟨p, hp, heq⟩ := Option.map_eq_some_iff.mp hnext
    obtain ⟨rfl, rfl⟩ := Prod.mk.inj heq
    obtain ⟨hmem, hpid⟩ := byPid_eq_some hp
    have hhad : w.Had p.id pid := ⟨h.facts.os.fresh p hmem, fun q hq hid => by
      rw [h.facts.os.ids q hq p hmem hid, hpid]⟩
    exact .one (h.pin hfree hmem (List.Subset.refl _) h.facts.owned)
      (.of_eq rfl rfl rfl (List.Subset.refl _) rfl) rfl
      ⟨hfits, p.id, Dict.find?_set_self _ _ _, hhad⟩ (.inl rfl) nofun nofun
  · split_ifs at hnext
    obtain ⟨rfl, rfl⟩ := Prod.mk.inj (Option.some.inj hnext)
    exact .one h (Later.refl w) rfl hfits (.inl rfl) nofun nofun
  · obtain ⟨rfl, rfl⟩ := Prod.mk.inj (Option.some.inj hnext)
    exact .nil (h.report _ _) (later_report _ _) fun _ _ => rfl
  · -- its parent is looked at
    rename_i n pid fd pids
    obtain ⟨p, hp, heq⟩ := Option.map_eq_some_iff.mp hnext
    obtain ⟨rfl, rfl⟩ := Prod.mk.inj heq
    obtain ⟨hruns, id, hid, hhad⟩ := hfits
    split_ifs with hppid
    · obtain ⟨c, hc, hrunning⟩ := hruns
      exact .one h (Later.refl w) rfl ⟨⟨c, hc, hrunning⟩, id, hid, fun q hq hqid =>
        right_of_ppid h.facts hc hrunning hp hppid hhad hq hqid⟩ (.inl rfl) nofun nofun
    · exact .one h (Later.refl w) rfl hruns (.inl rfl) nofun nofun
  · split_ifs at hnext
    obtain ⟨rfl, rfl⟩ := Prod.mk.inj (Option.some.inj hnext)
    exact .one h (Later.refl w) rfl hfits.1 (.inl rfl) nofun nofun
  · obtain ⟨rfl, rfl⟩ := Prod.mk.inj (Option.some.inj hnext)
    exact .one h (Later.refl w) rfl trivial (.inl rfl) nofun nofun
  · -- the signal
    rename_i n pid fd pids
    obtain ⟨hruns, id, hid, hright⟩ := hfits
    split at hnext
    · rename_i w₁ hsend
      obtain ⟨p, hp, rfl⟩ := World.send_cases hsend
      obtain ⟨hfd, hmem⟩ := pinned_eq_some hp
      obtain ⟨rfl, rfl⟩ := Prod.mk.inj (Option.some.inj hnext)
      exact .one (h.signal (hright p hmem (Option.some.inj (hfd.symm.trans hid)))) later_signal rfl
        hruns (.inl rfl) nofun nofun
    · obtain ⟨rfl, rfl⟩ := Prod.mk.inj (Option.some.inj hnext)
      exact .one h (Later.refl w) rfl hruns (.inl rfl) nofun nofun
  · obtain ⟨rfl, rfl⟩ := Prod.mk.inj (Option.some.inj hnext)
    exact .one h (Later.refl w) rfl trivial (.inl rfl) nofun nofun
  · split_ifs at hnext
    obtain ⟨rfl, rfl⟩ := Prod.mk.inj (Option.some.inj hnext)
    exact .one h (Later.refl w) rfl hfits (.inl rfl) nofun nofun
  · split_ifs at hnext
    obtain ⟨rfl, rfl⟩ := Prod.mk.inj (Option.some.inj hnext)
    exact .one h (Later.refl w) rfl trivial (.inl rfl) nofun nofun
  · obtain ⟨rfl, rfl⟩ := Prod.mk.inj (Option.some.inj hnext)
    exact .one h (Later.refl w) rfl trivial (.inl rfl) nofun nofun
  · -- the descriptor is closed
    rename_i n fd pids error
    have hready : Ready { w with os := w.os.close fd } none := Ready.drop h
    have hlater : Later w { w with os := w.os.close fd } := .of_eq rfl rfl rfl (List.Subset.refl _) rfl
    cases error with
    | none =>
      obtain ⟨rfl, rfl⟩ := Prod.mk.inj (Option.some.inj hnext)
      exact .one hready hlater rfl hfits (.inl rfl) nofun nofun
    | some error =>
      obtain ⟨rfl, rfl⟩ := Prod.mk.inj (Option.some.inj hnext)
      exact .nil (hready.report _ _) (hlater.trans (later_report _ _)) fun _ _ => rfl
  · cases hnext

/-- **An item.** -/
theorem next_spec (h : Ready w item.held) (hfits : item.Fits w)
    (hnext : w.next self item a = some (w', items)) : Turn w item w' items := by
  have hcloses : ∀ i, w.controllers[i]?.bind (fun c => w.close c item a) = some (w', items) →
      item.held = none → (∀ j, item = .mount j → j = i) → Turn w item w' items := by
    intro i hbind hheld hmount
    obtain ⟨c, hc, hclose⟩ := Option.bind_eq_some_iff.mp hbind
    exact close_spec (hheld ▸ h) (fun j hj => hmount j hj ▸ hc) hclose
  unfold World.next at hnext
  split at hnext
  · exact ownNamespace_spec h hfits hnext
  · exact ownNamespace_spec h hfits hnext
  · exact ownNamespace_spec h hfits hnext
  · exact killNamespace_spec h hfits hnext
  · exact killNamespace_spec h hfits hnext
  · exact killNamespace_spec h hfits hnext
  · exact killNamespace_spec h hfits hnext
  · split at hnext
    · obtain ⟨rfl, rfl⟩ := Prod.mk.inj (Option.some.inj hnext)
      exact .nil h (Later.refl w) fun _ _ => rfl
    · obtain ⟨rfl, rfl⟩ := Prod.mk.inj (Option.some.inj hnext)
      exact .nil h (Later.refl w) fun _ _ => rfl
    · cases hnext
  · exact hcloses _ hnext rfl nofun
  · exact hcloses _ hnext rfl nofun
  · exact hcloses _ hnext rfl nofun
  · exact hcloses _ hnext rfl nofun
  · exact hcloses _ hnext rfl nofun
  · exact hcloses _ hnext rfl fun j hj => (Item.mount.inj hj).symm
  · exact hcloses _ hnext rfl nofun
  · -- the descriptor of a mount
    split at hnext
    · obtain ⟨rfl, rfl⟩ := Prod.mk.inj (Option.some.inj hnext)
      exact .nil (Ready.drop h) (.of_eq rfl rfl rfl (List.Subset.refl _) rfl) fun _ _ => rfl
    · cases hnext
  · exact stopProcess_spec h hnext
  · exact stopLauncherChildren_spec h hfits hnext
  · exact stopLauncherChildren_spec h hfits hnext
  · exact stopLauncherChildren_spec h hfits hnext
  · exact stopLauncherChildren_spec h hfits hnext
  · exact stopLauncherChildren_spec h hfits hnext
  · exact stopLauncherChildren_spec h hfits hnext
  · -- the callbacks
    split at hnext
    · rename_i cb cbs hcallbacks
      obtain ⟨rfl, rfl⟩ := Prod.mk.inj (Option.some.inj hnext)
      have hready : Ready { w with callbacks := cbs, called := w.called ++ [cb] } none :=
        h.of_eq rfl rfl rfl rfl rfl rfl fun _ => rfl
      refine ⟨?_, fun i hi => ?_, fun i hi => ?_, .of_eq rfl rfl rfl (List.Subset.refl _) rfl,
        fun _ _ => rfl, .inl ?_, nofun, fun i hi => ?_⟩
      · cases cb <;> exact hready
      · obtain rfl := Option.some.inj hi
        cases cb <;> exact trivial
      · obtain rfl := List.mem_singleton.mp hi
        exact trivial
      · cases cb <;> rfl
      · obtain rfl := Option.some.inj hi
        cases cb <;> exact ⟨nofun, nofun⟩
    · obtain ⟨rfl, rfl⟩ := Prod.mk.inj (Option.some.inj hnext)
      exact .nil h (Later.refl w) fun _ _ => rfl
    · cases hnext
  · -- another callback
    obtain ⟨w₁, hw₁, heq⟩ := Option.map_eq_some_iff.mp hnext
    obtain ⟨rfl, rfl⟩ := Prod.mk.inj heq
    exact .call h hw₁ (.inl rfl)
  · split at hnext
    · obtain ⟨rfl, rfl⟩ := Prod.mk.inj (Option.some.inj hnext)
      exact .nil (h.of_eq rfl rfl rfl rfl rfl rfl fun _ => rfl)
        (.of_eq rfl rfl rfl (List.Subset.refl _) rfl) fun _ _ => rfl
    · cases hnext

/-! ### Steps and runs -/

variable {s t : State}

/-- The agenda fits the world. -/
structure Inv (s : State) : Prop where
  ready : Ready s.world (s.agenda.head?.bind Item.held)
  head : ∀ i ∈ s.agenda.head?, i.Fits s.world
  rest : ∀ i ∈ s.agenda.tail, i.Waits s.world
  once : (s.agenda.filterMap Item.kills).Nodup
  alone : ∀ i ∈ s.agenda.head?, i.isOwn = true → s.agenda.tail = []
  first : s.agenda.head? = some .killNamespaces → s.agenda.tail.filterMap Item.kills = []

theorem inv_init : Inv State.init where
  ready := ⟨Facts.init, by
    have hinit : Ledger Kernel.init (fun _ : Key => none) none := .init
    have hown : World.init.own = fun _ => none := by
      funext key
      cases key <;> simp [World.own, World.init]
    exact hown ▸ hinit.of_fds rfl, rfl⟩
  head := nofun
  rest := nofun
  once := List.nodup_nil
  alone := nofun
  first := nofun

/-- An item of the agenda. -/
theorem Inv.go (hinv : Inv s) {rest : List Item} (hagenda : s.agenda = item :: rest)
    (hnext : s.world.next self item a = some (w', items)) : Inv ⟨w', items ++ rest⟩ := by
  obtain ⟨hready, hhead, hrest, honce, halone, hfirst⟩ := hinv
  rw [hagenda] at hready hhead hrest honce halone hfirst
  have hturn := next_spec hready (hhead item rfl) hnext
  rw [List.filterMap_cons] at honce
  -- what is further down still waits
  have hwaits : ∀ i ∈ rest, i.Waits w' := by
    intro i hi
    refine (hrest i hi).keep fun pid hpid => hturn.keeps pid fun hedits => ?_
    have hmem : pid ∈ rest.filterMap Item.kills := List.mem_filterMap.mpr ⟨i, hi, hpid⟩
    cases item with
    | close pid' fd error =>
      obtain rfl := Option.some.inj hedits
      exact (List.nodup_cons.mp honce).1 hmem
    | store pid' fd previous =>
      have hnil : rest = [] := halone _ rfl rfl
      rw [hnil] at hi
      cases hi
    | _ => cases hedits
  have honce' : (rest.filterMap Item.kills).Nodup := by
    cases hkills : item.kills with
    | none => simpa [hkills] using honce
    | some pid => exact (List.nodup_cons.mp (by simpa [hkills] using honce)).2
  have hnodup : ((items ++ rest).filterMap Item.kills).Nodup := by
    rw [List.filterMap_append]
    obtain hnil | heq | ⟨rfl, hnodup⟩ := hturn.kills
    · rw [hnil]
      exact honce'
    · rw [heq]
      cases hkills : item.kills with
      | none => exact honce'
      | some pid => simpa [hkills] using honce
    · rw [show rest.filterMap Item.kills = [] from hfirst rfl, List.append_nil]
      exact hnodup
  cases items with
  | nil =>
    have hheld : rest.head?.bind Item.held = none := by
      cases rest with
      | nil => rfl
      | cons i l => exact (hwaits i List.mem_cons_self).held
    refine ⟨?_, fun i hi => (hwaits i (List.mem_of_mem_head? hi)).fits,
      fun i hi => hwaits i (List.mem_of_mem_tail hi), hnodup, fun i hi hown => ?_, fun hi => ?_⟩
    · rw [List.nil_append, hheld]
      exact hturn.ready
    · rw [(hwaits i (List.mem_of_mem_head? hi)).isOwn] at hown
      cases hown
    · exact absurd rfl (hwaits _ (List.mem_of_mem_head? hi)).ne
  | cons i l =>
    refine ⟨hturn.ready, hturn.head, fun j hj => ?_, hnodup, fun j hj hown => ?_, fun hi => ?_⟩
    · rcases List.mem_append.mp hj with hj | hj
      · exact hturn.rest j hj
      · exact hwaits j hj
    · have hitem := (hturn.fresh j hj).1 hown
      have hl : l = [] := hturn.own hitem
      have hnil : rest = [] := halone item rfl hitem
      rw [hl, hnil]
      rfl
    · exact absurd (Option.some.inj hi) (hturn.fresh i rfl).2

/-- The processes change, while the agenda stays as it is. -/
theorem Inv.outside (hinv : Inv s) (hready : Ready w' (s.agenda.head?.bind Item.held))
    (hlater : Later s.world w') (hnamespaces : w'.namespaces = s.world.namespaces)
    (hfds : w'.os.fds = s.world.os.fds) (hpopens : w'.popens = s.world.popens)
    (hback : ∀ p' ∈ w'.os.procs, p'.id < s.world.os.next → ∃ p ∈ s.world.os.procs, p.id = p'.id) :
    Inv { s with world := w' } where
  ready := hready
  head i hi := by
    have hfits := hinv.head i hi
    have hruns : ∀ n, s.world.Runs n → w'.Runs n := by
      rintro n ⟨c, hc, hdone⟩
      exact ⟨c, hpopens.symm ▸ hc, hdone⟩
    have hfind : ∀ pid, w'.namespaces.find? pid = s.world.namespaces.find? pid := by
      intro pid
      rw [hnamespaces]
    cases i with
    | kill pid fd => exact (hfind pid).trans hfits
    | gone pid fd => exact (hfind pid).trans hfits
    | close pid fd error => exact (hfind pid).trans hfits
    | opening pid previous => exact Eq.trans hfits (hfind pid).symm
    | store pid fd previous =>
      obtain ⟨hprevious, id, hid, hmem⟩ := hfits
      exact ⟨by rw [hnamespaces, hprevious], id, by rw [hfds, hid], hlater.owned hmem⟩
    | each n pids => exact hruns n hfits
    | check n pid fd pids =>
      obtain ⟨hrun, id, hid, hhad⟩ := hfits
      exact ⟨hruns n hrun, id, by rw [hfds, hid], hhad.later hlater⟩
    | strike n pid fd pids =>
      obtain ⟨hrun, id, hid, hright⟩ := hfits
      refine ⟨hruns n hrun, id, by rw [hfds, hid], fun p' hp' hpid => ?_⟩
      have hlt : p'.id < s.world.os.next := hpid ▸ hinv.ready.facts.os.past fd id hid
      obtain ⟨p, hp, hpp⟩ := hback p' hp' hlt
      obtain ⟨l, hl, hmem⟩ := (hright p hp (hpp.trans hpid)).later hlater
      exact ⟨l, hl, hpp ▸ hmem⟩
    | await n pid fd pids => exact hruns n hfits
    | drop n fd pids error =>
      cases error with
      | none => exact hruns n hfits
      | some error => exact trivial
    | _ => exact trivial
  rest i hi := (hinv.rest i hi).keep fun pid _ => by rw [hnamespaces]
  once := hinv.once
  alone := hinv.alone
  first := hinv.first

/-- Where nothing is going on. -/
theorem Inv.of_idle (hready : Ready w none) : Inv ⟨w, []⟩ where
  ready := hready
  head := nofun
  rest := nofun
  once := List.nodup_nil
  alone := nofun
  first := nofun

theorem State.idle_eq (h : s.idle = true) : s.agenda = [] := by
  rw [State.idle, Bool.and_eq_true] at h
  exact List.isEmpty_iff.mp h.1

/-- The attributes of a controller change, but for the mount. -/
theorem own_modify {f : Controller → Controller} (hf : ∀ c, (f c).mountFd = c.mountFd) (c : ℕ) :
    ∀ i : ℕ, ((w.controllers.modify c f)[i]?).bind Controller.mountFd =
      (w.controllers[i]?).bind Controller.mountFd := by
  intro i
  rw [List.getElem?_modify]
  cases hi : w.controllers[i]? with
  | none => rfl
  | some d =>
    simp only [Option.map_eq_map, Option.map_some, Option.bind_some]
    split_ifs
    · exact hf d
    · rfl

theorem Ready.spawn {ticks : ℕ} (h : Ready w none) (hfree : w.os.byPid pid = none) (args : String) :
    Ready (w.spawn pid ticks args) none where
  facts := h.facts.spawn hfree args
  ledger := h.ledger.of_fds rfl
  wrong := h.wrong

theorem Ready.popen {ticks : ℕ} (h : Ready w none) (hfree : w.os.byPid pid = none) (starter : Starter)
    (args : String) : Ready (w.popen starter pid ticks args) none := by
  have hspawn : Ready (w.spawn pid ticks args) none := h.spawn hfree args
  cases starter with
  | popen => exact hspawn.of_eq rfl rfl rfl rfl rfl rfl fun _ => rfl
  | popenNamespace => exact hspawn.of_eq rfl rfl rfl rfl rfl rfl fun _ => rfl
  | daemon c => exact hspawn.of_eq rfl rfl rfl rfl rfl rfl (own_modify (by intro _; rfl) c)

/-- The constructor of a controller opens the mount. -/
theorem Ready.openMount {c : ℕ} (h : Ready w none) (hfree : w.os.fds.find? fd = none)
    (hc : w.controllers[c]?.any (fun c => c.mountFd.isNone) = true) :
    Ready { w with
      os := w.os.pin fd 0
      controllers := w.controllers.modify c fun c => { c with mountFd := some fd } } none := by
  cases hd : w.controllers[c]? with
  | none => simp [hd] at hc
  | some d =>
    have hnone : d.mountFd = none := by simpa [hd] using hc
    have hown : w.own (.mount c) = none := by rw [World.own, hd]; exact hnone
    have hmount : World.own { w with
        controllers := w.controllers.modify c fun c => { c with mountFd := some fd } } =
          Function.update w.own (.mount c) (some fd) := by
      refine World.own_mount fun j => ?_
      rw [List.getElem?_modify]
      by_cases heq : j = c
      · subst heq
        simp [hd]
      · rw [if_neg heq]
        cases w.controllers[j]? with
        | none => rfl
        | some e => simp [Ne.symm heq]
    have hpin : Ledger (w.os.pin fd 0) w.own (some fd) := h.ledger.pin hfree
    have hledger := hpin.store hown
    rw [← hmount] at hledger
    have hfacts : Facts { w with os := w.os.pin fd 0 } :=
      h.facts.edit (h.facts.os.pinPast h.facts.positive) rfl rfl (List.Subset.refl _) h.facts.owned
        fun pid fd' hfd' => by
          obtain ⟨id, hid, hmem⟩ := h.facts.namespaces pid fd' hfd'
          refine ⟨id, ?_, hmem⟩
          rw [Kernel.pin, Dict.find?_set_of_ne, hid]
          rintro rfl
          simp [hfree] at hid
    exact ⟨hfacts.of_eq rfl rfl rfl rfl rfl rfl, hledger, h.wrong⟩

theorem waits_exitItems (controllers : ℕ) (exc : Bool) :
    ∀ i ∈ (exitItems controllers exc).tail, i.Waits w ∧ i.kills = none := by
  intro i hi
  rcases List.mem_append.mp hi with hi | hi
  · obtain ⟨c, -, hc⟩ := List.mem_flatMap.mp hi
    simp only [closeController, List.mem_cons, List.not_mem_nil, or_false] at hc
    obtain rfl | rfl | rfl | rfl := hc <;> exact ⟨trivial, rfl⟩
  · simp only [List.mem_cons, List.not_mem_nil, or_false] at hi
    obtain rfl | rfl := hi <;> exact ⟨trivial, rfl⟩

/-- **A step.** -/
theorem inv_step {act : Act} (hinv : Inv s) (hstep : step self s act = some t) : Inv t := by
  have hready := hinv.ready
  have hidle : s.idle = true → Ready s.world none := by
    intro h
    rw [State.idle_eq h] at hready
    exact hready
  cases act with
  | fork pid ticks parent =>
    rw [step] at hstep
    split_ifs at hstep with hfree
    obtain rfl := Option.some.inj hstep
    have hnone : s.world.os.byPid pid = none := by
      rw [World.free, Bool.and_assoc, Bool.and_eq_true, Option.isNone_iff_eq_none] at hfree
      exact hfree.1
    refine hinv.outside ⟨hready.facts.fork hnone parent, hready.ledger.of_fds rfl, hready.wrong⟩
      World.later_fork rfl rfl rfl fun p' hp' hlt => ?_
    rcases Pidfd.Kernel.mem_fork.mp hp' with hp | rfl
    · exact ⟨p', hp, rfl⟩
    · exact absurd hlt (lt_irrefl _)
  | exits id reaper =>
    rw [step] at hstep
    split_ifs at hstep
    obtain rfl := Option.some.inj hstep
    refine hinv.outside ⟨hready.facts.terminate id reaper, hready.ledger.of_fds rfl, hready.wrong⟩
      World.later_terminate rfl rfl rfl fun p' hp' hlt => ?_
    obtain ⟨p, hp, hid, -⟩ := World.later_terminate.procs p' hp' hlt
    exact ⟨p, hp, hid⟩
  | reap id =>
    rw [step] at hstep
    split_ifs at hstep with hreserved
    obtain rfl := Option.some.inj hstep
    exact hinv.outside ⟨hready.facts.reap (by simpa using hreserved), hready.ledger.of_fds rfl,
      hready.wrong⟩ World.later_reap rfl rfl rfl
      fun p' hp' _ => ⟨p', (Pidfd.Kernel.mem_reap.mp hp').1, rfl⟩
  | popen starter pid ticks args =>
    simp only [step] at hstep
    split_ifs at hstep with hcond
    obtain rfl := Option.some.inj hstep
    simp only [Bool.and_eq_true] at hcond
    obtain ⟨⟨hi, hfree⟩, -⟩ := hcond
    have hnone : s.world.os.byPid pid = none := by
      rw [World.free, Bool.and_assoc, Bool.and_eq_true, Option.isNone_iff_eq_none] at hfree
      exact hfree.1
    rw [State.idle_eq hi]
    exact .of_idle ((hidle hi).popen hnone starter args)
  | poll n =>
    rw [step] at hstep
    split_ifs at hstep with hi
    obtain rfl := Option.some.inj hstep
    rw [State.idle_eq hi]
    exact .of_idle ((hidle hi).poll n)
  | own pid =>
    rw [step] at hstep
    split_ifs at hstep with hi
    obtain rfl := Option.some.inj hstep
    cases pid with
    | none => exact .of_idle (hidle hi)
    | some pid =>
      refine ⟨hidle hi, fun i hi => ?_, nofun, List.nodup_nil, fun _ _ _ => rfl, nofun⟩
      obtain rfl := Option.some.inj hi
      exact trivial
  | callback name =>
    rw [step] at hstep
    split_ifs at hstep with hi
    obtain rfl := Option.some.inj hstep
    rw [State.idle_eq hi]
    exact .of_idle ((hidle hi).of_eq rfl rfl rfl rfl rfl rfl fun _ => rfl)
  | create =>
    rw [step] at hstep
    split_ifs at hstep with hi
    obtain rfl := Option.some.inj hstep
    rw [State.idle_eq hi]
    refine .of_idle ((hidle hi).of_eq rfl rfl rfl rfl rfl rfl fun i => ?_)
    rcases lt_or_ge i s.world.controllers.length with hlt | hge
    · rw [List.getElem?_append_left hlt]
    · rw [List.getElem?_append_right hge, List.getElem?_eq_none hge]
      cases i - s.world.controllers.length <;> rfl
  | attributes c dumpPool restampPool restampCacheRoot rootOverlays =>
    rw [step] at hstep
    split_ifs at hstep with hi
    obtain rfl := Option.some.inj hstep
    rw [State.idle_eq hi]
    exact .of_idle ((hidle hi).of_eq rfl rfl rfl rfl rfl rfl (own_modify (by intro _; rfl) c))
  | openMount c fd =>
    rw [step] at hstep
    split_ifs at hstep with hcond
    obtain rfl := Option.some.inj hstep
    simp only [Bool.and_eq_true, Option.isNone_iff_eq_none] at hcond
    obtain ⟨⟨hi, hc⟩, hfree⟩ := hcond
    rw [State.idle_eq hi]
    exact .of_idle ((hidle hi).openMount hfree hc)
  | abortDumps c =>
    rw [step] at hstep
    split_ifs at hstep with hi
    obtain rfl := Option.some.inj hstep
    refine ⟨hidle hi, fun i hi => ?_, fun i hi => ?_, List.nodup_nil, nofun, fun _ => rfl⟩
    · obtain rfl := Option.some.inj hi
      exact trivial
    · obtain rfl := List.mem_singleton.mp hi
      exact trivial
  | exit exc =>
    rw [step] at hstep
    split_ifs at hstep with hi
    obtain rfl := Option.some.inj hstep
    have hwaits := waits_exitItems (w := s.world) s.world.controllers.length exc
    have hkills : (exitItems s.world.controllers.length exc).tail.filterMap Item.kills = [] :=
      List.filterMap_eq_nil_iff.mpr fun i hi => (hwaits i hi).2
    refine ⟨hidle hi, fun i hi => ?_, fun i hi => (hwaits i hi).1, ?_, fun i hi hown => ?_,
      fun _ => hkills⟩
    · obtain rfl := Option.some.inj hi
      exact trivial
    · exact hkills.symm ▸ List.nodup_nil
    · obtain rfl := Option.some.inj hi
      cases hown
  | go a =>
    rw [step] at hstep
    split at hstep
    · rename_i item rest hagenda
      obtain ⟨⟨w', items⟩, hnext, heq⟩ := Option.map_eq_some_iff.mp hstep
      obtain rfl := heq
      exact hinv.go hagenda hnext
    · cases hstep

theorem inv_of_exec {acts : List Act} (hrun : Machine.exec (step self) State.init acts = some s) :
    Inv s :=
  Machine.invariant inv_step inv_init hrun

/-- **Signals and descriptors, in every run.** Whatever processes come, go and get the pids of others
between any two statements, each signal has got to the process that it was meant for: one to a
namespace to the process that had the pid when it was owned, one to a child of a launcher to a process
that was a child of it, and one to a `Popen` object to its own process. No descriptor is closed that
is not open, and those that are open are those of the namespaces and mounts that are owned, but for
one at most. -/
theorem resources_safe (self : ℕ) (acts : List Act) (s : State)
    (hrun : Machine.exec (step self) State.init acts = some s) :
    (∀ e ∈ s.world.signals, s.world.Right e.1 e.2) ∧ s.world.os.wrong = false ∧
      Ledger s.world.os s.world.own (s.agenda.head?.bind Item.held) := by
  obtain ⟨hfacts, hledger, hwrong⟩ := (inv_of_exec hrun).ready
  exact ⟨hfacts.signals, hwrong, hledger⟩

/-- A launcher is started, and its child comes. When the exit has pinned the child, it ends, and is
waited for, and the launcher gets another child with that pid. -/
def swapped : List Act :=
  [.popen .popenNamespace 20 0 "launcher", .fork 30 1 1, .exit true, .go .ok, .go .ok, .go (.pids [30]),
    .go (.fd 5), .exits 2 0, .reap 2, .fork 30 2 1, .go .ok, .go .ok, .go .ok, .go .ok, .go .ok,
    .go .ok, .go .ok, .exits 1 0, .go .ok]

/-- The second child is not signalled, only the launcher is. -/
theorem resources_safe_swapped : ∃ s, Machine.exec (step 9) State.init swapped = some s ∧
    s.world.signals.map (fun e => (e.1.id, e.2)) = [(1, .stopProcess 0)] ∧
    (∀ e ∈ s.world.signals, s.world.Right e.1 e.2) ∧ s.world.os.wrong = false ∧
      Ledger s.world.os s.world.own (s.agenda.head?.bind Item.held) := by
  have hsignals : (Machine.exec (step 9) State.init swapped).map
      (fun s => s.world.signals.map fun e => (e.1.id, e.2)) = some [(1, .stopProcess 0)] := by
    decide +kernel
  obtain ⟨s, hs, heq⟩ := Option.map_eq_some_iff.mp hsignals
  exact ⟨s, hs, heq, resources_safe 9 swapped s hs⟩

end Resources

end DeltaBox
