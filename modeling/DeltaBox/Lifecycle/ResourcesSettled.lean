import DeltaBox.Lifecycle.ResourcesSafe

/-!
# When a replay has ended, nothing is left

Whatever fails on the way, `__exit__` goes through all that is owned. An error is recorded, and what
has not been recorded has been done.

## Main definitions

* `Quiet`, `Moves` — what an item leaves alone, and what it does of what there is to do
* `Ends` — the invariant

## Main results

* `next_moves` — an item
* `ends_step`, `ends_of_exec` — a step, and a run
* `resources_settled` — the end
-/

namespace DeltaBox

namespace Resources

open Pidfd (Proc Kernel Ledger)
open Pidfd.Kernel (byPid_eq_some byId_eq_some pinned_eq_some)

variable {w w' w'' : World} {item : Item} {items : List Item} {a : Answer} {p : Proc}
  {pid id fd n self : ℕ}

/-! ### What an item leaves alone -/

/-- Nothing has been recorded. -/
def World.Clean (w : World) : Prop := w.cleanupErrors = []

/-- The callbacks, the end, and the daemons are left alone, and nothing is undone. -/
structure Quiet (w w' : World) : Prop where
  callbacks : w'.callbacks = w.callbacks
  called : w'.called = w.called
  registered : w'.registered = w.registered
  outcome : w'.outcome = w.outcome
  daemons : ∀ c : ℕ, (w'.controllers[c]?).map Controller.lazyPageDaemons =
    (w.controllers[c]?).map Controller.lazyPageDaemons
  clean : w'.Clean → w.Clean
  done : ∀ n, w.isDone n = true → w'.isDone n = true
  length : w'.popens.length = w.popens.length

theorem Quiet.refl (w : World) : Quiet w w :=
  ⟨rfl, rfl, rfl, rfl, fun _ => rfl, fun h => h, fun _ h => h, rfl⟩

theorem Quiet.trans (h : Quiet w w') (h' : Quiet w' w'') : Quiet w w'' where
  callbacks := h'.callbacks.trans h.callbacks
  called := h'.called.trans h.called
  registered := h'.registered.trans h.registered
  outcome := h'.outcome.trans h.outcome
  daemons c := (h'.daemons c).trans (h.daemons c)
  clean hc := h.clean (h'.clean hc)
  done n hn := h'.done n (h.done n hn)
  length := h'.length.trans h.length

theorem quiet_errors (w : World) (l : List String) :
    Quiet w { w with cleanupErrors := w.cleanupErrors ++ l } :=
  ⟨rfl, rfl, rfl, rfl, fun _ => rfl, fun h => (List.append_eq_nil_iff.mp h).1, fun _ h => h, rfl⟩

theorem quiet_report (w : World) (name error : String) : Quiet w (w.report name error) :=
  quiet_errors w _

theorem not_clean_report (w : World) (name error : String) : ¬(w.report name error).Clean := by
  simp [World.Clean, World.report]

/-- The message has nothing but the errors. -/
theorem failure_congr (h : w'.cleanupErrors = w.cleanupErrors) : w'.failure = w.failure := by
  unfold World.failure
  rw [h]

theorem isDone_setDone (n id m : ℕ) (h : w.isDone m = true) : (w.setDone n id).isDone m = true := by
  simp only [World.isDone, World.setDone, List.getElem?_modify] at h ⊢
  cases hm : w.popens[m]? with
  | none => rfl
  | some c =>
    simp only [hm, Option.all_some] at h
    simp only [Option.map_eq_map, Option.map_some, Option.all_some]
    split_ifs
    · rfl
    · exact h

theorem quiet_poll (w : World) (n : ℕ) : Quiet w (w.poll n) := by
  obtain heq | ⟨c, -, heq⟩ := w.poll_cases n
  · rw [heq]
    exact Quiet.refl w
  · rw [heq]
    exact ⟨rfl, rfl, rfl, rfl, fun _ => rfl, fun h => h, fun m hm => isDone_setDone n c.id m hm,
      List.length_modify _ _ _⟩

theorem quiet_sendSignal (w : World) (n : ℕ) : Quiet w (w.sendSignal n) := by
  have hpoll := quiet_poll w n
  rw [World.sendSignal]
  split_ifs
  · exact hpoll
  · split
    · exact hpoll.trans ⟨rfl, rfl, rfl, rfl, fun _ => rfl, fun h => h, fun _ h => h, rfl⟩
    · exact hpoll

/-- The attributes that are named are all there are to look at. -/
theorem Quiet.of_eq (hcallbacks : w'.callbacks = w.callbacks) (hcalled : w'.called = w.called)
    (hregistered : w'.registered = w.registered) (houtcome : w'.outcome = w.outcome)
    (hcontrollers : w'.controllers = w.controllers) (hpopens : w'.popens = w.popens)
    (herrors : w'.cleanupErrors = w.cleanupErrors) : Quiet w w' :=
  ⟨hcallbacks, hcalled, hregistered, houtcome, fun _ => by rw [hcontrollers],
    fun h => herrors.symm.trans h, fun _ h => by rw [World.isDone, hpopens]; exact h, by rw [hpopens]⟩

/-! ### What an item does -/

/-- It neither calls the callbacks nor ends. -/
def Item.isPlain : Item → Bool
  | .callbacks | .finish _ => false
  | _ => true

/-- It comes to the daemons of a controller. -/
def Item.reaches : Item → Option ℕ
  | .restamp c | .join c _ | .daemons c _ => some c
  | _ => none

theorem Item.reaches_eq_none (h : item.kills = some pid) : item.reaches = none := by
  cases item <;> first | rfl | cases h

theorem Item.kills_eq_none {c : ℕ} (h : item.reaches = some c) : item.kills = none := by
  cases item <;> first | rfl | cases h

/-- A plain item does what there is to do, or leaves it to those that come in its place. -/
structure Moves (w : World) (item : Item) (w' : World) (items : List Item) : Prop where
  quiet : Quiet w w'
  plain : ∀ i ∈ items, i.isPlain = true
  mounts : ∀ (c : ℕ) fd, (w'.controllers[c]?).bind Controller.mountFd = some fd →
    (w.controllers[c]?).bind Controller.mountFd = some fd ∧ item ≠ .mount c
  fds : ∀ fd id, w.os.fds.find? fd = some id →
    w'.os.fds.find? fd = none ∨ w'.os.fds.find? fd = some id
  owned : ∀ e ∈ w'.owned, e ∈ w.owned ∨ ∃ fd previous, items = [.store e.1 fd previous] ∧
    w'.os.fds.find? fd = some e.2
  kills : ∀ pid, item.kills = some pid →
    w'.namespaces.find? pid = none ∨ pid ∈ items.filterMap Item.kills
  all : item = .killNamespaces → ∀ pid fd, w'.namespaces.find? pid = some fd →
    pid ∈ items.filterMap Item.kills
  stops : ∀ n s, item = .stop n s → w'.Clean → w'.isDone n = true ∨ ∃ s', .stop n s' ∈ items
  reaches : ∀ c, item.reaches = some c → (∃ i ∈ items, i.reaches = some c) ∨
    ∀ d, w.controllers[c]? = some d → ∀ n ∈ d.lazyPageDaemons, .stop n .poll ∈ items

/-- An item that has to do neither with the namespaces, nor with the controllers, nor with processes. -/
theorem Moves.aside (hquiet : Quiet w w') (hplain : ∀ i ∈ items, i.isPlain = true)
    (hcontrollers : w'.controllers = w.controllers)
    (hfds : ∀ fd id, w.os.fds.find? fd = some id →
      w'.os.fds.find? fd = none ∨ w'.os.fds.find? fd = some id)
    (howned : w'.owned = w.owned) (hkills : item.kills = none) (hne : item ≠ .killNamespaces)
    (hmount : ∀ c, item ≠ .mount c) (hstop : ∀ n s, item ≠ .stop n s) (hreaches : item.reaches = none) :
    Moves w item w' items where
  quiet := hquiet
  plain := hplain
  mounts c fd h := ⟨by rw [← hcontrollers]; exact h, hmount c⟩
  fds := hfds
  owned e he := .inl (howned ▸ he)
  kills pid h := by rw [hkills] at h; cases h
  all h := absurd h hne
  stops n s h := absurd h (hstop n s)
  reaches c h := by rw [hreaches] at h; cases h

theorem fds_same (h : w'.os.fds = w.os.fds) : ∀ fd id, w.os.fds.find? fd = some id →
    w'.os.fds.find? fd = none ∨ w'.os.fds.find? fd = some id :=
  fun _ _ hfd => .inr (by rw [h]; exact hfd)

theorem fds_close {k : Kernel} : ∀ fd' id, k.fds.find? fd' = some id →
    (k.close fd).fds.find? fd' = none ∨ (k.close fd).fds.find? fd' = some id := by
  intro fd' id h
  rw [Kernel.close, Dict.find?_erase]
  split_ifs
  · exact .inl rfl
  · exact .inr h

theorem fds_pin {k : Kernel} (hfree : k.fds.find? fd = none) : ∀ fd' id', k.fds.find? fd' = some id' →
    (k.pin fd id).fds.find? fd' = none ∨ (k.pin fd id).fds.find? fd' = some id' := by
  intro fd' id' h
  refine .inr ?_
  rw [Kernel.pin, Dict.find?_set_of_ne, h]
  rintro rfl
  simp [hfree] at h

theorem ownNamespace_moves (hown : item.isOwn = true)
    (hnext : w.ownNamespace self item a = some (w', items)) : Moves w item w' items := by
  have haside : ∀ {w₁ : World} {l : List Item}, w₁.owned = w.owned → Quiet w w₁ →
      (∀ i ∈ l, i.isPlain = true) → w₁.controllers = w.controllers →
      (∀ fd id, w.os.fds.find? fd = some id →
        w₁.os.fds.find? fd = none ∨ w₁.os.fds.find? fd = some id) → Moves w item w₁ l := by
    intro w₁ l howned hquiet hplain hcontrollers hfds
    cases item with
    | look pid => exact .aside hquiet hplain hcontrollers hfds howned rfl nofun nofun nofun rfl
    | opening pid previous => exact .aside hquiet hplain hcontrollers hfds howned rfl nofun nofun nofun rfl
    | store pid fd previous => exact .aside hquiet hplain hcontrollers hfds howned rfl nofun nofun nofun rfl
    | _ => cases hown
  unfold World.ownNamespace at hnext
  split at hnext
  · split_ifs at hnext
    · obtain ⟨rfl, rfl⟩ := Prod.mk.inj (Option.some.inj hnext)
      exact haside rfl (Quiet.refl w) nofun rfl (fds_same rfl)
    · split at hnext
      · obtain ⟨rfl, rfl⟩ := Prod.mk.inj (Option.some.inj hnext)
        refine haside rfl (Quiet.refl w) (fun i hi => ?_) rfl (fds_same rfl)
        split_ifs at hi
        · obtain rfl := List.mem_singleton.mp hi
          rfl
        · cases hi
      · obtain ⟨rfl, rfl⟩ := Prod.mk.inj (Option.some.inj hnext)
        refine haside rfl (Quiet.refl w) (fun i hi => ?_) rfl (fds_same rfl)
        obtain rfl := List.mem_singleton.mp hi
        rfl
  · -- the process is owned from now on
    rename_i pid previous fd
    split_ifs at hnext with hfree
    obtain ⟨p, -, heq⟩ := Option.map_eq_some_iff.mp hnext
    obtain ⟨rfl, rfl⟩ := Prod.mk.inj heq
    refine ⟨.of_eq rfl rfl rfl rfl rfl rfl rfl, fun i hi => ?_, fun c fd' h => ⟨h, nofun⟩,
      fds_pin hfree, fun e he => ?_, nofun, nofun, nofun, nofun⟩
    · obtain rfl := List.mem_singleton.mp hi
      rfl
    · rcases List.mem_append.mp he with he | he
      · exact .inl he
      · obtain rfl := List.mem_singleton.mp he
        exact .inr ⟨fd, previous, rfl, Dict.find?_set_self _ _ _⟩
  · split_ifs at hnext
    obtain ⟨rfl, rfl⟩ := Prod.mk.inj (Option.some.inj hnext)
    exact haside rfl (Quiet.refl w) nofun rfl (fds_same rfl)
  · obtain ⟨rfl, rfl⟩ := Prod.mk.inj (Option.some.inj hnext)
    exact haside rfl (Quiet.refl w) nofun rfl (fds_same rfl)
  · rename_i pid fd previous
    obtain ⟨rfl, rfl⟩ := Prod.mk.inj (Option.some.inj hnext)
    refine haside rfl (.of_eq rfl rfl rfl rfl rfl rfl rfl) nofun rfl ?_
    cases previous with
    | none => exact fds_same rfl
    | some old => exact fds_close
  · cases hnext

/-- A namespace is still to be killed. -/
theorem Moves.killing {i : Item} (hpid : item.kills = some pid) (hi : i.kills = some pid)
    (hplain : i.isPlain = true) (hquiet : Quiet w w') (hcontrollers : w'.controllers = w.controllers)
    (hfds : w'.os.fds = w.os.fds) (howned : w'.owned = w.owned) : Moves w item w' [i] where
  quiet := hquiet
  plain j hj := by obtain rfl := List.mem_singleton.mp hj; exact hplain
  mounts c fd h := ⟨by rw [← hcontrollers]; exact h, by rintro rfl; cases hpid⟩
  fds := fds_same hfds
  owned e he := .inl (howned ▸ he)
  kills pid' h := .inr (by rw [← Option.some.inj (hpid.symm.trans h)]; simp [hi])
  all h := by subst h; cases hpid
  stops n s h := by subst h; cases hpid
  reaches c h := by rw [Item.reaches_eq_none hpid] at h; cases h

theorem killNamespace_moves (hnext : w.killNamespace item a = some (w', items)) :
    Moves w item w' items := by
  unfold World.killNamespace at hnext
  split at hnext
  · obtain ⟨rfl, rfl⟩ := Prod.mk.inj (Option.some.inj hnext)
    refine ⟨Quiet.refl w, fun i hi => ?_, fun c fd h => ⟨h, nofun⟩, fds_same rfl, fun e he => .inl he,
      nofun, fun _ pid fd hpid => ?_, nofun, nofun⟩
    · obtain ⟨e, -, rfl⟩ := List.mem_map.mp hi
      rfl
    · exact List.mem_filterMap.mpr
        ⟨.kill pid fd, List.mem_map.mpr ⟨(pid, fd), Dict.find?_eq_some_iff.mp hpid, rfl⟩, rfl⟩
  · rename_i pid fd
    obtain ⟨rfl, rfl⟩ := Prod.mk.inj (Option.some.inj hnext)
    cases hsend : w.send fd (.namespacePid pid) with
    | none => exact .killing rfl rfl rfl (Quiet.refl w) rfl rfl rfl
    | some w₁ =>
      obtain ⟨p, -, rfl⟩ := World.send_cases hsend
      exact .killing rfl rfl rfl (.of_eq rfl rfl rfl rfl rfl rfl rfl) rfl rfl rfl
  · obtain ⟨rfl, rfl⟩ := Prod.mk.inj (Option.some.inj hnext)
    exact .killing rfl rfl rfl (Quiet.refl w) rfl rfl rfl
  · split_ifs at hnext
    obtain ⟨rfl, rfl⟩ := Prod.mk.inj (Option.some.inj hnext)
    exact .killing rfl rfl rfl (Quiet.refl w) rfl rfl rfl
  · split_ifs at hnext
    obtain ⟨rfl, rfl⟩ := Prod.mk.inj (Option.some.inj hnext)
    exact .killing rfl rfl rfl (Quiet.refl w) rfl rfl rfl
  · obtain ⟨rfl, rfl⟩ := Prod.mk.inj (Option.some.inj hnext)
    exact .killing rfl rfl rfl (Quiet.refl w) rfl rfl rfl
  · -- the entry is removed
    rename_i pid fd error
    obtain ⟨rfl, rfl⟩ := Prod.mk.inj (Option.some.inj hnext)
    have hquiet : Quiet w { w with os := w.os.close fd, namespaces := w.namespaces.erase pid } :=
      .of_eq rfl rfl rfl rfl rfl rfl rfl
    have hnone : ∀ pid', some pid = some pid' → (w.namespaces.erase pid).find? pid' = none := by
      rintro pid' heq
      obtain rfl := Option.some.inj heq
      exact Dict.find?_erase_self _ _
    cases error with
    | none =>
      exact ⟨hquiet, nofun, fun c fd' h => ⟨h, nofun⟩, fds_close, fun e he => .inl he,
        fun pid' h => .inl (hnone pid' h), nofun, nofun, nofun⟩
    | some error =>
      exact ⟨hquiet.trans (quiet_report _ _ _), nofun, fun c fd' h => ⟨h, nofun⟩, fds_close,
        fun e he => .inl he, fun pid' h => .inl (hnone pid' h), nofun, nofun, nofun⟩
  · cases hnext

theorem quiet_call {name : String} (h : w.call name a = some w') :
    Quiet w w' ∧ w'.controllers = w.controllers ∧ w'.os = w.os ∧ w'.owned = w.owned := by
  cases a with
  | ok =>
    obtain rfl := Option.some.inj h
    exact ⟨Quiet.refl w, rfl, rfl, rfl⟩
  | fails error =>
    obtain rfl := Option.some.inj h
    exact ⟨quiet_report w _ _, rfl, rfl, rfl⟩
  | no => cases h
  | vanished => cases h
  | fd n => cases h
  | pids l => cases h

/-- A call that may be left out. -/
theorem Moves.callIf {name : String} {b : Bool} (hkills : item.kills = none)
    (hne : item ≠ .killNamespaces) (hmount : ∀ c, item ≠ .mount c) (hstop : ∀ n s, item ≠ .stop n s)
    (hreaches : item.reaches = none)
    (hnext : (if b then w.call name a else some w).map (·, []) = some (w', items)) :
    Moves w item w' items := by
  obtain ⟨w₁, hw₁, heq⟩ := Option.map_eq_some_iff.mp hnext
  obtain ⟨rfl, rfl⟩ := Prod.mk.inj heq
  split_ifs at hw₁
  · obtain ⟨hquiet, hcontrollers, hos, howned⟩ := quiet_call hw₁
    exact .aside hquiet nofun hcontrollers (fds_same (by rw [hos])) howned hkills hne hmount hstop
      hreaches
  · obtain rfl := Option.some.inj hw₁
    exact .aside (Quiet.refl w) nofun rfl (fds_same rfl) rfl hkills hne hmount hstop hreaches

/-- The daemons of a controller are still to come. -/
theorem Moves.coming {i : Item} {c : ℕ} (hc : item.reaches = some c) (hi : i.reaches = some c)
    (hplain : i.isPlain = true) (hquiet : Quiet w w') (hcontrollers : w'.controllers = w.controllers)
    (hos : w'.os = w.os) (howned : w'.owned = w.owned) : Moves w item w' [i] where
  quiet := hquiet
  plain j hj := by obtain rfl := List.mem_singleton.mp hj; exact hplain
  mounts c fd h := ⟨by rw [← hcontrollers]; exact h, by rintro rfl; cases hc⟩
  fds := fds_same (by rw [hos])
  owned e he := .inl (howned ▸ he)
  kills pid h := by rw [Item.kills_eq_none hc] at h; cases h
  all h := by subst h; cases hc
  stops n s h := by subst h; cases hc
  reaches c' h := .inl ⟨i, List.mem_singleton_self i, hi.trans (hc.symm.trans h)⟩

theorem close_moves {c : Controller}
    (hc : ∀ i, item = .mount i ∨ item.reaches = some i → w.controllers[i]? = some c)
    (hnext : w.close c item a = some (w', items)) : Moves w item w' items := by
  unfold World.close at hnext
  split at hnext
  · exact .callIf rfl nofun nofun nofun rfl hnext
  · split_ifs at hnext
    · obtain ⟨w₁, hw₁, heq⟩ := Option.map_eq_some_iff.mp hnext
      obtain ⟨rfl, rfl⟩ := Prod.mk.inj heq
      obtain ⟨hquiet, hcontrollers, hos, howned⟩ := quiet_call hw₁
      exact .coming rfl rfl rfl hquiet hcontrollers hos howned
    · obtain ⟨rfl, rfl⟩ := Prod.mk.inj (Option.some.inj hnext)
      exact .coming rfl rfl rfl (Quiet.refl w) rfl rfl rfl
  · obtain ⟨rfl, rfl⟩ := Prod.mk.inj (Option.some.inj hnext)
    exact .coming rfl rfl rfl (quiet_errors w _) rfl rfl rfl
  · obtain ⟨rfl, rfl⟩ := Prod.mk.inj (Option.some.inj hnext)
    exact .coming rfl rfl rfl (Quiet.refl w) rfl rfl rfl
  · -- the daemons
    rename_i i stopped
    obtain ⟨rfl, rfl⟩ := Prod.mk.inj (Option.some.inj hnext)
    refine ⟨Quiet.refl w, fun j hj => ?_, fun c fd h => ⟨h, nofun⟩, fds_same rfl, fun e he => .inl he,
      nofun, nofun, nofun, fun j hj => .inr fun d hd n hn => ?_⟩
    · rcases List.mem_append.mp hj with hj | hj
      · obtain ⟨n, -, rfl⟩ := List.mem_map.mp hj
        rfl
      · obtain rfl := List.mem_singleton.mp hj
        rfl
    · obtain rfl := Option.some.inj hj
      obtain rfl := Option.some.inj ((hc i (.inr rfl)).symm.trans hd)
      exact List.mem_append_left _ (List.mem_map.mpr ⟨n, hn, rfl⟩)
  · exact .callIf rfl nofun nofun nofun rfl hnext
  · -- the mount
    rename_i i
    have hi := hc i (.inl rfl)
    have hlt := (List.getElem?_eq_some_iff.mp hi).1
    split at hnext
    · rename_i fd hfd
      obtain ⟨rfl, rfl⟩ := Prod.mk.inj (Option.some.inj hnext)
      refine ⟨⟨rfl, rfl, rfl, rfl, fun j => ?_, fun h => h, fun _ h => h, rfl⟩, fun j hj => ?_,
        fun j fd' hj => ?_, fds_same rfl, fun e he => .inl he, nofun, nofun, nofun, nofun⟩
      · by_cases heq : i = j
        · subst heq
          rw [List.getElem?_set_self hlt, hi]
          rfl
        · rw [List.getElem?_set_ne heq]
      · obtain rfl := List.mem_singleton.mp hj
        rfl
      · by_cases heq : i = j
        · subst heq
          rw [List.getElem?_set_self hlt] at hj
          cases hj
        · rw [List.getElem?_set_ne heq] at hj
          exact ⟨hj, fun h => heq (Item.mount.inj h)⟩
    · rename_i hnone
      obtain ⟨rfl, rfl⟩ := Prod.mk.inj (Option.some.inj hnext)
      refine ⟨Quiet.refl w, nofun, fun j fd' hj => ⟨hj, ?_⟩, fds_same rfl, fun e he => .inl he, nofun,
        nofun, nofun, nofun⟩
      rintro h
      obtain rfl := Item.mount.inj h
      rw [hi, Option.bind_some, hnone] at hj
      cases hj
  · exact .callIf rfl nofun nofun nofun rfl hnext
  · cases hnext

/-- A process is still to be stopped, or has been waited for, or an error has been recorded. -/
theorem Moves.stopping {s : Stop} (hquiet : Quiet w w') (hplain : ∀ i ∈ items, i.isPlain = true)
    (hcontrollers : w'.controllers = w.controllers) (hfds : w'.os.fds = w.os.fds)
    (howned : w'.owned = w.owned)
    (hstops : w'.Clean → w'.isDone n = true ∨ ∃ s', .stop n s' ∈ items) :
    Moves w (.stop n s) w' items where
  quiet := hquiet
  plain := hplain
  mounts c fd h := ⟨by rw [← hcontrollers]; exact h, nofun⟩
  fds := fds_same hfds
  owned e he := .inl (howned ▸ he)
  kills := nofun
  all := nofun
  stops m s' h hclean := by
    obtain ⟨rfl, -⟩ := Item.stop.inj h
    exact hstops hclean
  reaches := nofun

theorem poll_owned (w : World) (n : ℕ) : (w.poll n).owned = w.owned := by
  obtain heq | ⟨c, -, heq⟩ := w.poll_cases n
  · rw [heq]
  · rw [heq]
    rfl

theorem sendSignal_owned (w : World) (n : ℕ) : (w.sendSignal n).owned = w.owned := by
  rw [World.sendSignal]
  split_ifs
  · exact poll_owned w n
  · split <;> exact poll_owned w n

theorem stopProcess_moves {s : Stop} (hnext : w.stopProcess n s a = some (w', items)) :
    Moves w (.stop n s) w' items := by
  have hquiet := quiet_poll w n
  obtain ⟨hfds, -, -, hcontrollers⟩ := w.poll_same n
  have howned := poll_owned w n
  have hsignal : ∀ s', Moves w (.stop n s) (w.sendSignal n) [.stop n s'] := by
    intro s'
    obtain ⟨hfds', -, -, hcontrollers'⟩ := w.sendSignal_same n
    refine .stopping (quiet_sendSignal w n) (fun i hi => ?_) hcontrollers' hfds'
      (sendSignal_owned w n) fun _ => .inr ⟨s', List.mem_singleton_self _⟩
    obtain rfl := List.mem_singleton.mp hi
    rfl
  unfold World.stopProcess at hnext
  split at hnext
  · obtain ⟨rfl, rfl⟩ := Prod.mk.inj (Option.some.inj hnext)
    refine .stopping hquiet (fun i hi => ?_) hcontrollers hfds howned fun _ => ?_
    · split_ifs at hi
      · cases hi
      · obtain rfl := List.mem_singleton.mp hi
        rfl
    · split_ifs with hdone
      · exact .inl hdone
      · exact .inr ⟨.terminate, List.mem_singleton_self _⟩
  · obtain ⟨rfl, rfl⟩ := Prod.mk.inj (Option.some.inj hnext)
    exact hsignal _
  · obtain ⟨rfl, rfl⟩ := Prod.mk.inj (Option.some.inj hnext)
    exact hsignal _
  · dsimp only at hnext
    split_ifs at hnext
    obtain ⟨rfl, rfl⟩ := Prod.mk.inj (Option.some.inj hnext)
    exact .stopping (hquiet.trans (quiet_report _ _ _)) nofun hcontrollers hfds howned
      fun h => absurd h (not_clean_report _ _ _)
  · dsimp only at hnext
    split_ifs at hnext
    obtain ⟨rfl, rfl⟩ := Prod.mk.inj (Option.some.inj hnext)
    exact .stopping (hquiet.trans (quiet_report _ _ _)) nofun hcontrollers hfds howned
      fun h => absurd h (not_clean_report _ _ _)
  · dsimp only at hnext
    split_ifs at hnext with hdone
    obtain ⟨rfl, rfl⟩ := Prod.mk.inj (Option.some.inj hnext)
    exact .stopping hquiet nofun hcontrollers hfds howned fun _ => .inl hdone
  · dsimp only at hnext
    split_ifs at hnext with hdone
    obtain ⟨rfl, rfl⟩ := Prod.mk.inj (Option.some.inj hnext)
    exact .stopping hquiet nofun hcontrollers hfds howned fun _ => .inl hdone
  · split_ifs at hnext
    obtain ⟨rfl, rfl⟩ := Prod.mk.inj (Option.some.inj hnext)
    refine .stopping (Quiet.refl w) (fun i hi => ?_) rfl rfl rfl
      fun _ => .inr ⟨.kill, List.mem_singleton_self _⟩
    obtain rfl := List.mem_singleton.mp hi
    rfl
  · split_ifs at hnext
    obtain ⟨rfl, rfl⟩ := Prod.mk.inj (Option.some.inj hnext)
    exact .stopping (quiet_report _ _ _) nofun rfl rfl rfl fun h => absurd h (not_clean_report _ _ _)
  · cases hnext

/-- An item of `_stop_launcher_children`. -/
def Item.isLauncher : Item → Bool
  | .children _ | .each _ _ | .check _ _ _ _ | .strike _ _ _ _ | .await _ _ _ _ | .drop _ _ _ _ => true
  | _ => false

theorem Moves.launcher (hitem : item.isLauncher = true) (hquiet : Quiet w w')
    (hplain : ∀ i ∈ items, i.isPlain = true) (hcontrollers : w'.controllers = w.controllers)
    (hfds : ∀ fd id, w.os.fds.find? fd = some id →
      w'.os.fds.find? fd = none ∨ w'.os.fds.find? fd = some id)
    (howned : w'.owned = w.owned) : Moves w item w' items := by
  refine .aside hquiet hplain hcontrollers hfds howned ?_ ?_ ?_ ?_ ?_
  · cases item <;> first | rfl | cases hitem
  · rintro rfl
    cases hitem
  · rintro c rfl
    cases hitem
  · rintro n s rfl
    cases hitem
  · cases item <;> first | rfl | cases hitem

/-- Nothing is left of it. -/
theorem Moves.launcher_nil (hitem : item.isLauncher = true) (hquiet : Quiet w w')
    (hcontrollers : w'.controllers = w.controllers) (hfds : w'.os.fds = w.os.fds)
    (howned : w'.owned = w.owned) : Moves w item w' [] :=
  .launcher hitem hquiet (fun _ hi => absurd hi List.not_mem_nil) hcontrollers (fds_same hfds) howned

/-- It goes on. -/
theorem Moves.launcher_one {i : Item} (hitem : item.isLauncher = true) (hi : i.isPlain = true)
    (hquiet : Quiet w w') (hcontrollers : w'.controllers = w.controllers)
    (hfds : w'.os.fds = w.os.fds) (howned : w'.owned = w.owned) : Moves w item w' [i] := by
  refine .launcher hitem hquiet (fun j hj => ?_) hcontrollers (fds_same hfds) howned
  obtain rfl := List.mem_singleton.mp hj
  exact hi

theorem stopLauncherChildren_moves (hitem : item.isLauncher = true)
    (hnext : w.stopLauncherChildren item a = some (w', items)) : Moves w item w' items := by
  unfold World.stopLauncherChildren at hnext
  split at hnext
  · rename_i n
    have hquiet := quiet_poll w n
    obtain ⟨hfds, -, -, hcontrollers⟩ := w.poll_same n
    have howned := poll_owned w n
    dsimp only at hnext
    split_ifs at hnext
    · obtain ⟨rfl, rfl⟩ := Prod.mk.inj (Option.some.inj hnext)
      exact .launcher_nil hitem hquiet hcontrollers hfds howned
    · split at hnext
      · obtain ⟨rfl, rfl⟩ := Prod.mk.inj (Option.some.inj hnext)
        exact .launcher_one hitem rfl hquiet hcontrollers hfds howned
      · obtain ⟨rfl, rfl⟩ := Prod.mk.inj (Option.some.inj hnext)
        exact .launcher_nil hitem hquiet hcontrollers hfds howned
      · obtain ⟨rfl, rfl⟩ := Prod.mk.inj (Option.some.inj hnext)
        exact .launcher_nil hitem (hquiet.trans (quiet_report _ _ _)) hcontrollers hfds howned
      · cases hnext
  · obtain ⟨rfl, rfl⟩ := Prod.mk.inj (Option.some.inj hnext)
    exact .launcher_nil hitem (Quiet.refl w) rfl rfl rfl
  · split_ifs at hnext with hfree
    obtain ⟨p, -, heq⟩ := Option.map_eq_some_iff.mp hnext
    obtain ⟨rfl, rfl⟩ := Prod.mk.inj heq
    refine .launcher hitem (.of_eq rfl rfl rfl rfl rfl rfl rfl) (fun i hi => ?_) rfl (fds_pin hfree) rfl
    obtain rfl := List.mem_singleton.mp hi
    rfl
  · split_ifs at hnext
    obtain ⟨rfl, rfl⟩ := Prod.mk.inj (Option.some.inj hnext)
    exact .launcher_one hitem rfl (Quiet.refl w) rfl rfl rfl
  · obtain ⟨rfl, rfl⟩ := Prod.mk.inj (Option.some.inj hnext)
    exact .launcher_nil hitem (quiet_report _ _ _) rfl rfl rfl
  · obtain ⟨p, -, heq⟩ := Option.map_eq_some_iff.mp hnext
    obtain ⟨rfl, rfl⟩ := Prod.mk.inj heq
    split_ifs
    · exact .launcher_one hitem rfl (Quiet.refl w) rfl rfl rfl
    · exact .launcher_one hitem rfl (Quiet.refl w) rfl rfl rfl
  · split_ifs at hnext
    obtain ⟨rfl, rfl⟩ := Prod.mk.inj (Option.some.inj hnext)
    exact .launcher_one hitem rfl (Quiet.refl w) rfl rfl rfl
  · obtain ⟨rfl, rfl⟩ := Prod.mk.inj (Option.some.inj hnext)
    exact .launcher_one hitem rfl (Quiet.refl w) rfl rfl rfl
  · split at hnext
    · rename_i hsend
      obtain ⟨p, -, rfl⟩ := World.send_cases hsend
      obtain ⟨rfl, rfl⟩ := Prod.mk.inj (Option.some.inj hnext)
      exact .launcher_one hitem rfl (.of_eq rfl rfl rfl rfl rfl rfl rfl) rfl rfl rfl
    · obtain ⟨rfl, rfl⟩ := Prod.mk.inj (Option.some.inj hnext)
      exact .launcher_one hitem rfl (Quiet.refl w) rfl rfl rfl
  · obtain ⟨rfl, rfl⟩ := Prod.mk.inj (Option.some.inj hnext)
    exact .launcher_one hitem rfl (Quiet.refl w) rfl rfl rfl
  · split_ifs at hnext
    obtain ⟨rfl, rfl⟩ := Prod.mk.inj (Option.some.inj hnext)
    exact .launcher_one hitem rfl (Quiet.refl w) rfl rfl rfl
  · split_ifs at hnext
    obtain ⟨rfl, rfl⟩ := Prod.mk.inj (Option.some.inj hnext)
    exact .launcher_one hitem rfl (Quiet.refl w) rfl rfl rfl
  · obtain ⟨rfl, rfl⟩ := Prod.mk.inj (Option.some.inj hnext)
    exact .launcher_one hitem rfl (Quiet.refl w) rfl rfl rfl
  · rename_i n fd pids error
    have hquiet : Quiet w { w with os := w.os.close fd } := .of_eq rfl rfl rfl rfl rfl rfl rfl
    cases error with
    | none =>
      obtain ⟨rfl, rfl⟩ := Prod.mk.inj (Option.some.inj hnext)
      refine .launcher hitem hquiet (fun i hi => ?_) rfl fds_close rfl
      obtain rfl := List.mem_singleton.mp hi
      rfl
    | some error =>
      obtain ⟨rfl, rfl⟩ := Prod.mk.inj (Option.some.inj hnext)
      exact .launcher hitem (hquiet.trans (quiet_report _ _ _)) nofun rfl fds_close rfl
  · cases hnext

/-- **A plain item.** -/
theorem next_moves (hplain : item.isPlain = true)
    (hnext : w.next self item a = some (w', items)) : Moves w item w' items := by
  have hcloses : ∀ i, w.controllers[i]?.bind (fun c => w.close c item a) = some (w', items) →
      (∀ j, item = .mount j ∨ item.reaches = some j → j = i) → Moves w item w' items := by
    intro i hbind hi
    obtain ⟨c, hc, hclose⟩ := Option.bind_eq_some_iff.mp hbind
    exact close_moves (fun j hj => hi j hj ▸ hc) hclose
  unfold World.next at hnext
  split at hnext
  · exact ownNamespace_moves rfl hnext
  · exact ownNamespace_moves rfl hnext
  · exact ownNamespace_moves rfl hnext
  · exact killNamespace_moves hnext
  · exact killNamespace_moves hnext
  · exact killNamespace_moves hnext
  · exact killNamespace_moves hnext
  · split at hnext
    · obtain ⟨rfl, rfl⟩ := Prod.mk.inj (Option.some.inj hnext)
      exact .aside (Quiet.refl w) nofun rfl (fds_same rfl) rfl rfl nofun nofun nofun rfl
    · obtain ⟨rfl, rfl⟩ := Prod.mk.inj (Option.some.inj hnext)
      exact .aside (Quiet.refl w) nofun rfl (fds_same rfl) rfl rfl nofun nofun nofun rfl
    · cases hnext
  · exact hcloses _ hnext fun j hj => hj.elim nofun nofun
  · exact hcloses _ hnext fun j hj => hj.elim nofun fun h => (Option.some.inj h).symm
  · exact hcloses _ hnext fun j hj => hj.elim nofun fun h => (Option.some.inj h).symm
  · exact hcloses _ hnext fun j hj => hj.elim nofun fun h => (Option.some.inj h).symm
  · exact hcloses _ hnext fun j hj => hj.elim nofun nofun
  · exact hcloses _ hnext fun j hj => hj.elim (fun h => (Item.mount.inj h).symm) nofun
  · exact hcloses _ hnext fun j hj => hj.elim nofun nofun
  · split at hnext
    · obtain ⟨rfl, rfl⟩ := Prod.mk.inj (Option.some.inj hnext)
      exact .aside (.of_eq rfl rfl rfl rfl rfl rfl rfl) nofun rfl fds_close rfl rfl nofun nofun nofun rfl
    · cases hnext
  · exact stopProcess_moves hnext
  · exact stopLauncherChildren_moves rfl hnext
  · exact stopLauncherChildren_moves rfl hnext
  · exact stopLauncherChildren_moves rfl hnext
  · exact stopLauncherChildren_moves rfl hnext
  · exact stopLauncherChildren_moves rfl hnext
  · exact stopLauncherChildren_moves rfl hnext
  · cases hplain
  · obtain ⟨w₁, hw₁, heq⟩ := Option.map_eq_some_iff.mp hnext
    obtain ⟨rfl, rfl⟩ := Prod.mk.inj heq
    obtain ⟨hquiet, hcontrollers, hos, howned⟩ := quiet_call hw₁
    exact .aside hquiet nofun hcontrollers (fds_same (by rw [hos])) howned rfl nofun nofun nofun rfl
  · cases hplain

/-! ### What is known of processes that have ended -/

/-- A descriptor is readable when its process has ended. -/
theorem over_of_gone (h : Facts w) (hgone : w.gone fd = true) (hid : w.os.fds.find? fd = some id) :
    w.Over id := by
  refine ⟨h.os.past fd id hid, fun p hp hpid => ?_⟩
  have hpinned : w.os.pinned fd = some p := by
    rw [Kernel.pinned, hid, Option.bind_some, ← hpid]
    exact h.os.byId hp
  rw [World.gone, hpinned] at hgone
  exact hgone

/-- Where a namespace is not owned any more, its process has ended, or there is an error. -/
def Item.Knows (w : World) : Item → Prop
  | .opening _ (some previous) | .store _ _ (some previous) =>
    ∀ id, w.os.fds.find? previous = some id → w.Over id
  | .close _ fd none => ∀ id, w.os.fds.find? fd = some id → w.Over id
  | _ => True

theorem Item.Waits.knows (h : item.Waits w) : item.Knows w' := by
  cases item <;> first | exact trivial | exact h.elim

/-- It takes an item of `own_namespace` or `_kill_namespace`. -/
theorem Item.knows_of (hown : item.isOwn = false) (hkills : item.kills = none) : item.Knows w := by
  cases item with
  | look pid => cases hown
  | opening pid previous => cases hown
  | store pid fd previous => cases hown
  | kill pid fd => cases hkills
  | gone pid fd => cases hkills
  | close pid fd error => cases hkills
  | _ => exact trivial

theorem ownNamespace_knows (h : Facts w) (hfits : item.Fits w) (hknows : item.Knows w)
    (hnext : w.ownNamespace self item a = some (w', items)) : ∀ i ∈ items, i.Knows w' := by
  unfold World.ownNamespace at hnext
  split at hnext
  · split_ifs at hnext
    · obtain ⟨rfl, rfl⟩ := Prod.mk.inj (Option.some.inj hnext)
      nofun
    · split at hnext
      · obtain ⟨rfl, rfl⟩ := Prod.mk.inj (Option.some.inj hnext)
        intro i hi
        split_ifs at hi with hgone
        · obtain rfl := List.mem_singleton.mp hi
          exact fun id hid => over_of_gone h hgone hid
        · cases hi
      · obtain ⟨rfl, rfl⟩ := Prod.mk.inj (Option.some.inj hnext)
        intro i hi
        obtain rfl := List.mem_singleton.mp hi
        exact trivial
  · rename_i pid previous fd
    split_ifs at hnext with hfree
    obtain ⟨p, -, heq⟩ := Option.map_eq_some_iff.mp hnext
    obtain ⟨rfl, rfl⟩ := Prod.mk.inj heq
    intro i hi
    obtain rfl := List.mem_singleton.mp hi
    cases previous with
    | none => exact trivial
    | some previous =>
      intro id hid
      rw [Kernel.pin, Dict.find?_set] at hid
      split_ifs at hid with heq
      · -- the number of the new descriptor was free
        subst heq
        obtain ⟨id', hid', -⟩ := h.namespaces pid previous hfits.symm
        rw [hfree] at hid'
        cases hid'
      · exact hknows id hid
  · split_ifs at hnext
    obtain ⟨rfl, rfl⟩ := Prod.mk.inj (Option.some.inj hnext)
    nofun
  · obtain ⟨rfl, rfl⟩ := Prod.mk.inj (Option.some.inj hnext)
    nofun
  · obtain ⟨rfl, rfl⟩ := Prod.mk.inj (Option.some.inj hnext)
    nofun
  · cases hnext

theorem killNamespace_knows (h : Facts w)
    (hnext : w.killNamespace item a = some (w', items)) : ∀ i ∈ items, i.Knows w' := by
  have hplain : ∀ {i : Item} {l : List Item}, l = [i] → i.Knows w → ∀ j ∈ l, j.Knows w := by
    rintro i l rfl hi j hj
    obtain rfl := List.mem_singleton.mp hj
    exact hi
  unfold World.killNamespace at hnext
  split at hnext
  · obtain ⟨rfl, rfl⟩ := Prod.mk.inj (Option.some.inj hnext)
    intro i hi
    obtain ⟨e, -, rfl⟩ := List.mem_map.mp hi
    exact trivial
  · obtain ⟨rfl, rfl⟩ := Prod.mk.inj (Option.some.inj hnext)
    intro i hi
    obtain rfl := List.mem_singleton.mp hi
    exact trivial
  · obtain ⟨rfl, rfl⟩ := Prod.mk.inj (Option.some.inj hnext)
    exact hplain rfl trivial
  · rename_i pid fd
    split_ifs at hnext with hgone
    obtain ⟨rfl, rfl⟩ := Prod.mk.inj (Option.some.inj hnext)
    exact hplain rfl fun id hid => over_of_gone h hgone hid
  · split_ifs at hnext
    obtain ⟨rfl, rfl⟩ := Prod.mk.inj (Option.some.inj hnext)
    exact hplain rfl trivial
  · obtain ⟨rfl, rfl⟩ := Prod.mk.inj (Option.some.inj hnext)
    exact hplain rfl trivial
  · obtain ⟨rfl, rfl⟩ := Prod.mk.inj (Option.some.inj hnext)
    nofun
  · cases hnext

theorem next_knows (h : Ready w item.held) (hfits : item.Fits w) (hknows : item.Knows w)
    (hnext : w.next self item a = some (w', items)) : ∀ i ∈ items.head?, i.Knows w' := by
  have hturn := next_spec h hfits hnext
  intro i hi
  by_cases hown : item.isOwn = true
  · have hnext' : w.ownNamespace self item a = some (w', items) := by
      cases item with
      | look pid => exact hnext
      | opening pid previous => exact hnext
      | store pid fd previous => exact hnext
      | _ => cases hown
    exact ownNamespace_knows h.facts hfits hknows hnext' i (List.mem_of_mem_head? hi)
  · by_cases hkill : item.kills = none ∧ item ≠ .killNamespaces
    · refine Item.knows_of ?_ ?_
      · exact Bool.eq_false_iff.mpr fun h => hown ((hturn.fresh i hi).1 h)
      · have hnil : items.filterMap Item.kills = [] := by
          obtain hnil | heq | ⟨heq, -⟩ := hturn.kills
          · exact hnil
          · rw [heq, hkill.1]
            rfl
          · exact absurd heq hkill.2
        exact List.filterMap_eq_nil_iff.mp hnil i (List.mem_of_mem_head? hi)
    · have hnext' : w.killNamespace item a = some (w', items) := by
        cases item with
        | killNamespaces => exact hnext
        | kill pid fd => exact hnext
        | gone pid fd => exact hnext
        | close pid fd error => exact hnext
        | _ => exact absurd ⟨rfl, nofun⟩ hkill
      exact killNamespace_knows h.facts hnext' i (List.mem_of_mem_head? hi)

/-! ### What is still to be done -/

/-- A namespace that was owned has ended, or is owned still, or is just about to be. -/
def Accounted (w : World) (next : Option Item) (e : ℕ × ℕ) : Prop :=
  w.Over e.2 ∨ ∃ fd, w.os.fds.find? fd = some e.2 ∧
    (w.namespaces.find? e.1 = some fd ∨ ∃ previous, next = some (.store e.1 fd previous))

theorem Accounted.later {next : Option Item} {e : ℕ × ℕ} (h : Accounted w next e)
    (hlater : Later w w') (hfds : w'.os.fds = w.os.fds) (hnamespaces : w'.namespaces = w.namespaces) :
    Accounted w' next e := by
  obtain hover | ⟨fd, hfd, hrest⟩ := h
  · exact .inl (hover.later hlater)
  · exact .inr ⟨fd, by rw [hfds, hfd], by rw [hnamespaces]; exact hrest⟩

/-- It is not about to be owned. -/
theorem Accounted.settled {next next' : Option Item} {e : ℕ × ℕ} (h : Accounted w next e)
    (hne : ∀ pid fd previous, next ≠ some (.store pid fd previous)) : Accounted w next' e := by
  obtain hover | ⟨fd, hfd, hname | ⟨previous, heq⟩⟩ := h
  · exact .inl hover
  · exact .inr ⟨fd, hfd, .inl hname⟩
  · exact absurd heq (hne e.1 fd previous)

theorem Accounted.head {e : ℕ × ℕ} {l : List Item} (h : Accounted w items.head? e) :
    Accounted w (items ++ l).head? e := by
  cases items with
  | nil => exact h.settled fun _ _ _ heq => by cases heq
  | cons i l => exact h

/-- An error that is at hand is recorded. -/
theorem not_clean_close {error : String}
    (hnext : w.killNamespace (.close pid fd (some error)) a = some (w', items)) : ¬w'.Clean := by
  cases a with
  | ok =>
    obtain ⟨rfl, rfl⟩ := Prod.mk.inj (Option.some.inj hnext)
    exact not_clean_report _ _ _
  | no => cases hnext
  | vanished => cases hnext
  | fd n => cases hnext
  | pids l => cases hnext
  | fails text => cases hnext

/-- A namespace that is entered has the descriptor. -/
theorem namespaces_store {previous : Option ℕ}
    (hnext : w.ownNamespace self (.store pid fd previous) a = some (w', items)) :
    w'.namespaces.find? pid = some fd := by
  cases a with
  | ok =>
    obtain ⟨rfl, rfl⟩ := Prod.mk.inj (Option.some.inj hnext)
    exact Dict.find?_set_self _ _ _
  | no => cases hnext
  | vanished => cases hnext
  | fd n => cases hnext
  | pids l => cases hnext
  | fails text => cases hnext

/-- **No namespace gets lost.** -/
theorem accounted_next (h : Ready w item.held) (hfits : item.Fits w) (hknows : item.Knows w)
    (hplain : item.isPlain = true) (hnext : w.next self item a = some (w', items)) (hclean : w'.Clean)
    {e : ℕ × ℕ} (he : e ∈ w'.owned) (haccounted : e ∈ w.owned → Accounted w (some item) e) :
    Accounted w' items.head? e := by
  have hturn := next_spec h hfits hnext
  have hmoves := next_moves hplain hnext
  -- a descriptor that is owned before and after still refers to the same process
  have hstays : ∀ fd, w.os.fds.find? fd = some e.2 → w'.namespaces.find? e.1 = some fd →
      Accounted w' items.head? e := by
    intro fd hfd hname
    obtain ⟨id, hid, -⟩ := hturn.ready.facts.namespaces e.1 fd hname
    obtain hnone | hsome := hmoves.fds fd e.2 hfd
    · rw [hnone] at hid
      cases hid
    · exact .inr ⟨fd, hsome, .inl hname⟩
  obtain hold | ⟨fd, previous, rfl, hfd⟩ := hmoves.owned e he
  · obtain hover | ⟨fd, hfd, hname | ⟨previous, heq⟩⟩ := haccounted hold
    · exact .inl (hover.later hturn.later)
    · by_cases hedits : some e.1 = item.edits
      · cases item with
        | store pid fd' previous =>
          obtain rfl := Option.some.inj hedits
          obtain ⟨rfl, -⟩ := hfits
          rw [hname] at hknows
          exact .inl ((hknows e.2 hfd).later hturn.later)
        | close pid fd' error =>
          obtain rfl := Option.some.inj hedits
          obtain rfl := Option.some.inj (hname.symm.trans hfits)
          cases error with
          | none => exact .inl ((hknows e.2 hfd).later hturn.later)
          | some error => exact absurd hclean (not_clean_close hnext)
        | _ => cases hedits
      · exact hstays fd hfd ((hturn.keeps e.1 hedits).trans hname)
    · obtain rfl := Option.some.inj heq
      exact hstays fd hfd (namespaces_store hnext)
  · exact .inr ⟨fd, hfd, .inr ⟨previous, rfl⟩⟩

/-! ### The invariant -/

variable {s t : State}

/-- `__exit__` has been called. -/
def State.Ending (s : State) : Prop := (∃ exc, .finish exc ∈ s.agenda) ∨ s.world.outcome ≠ none

/-- The process of a `Popen` object will be stopped. -/
def State.Stops (s : State) (n : ℕ) : Prop :=
  .stopProcess n ∈ s.world.callbacks ∨ (∃ s', .stop n s' ∈ s.agenda) ∨
    ∃ c d, s.world.controllers[c]? = some d ∧ n ∈ d.lazyPageDaemons ∧
      (s.Ending → ∃ i ∈ s.agenda, i.reaches = some c)

/-- What there is still to do stands in the agenda. -/
structure Ends (s : State) : Prop where
  inv : Inv s
  knows : ∀ i ∈ s.agenda.head?, i.Knows s.world
  owned : s.world.Clean → ∀ e ∈ s.world.owned, Accounted s.world s.agenda.head? e
  stopped : s.world.Clean → ∀ n < s.world.popens.length, s.world.isDone n = true ∨ s.Stops n
  namespaces : s.Ending → .killNamespaces ∈ s.agenda ∨ ∀ pid fd, s.world.namespaces.find? pid = some fd →
    pid ∈ s.agenda.filterMap Item.kills
  mounts : s.Ending → ∀ (c : ℕ) fd, (s.world.controllers[c]?).bind Controller.mountFd = some fd →
    .mount c ∈ s.agenda
  callbacks : s.Ending → s.world.callbacks ≠ [] → .callbacks ∈ s.agenda
  registered : s.world.registered.reverse = s.world.called ++ s.world.callbacks
  called : ¬s.Ending → s.world.called = [] ∧ .callbacks ∉ s.agenda
  finished : s.world.outcome ≠ none → s.agenda = []
  last : ∀ exc, .finish exc ∉ s.agenda.dropLast
  outcome : ∀ o, s.world.outcome = some o → o = .primary ∨ o = .returned ∧ s.world.Clean ∨
    o = .raised s.world.failure ∧ ¬s.world.Clean

theorem ends_init : Ends State.init where
  inv := inv_init
  knows := nofun
  owned _ := by simp [State.init, World.init]
  stopped _ := by simp [State.init, World.init]
  namespaces h := by simp [State.Ending, State.init, World.init] at h
  mounts h := by simp [State.Ending, State.init, World.init] at h
  callbacks h := by simp [State.Ending, State.init, World.init] at h
  registered := rfl
  called _ := ⟨rfl, List.not_mem_nil⟩
  finished _ := rfl
  last _ := List.not_mem_nil
  outcome := nofun

theorem dropLast_append {l : List Item} {rest : List Item} (hl : ∀ i ∈ l, i.isPlain = true)
    {exc : Bool} (h : .finish exc ∈ (l ++ rest).dropLast) : .finish exc ∈ rest.dropLast := by
  cases rest with
  | nil =>
    rw [List.append_nil] at h
    exact absurd (hl _ (List.dropLast_subset _ h)) Bool.false_ne_true
  | cons i rest =>
    rw [List.dropLast_append_cons] at h
    exact (List.mem_append.mp h).resolve_left fun h => absurd (hl _ h) Bool.false_ne_true

/-- A plain item neither begins nor ends the exit. -/
theorem Moves.ending_iff {rest : List Item} (h : Moves s.world item w' items)
    (hagenda : s.agenda = item :: rest) (hplain : item.isPlain = true)
    (hnone : s.world.outcome = none) : State.Ending ⟨w', items ++ rest⟩ ↔ s.Ending := by
  constructor
  · rintro (⟨exc, hexc⟩ | hsome)
    · refine .inl ⟨exc, hagenda ▸ List.mem_cons_of_mem _ ?_⟩
      exact (List.mem_append.mp hexc).resolve_left fun hi => absurd (h.plain _ hi) Bool.false_ne_true
    · exact absurd (h.quiet.outcome.trans hnone) hsome
  · rintro (⟨exc, hexc⟩ | hsome)
    · rw [hagenda] at hexc
      obtain rfl | hexc := List.mem_cons.mp hexc
      · cases hplain
      · exact .inl ⟨exc, List.mem_append_right _ hexc⟩
    · exact absurd hnone hsome

/-- A process that will be stopped has been stopped, or will be. -/
theorem Moves.done_or_stops {rest : List Item} (h : Moves s.world item w' items)
    (hagenda : s.agenda = item :: rest) (hending : State.Ending ⟨w', items ++ rest⟩ ↔ s.Ending)
    (hclean : w'.Clean) (hstops : s.Stops n) :
    w'.isDone n = true ∨ State.Stops ⟨w', items ++ rest⟩ n := by
  obtain hcb | ⟨s', hstop⟩ | ⟨c, d, hd, hmem, hreach⟩ := hstops
  · exact .inr (.inl (h.quiet.callbacks.symm ▸ hcb))
  · rw [hagenda] at hstop
    obtain rfl | hrest := List.mem_cons.mp hstop
    · obtain hdone | ⟨s'', hs''⟩ := h.stops n s' rfl hclean
      · exact .inl hdone
      · exact .inr (.inr (.inl ⟨s'', List.mem_append_left _ hs''⟩))
    · exact .inr (.inr (.inl ⟨s', List.mem_append_right _ hrest⟩))
  · refine .inr (.inr ?_)
    obtain ⟨d', hd', hdaemons⟩ : ∃ d', w'.controllers[c]? = some d' ∧
        d'.lazyPageDaemons = d.lazyPageDaemons := by
      have heq := h.quiet.daemons c
      rw [hd] at heq
      exact Option.map_eq_some_iff.mp heq
    by_cases hend : s.Ending
    · obtain ⟨i, hi, hic⟩ := hreach hend
      rw [hagenda] at hi
      obtain rfl | hrest := List.mem_cons.mp hi
      · obtain ⟨j, hj, hjc⟩ | hall := h.reaches c hic
        · exact .inr ⟨c, d', hd', hdaemons ▸ hmem, fun _ => ⟨j, List.mem_append_left _ hj, hjc⟩⟩
        · exact .inl ⟨.poll, List.mem_append_left _ (hall d hd n hmem)⟩
      · exact .inr ⟨c, d', hd', hdaemons ▸ hmem, fun _ => ⟨i, List.mem_append_right _ hrest, hic⟩⟩
    · exact .inr ⟨c, d', hd', hdaemons ▸ hmem, fun hend' => absurd (hending.mp hend') hend⟩

/-- While the exit goes on, no namespace is taken over. -/
theorem Ends.isOwn_eq_false (h : Ends s) {rest : List Item} (hagenda : s.agenda = item :: rest)
    (hplain : item.isPlain = true) (hnone : s.world.outcome = none) (hend : s.Ending) :
    item.isOwn = false := by
  by_contra hown
  have hnil := h.inv.alone item (by rw [hagenda]; rfl) (by simpa using hown)
  obtain ⟨exc, hexc⟩ | hsome := hend
  · rw [hagenda] at hexc hnil
    obtain rfl | hexc := List.mem_cons.mp hexc
    · cases hplain
    · rw [List.tail_cons] at hnil
      rw [hnil] at hexc
      cases hexc
  · exact hsome hnone

/-- Each namespace that is still owned will be killed. -/
theorem Moves.killed {rest : List Item} (h : Moves s.world item w' items)
    (hkeeps : ∀ pid, some pid ≠ item.edits → w'.namespaces.find? pid = s.world.namespaces.find? pid)
    (hagenda : s.agenda = item :: rest) (hown : item.isOwn = false)
    (hkilled : .killNamespaces ∈ s.agenda ∨ ∀ pid fd, s.world.namespaces.find? pid = some fd →
      pid ∈ s.agenda.filterMap Item.kills) :
    .killNamespaces ∈ items ++ rest ∨ ∀ pid fd, w'.namespaces.find? pid = some fd →
      pid ∈ (items ++ rest).filterMap Item.kills := by
  rw [List.filterMap_append]
  obtain hkill | hall := hkilled
  · rw [hagenda] at hkill
    obtain heq | hrest := List.mem_cons.mp hkill
    · exact .inr fun pid fd hpid => List.mem_append_left _ (h.all heq.symm pid fd hpid)
    · exact .inl (List.mem_append_right _ hrest)
  · refine .inr fun pid fd hpid => ?_
    by_cases hkill : item.kills = some pid
    · obtain hgone | hmem := h.kills pid hkill
      · rw [hgone] at hpid
        cases hpid
      · exact List.mem_append_left _ hmem
    · have hedits : some pid ≠ item.edits := by
        intro hedits
        cases item with
        | close pid' fd' error => exact hkill hedits.symm
        | store pid' fd' previous => cases hown
        | _ => cases hedits
      have hmem := hall pid fd ((hkeeps pid hedits).symm.trans hpid)
      rw [hagenda, List.filterMap_cons] at hmem
      refine List.mem_append_right _ ?_
      cases hk : item.kills with
      | none => simpa [hk] using hmem
      | some pid' =>
        rw [hk] at hmem
        obtain rfl | hmem := List.mem_cons.mp hmem
        · exact absurd hk hkill
        · exact hmem

/-- A plain item of the agenda. -/
theorem Ends.plain (h : Ends s) {rest : List Item} (hagenda : s.agenda = item :: rest)
    (hplain : item.isPlain = true) (hnext : s.world.next self item a = some (w', items)) :
    Ends ⟨w', items ++ rest⟩ := by
  have hinv' := h.inv.go hagenda hnext
  have hready := h.inv.ready
  have hfits := h.inv.head item (by rw [hagenda]; rfl)
  have hknows := h.knows item (by rw [hagenda]; rfl)
  rw [hagenda] at hready
  have hturn := next_spec hready hfits hnext
  have hmoves := next_moves hplain hnext
  have hnone : s.world.outcome = none := by
    by_contra hsome
    rw [h.finished hsome] at hagenda
    cases hagenda
  have hnone' : w'.outcome = none := hmoves.quiet.outcome.trans hnone
  have hending := hmoves.ending_iff hagenda hplain hnone
  have hhead : ∀ i ∈ (items ++ rest).head?, i ∈ items.head? ∨ items = [] ∧ i ∈ rest.head? := by
    intro i hi
    cases items with
    | nil => exact .inr ⟨rfl, hi⟩
    | cons j l => exact .inl hi
  refine ⟨hinv', fun i hi => ?_, fun hclean e he => ?_, fun hclean n hn => ?_, fun hend => ?_,
    fun hend c fd hfd => ?_, fun hend hne => ?_, ?_, fun hend => ?_, fun hsome => absurd hnone' hsome,
    fun exc hexc => ?_, fun o ho => by rw [hnone'] at ho; cases ho⟩
  · obtain hi | ⟨-, hi⟩ := hhead i hi
    · exact next_knows hready hfits hknows hnext i hi
    · exact (h.inv.rest i (by rw [hagenda]; exact List.mem_of_mem_head? hi)).knows
  · -- the namespaces that have been owned
    refine (accounted_next hready hfits hknows hplain hnext hclean he fun hold => ?_).head
    have hat := h.owned (hmoves.quiet.clean hclean) e hold
    rw [hagenda] at hat
    exact hat
  · obtain hdone | hstops := h.stopped (hmoves.quiet.clean hclean) n (hmoves.quiet.length ▸ hn)
    · exact .inl (hmoves.quiet.done n hdone)
    · exact hmoves.done_or_stops hagenda hending hclean hstops
  · have hend := hending.mp hend
    exact hmoves.killed hturn.keeps hagenda (h.isOwn_eq_false hagenda hplain hnone hend)
      (h.namespaces hend)
  · -- the mounts
    obtain ⟨hold, hne⟩ := hmoves.mounts c fd hfd
    have hmem := h.mounts (hending.mp hend) c fd hold
    rw [hagenda] at hmem
    exact List.mem_append_right _ ((List.mem_cons.mp hmem).resolve_left fun heq => hne heq.symm)
  · have hmem := h.callbacks (hending.mp hend) (hmoves.quiet.callbacks ▸ hne)
    rw [hagenda] at hmem
    refine List.mem_append_right _ ((List.mem_cons.mp hmem).resolve_left ?_)
    rintro rfl
    cases hplain
  · rw [hmoves.quiet.registered, hmoves.quiet.called, hmoves.quiet.callbacks]
    exact h.registered
  · obtain ⟨hcalled, hnot⟩ := h.called fun hend' => hend (hending.mpr hend')
    refine ⟨hmoves.quiet.called.trans hcalled, fun hmem => ?_⟩
    obtain hmem | hmem := List.mem_append.mp hmem
    · exact absurd (hmoves.plain _ hmem) Bool.false_ne_true
    · exact hnot (hagenda ▸ List.mem_cons_of_mem _ hmem)
  · refine h.last exc ?_
    have hdrop := dropLast_append hmoves.plain hexc
    rw [hagenda]
    cases rest with
    | nil => cases hdrop
    | cons i rest => exact List.mem_cons_of_mem _ hdrop

/-- What stands further down when the exit has got as far as to its callbacks, or to its end. -/
theorem Ends.front (h : Ends s) {rest : List Item} (hagenda : s.agenda = item :: rest)
    (hplain : item.isPlain = false) : s.Ending ∧ s.world.outcome = none := by
  have hnone : s.world.outcome = none := by
    by_contra hsome
    rw [h.finished hsome] at hagenda
    cases hagenda
  refine ⟨?_, hnone⟩
  cases item with
  | callbacks =>
    by_contra hend
    exact (h.called hend).2 (hagenda ▸ List.mem_cons_self)
  | finish exc => exact .inl ⟨exc, hagenda ▸ List.mem_cons_self⟩
  | _ => cases hplain

/-- What stays in the agenda kills what it was there to kill. -/
theorem kills_mono {l l' : List Item} (hl : ∀ i ∈ l, i ≠ .callbacks → i ∈ l')
    (hpid : pid ∈ l.filterMap Item.kills) : pid ∈ l'.filterMap Item.kills := by
  obtain ⟨i, hi, hik⟩ := List.mem_filterMap.mp hpid
  refine List.mem_filterMap.mpr ⟨i, hl i hi ?_, hik⟩
  rintro rfl
  cases hik

/-- The last callback is called. -/
theorem Ends.call (h : Ends s) {rest : List Item} (hagenda : s.agenda = .callbacks :: rest)
    {cb : Callback} {cbs : List Callback} (hcallbacks : s.world.callbacks = cb :: cbs)
    (hinv : Inv ⟨{ s.world with callbacks := cbs, called := s.world.called ++ [cb] },
      [cb.item, .callbacks] ++ rest⟩) :
    Ends ⟨{ s.world with callbacks := cbs, called := s.world.called ++ [cb] },
      [cb.item, .callbacks] ++ rest⟩ := by
  obtain ⟨hending, hnone⟩ := h.front hagenda rfl
  have hbegun : State.Ending ⟨{ s.world with callbacks := cbs, called := s.world.called ++ [cb] },
      [cb.item, .callbacks] ++ rest⟩ := by
    obtain ⟨exc, hexc⟩ | hsome := hending
    · rw [hagenda] at hexc
      exact .inl ⟨exc, List.mem_cons_of_mem _ hexc⟩
    · exact absurd hnone hsome
  -- what was in the agenda stays there
  have hmem : ∀ i ∈ s.agenda, i ∈ [cb.item, .callbacks] ++ rest := by
    intro i hi
    rw [hagenda] at hi
    exact List.mem_cons_of_mem _ hi
  refine ⟨hinv, fun i hi => ?_, fun hclean e he => ?_, fun hclean n hn => ?_, fun _ => ?_,
    fun _ c fd hfd => hmem _ (h.mounts hending c fd hfd), fun _ _ =>
      List.mem_cons_of_mem _ List.mem_cons_self, ?_, fun hend => absurd hbegun hend,
    fun hsome => absurd hnone hsome, fun exc hexc => ?_, fun o ho => ?_⟩
  · obtain rfl := Option.some.inj hi
    cases cb <;> exact trivial
  · have hat := h.owned hclean e he
    rw [hagenda] at hat
    exact (hat.settled fun _ _ _ heq => by cases heq).later
      (.of_eq rfl rfl rfl (List.Subset.refl _) rfl) rfl rfl
  · obtain hdone | hcb | ⟨s', hstop⟩ | ⟨c, d, hd, hn, hreach⟩ := h.stopped hclean n hn
    · exact .inl hdone
    · rw [hcallbacks] at hcb
      obtain rfl | hcb := List.mem_cons.mp hcb
      · exact .inr (.inr (.inl ⟨.poll, List.mem_cons_self⟩))
      · exact .inr (.inl hcb)
    · exact .inr (.inr (.inl ⟨s', hmem _ hstop⟩))
    · refine .inr (.inr (.inr ⟨c, d, hd, hn, fun _ => ?_⟩))
      obtain ⟨i, hi, hic⟩ := hreach hending
      exact ⟨i, hmem i hi, hic⟩
  · obtain hkill | hall := h.namespaces hending
    · exact .inl (hmem _ hkill)
    · exact .inr fun pid fd hpid => kills_mono (fun i hi _ => hmem i hi) (hall pid fd hpid)
  · have hreg := h.registered
    rw [hcallbacks] at hreg
    rw [List.append_assoc]
    exact hreg
  · refine h.last exc ?_
    have hdrop : .finish exc ∈ ([cb.item] ++ .callbacks :: rest).dropLast := hexc
    rw [List.dropLast_append_cons] at hdrop
    rw [hagenda]
    refine (List.mem_append.mp hdrop).resolve_left fun hi => ?_
    have heq := List.mem_singleton.mp hi
    cases cb <;> cases heq
  · rw [hnone] at ho
    cases ho

/-- There is no callback left. -/
theorem Ends.called_all (h : Ends s) {rest : List Item} (hagenda : s.agenda = .callbacks :: rest)
    (hcallbacks : s.world.callbacks = []) (hinv : Inv ⟨s.world, rest⟩) : Ends ⟨s.world, rest⟩ := by
  obtain ⟨hending, hnone⟩ := h.front hagenda rfl
  have hmem : ∀ i ∈ s.agenda, i ≠ .callbacks → i ∈ rest := by
    intro i hi hne
    rw [hagenda] at hi
    exact (List.mem_cons.mp hi).resolve_left hne
  have hbegun : State.Ending ⟨s.world, rest⟩ := by
    obtain ⟨exc, hexc⟩ | hsome := hending
    · exact .inl ⟨exc, hmem _ hexc nofun⟩
    · exact absurd hnone hsome
  refine ⟨hinv, fun i hi => ?_, fun hclean e he => ?_, fun hclean n hn => ?_, fun _ => ?_,
    fun _ c fd hfd => hmem _ (h.mounts hending c fd hfd) nofun, fun _ hne => absurd hcallbacks hne,
    h.registered, fun hend => absurd hbegun hend, fun hsome => absurd hnone hsome, fun exc hexc => ?_,
    h.outcome⟩
  · exact (h.inv.rest i (by rw [hagenda]; exact List.mem_of_mem_head? hi)).knows
  · have hat := h.owned hclean e he
    rw [hagenda] at hat
    exact hat.settled fun _ _ _ heq => by cases heq
  · obtain hdone | hcb | ⟨s', hstop⟩ | ⟨c, d, hd, hn, hreach⟩ := h.stopped hclean n hn
    · exact .inl hdone
    · rw [hcallbacks] at hcb
      cases hcb
    · exact .inr (.inr (.inl ⟨s', hmem _ hstop nofun⟩))
    · refine .inr (.inr (.inr ⟨c, d, hd, hn, fun _ => ?_⟩))
      obtain ⟨i, hi, hic⟩ := hreach hending
      refine ⟨i, hmem i hi ?_, hic⟩
      rintro rfl
      cases hic
  · obtain hkill | hall := h.namespaces hending
    · exact .inl (hmem _ hkill nofun)
    · exact .inr fun pid fd hpid => kills_mono hmem (hall pid fd hpid)
  · refine h.last exc ?_
    rw [hagenda]
    cases rest with
    | nil => cases hexc
    | cons i rest => exact List.mem_cons_of_mem _ hexc

/-- **The end of the exit.** -/
theorem Ends.finish (h : Ends s) {rest : List Item} {exc : Bool}
    (hagenda : s.agenda = .finish exc :: rest)
    (hinv : Inv ⟨{ s.world with outcome := some (s.world.exits exc) }, rest⟩) :
    Ends ⟨{ s.world with outcome := some (s.world.exits exc) }, rest⟩ := by
  obtain ⟨hending, hnone⟩ := h.front hagenda rfl
  have hnil : rest = [] := by
    cases rest with
    | nil => rfl
    | cons i rest =>
      refine absurd ?_ (h.last exc)
      rw [hagenda]
      exact List.mem_cons_self
  subst hnil
  have hmem : ∀ i ∈ s.agenda, i = .finish exc := by
    intro i hi
    rw [hagenda] at hi
    exact List.mem_singleton.mp hi
  refine ⟨hinv, nofun, fun hclean e he => ?_, fun hclean n hn => ?_, fun _ => ?_,
    fun _ c fd hfd => absurd (hmem _ (h.mounts hending c fd hfd)) nofun,
    fun _ hne => absurd (hmem _ (h.callbacks hending hne)) nofun, h.registered,
    fun hend => absurd (.inr nofun) hend, fun _ => rfl, fun _ => List.not_mem_nil, fun o ho => ?_⟩
  · have hat := h.owned hclean e he
    rw [hagenda] at hat
    exact (hat.settled fun _ _ _ heq => by cases heq).later
      (.of_eq rfl rfl rfl (List.Subset.refl _) rfl) rfl rfl
  · obtain hdone | hcb | ⟨s', hstop⟩ | ⟨c, d, hd, hn, hreach⟩ := h.stopped hclean n hn
    · exact .inl hdone
    · exact .inr (.inl hcb)
    · cases hmem _ hstop
    · obtain ⟨i, hi, hic⟩ := hreach hending
      rw [hmem i hi] at hic
      cases hic
  · refine .inr fun pid fd hpid => ?_
    obtain hkill | hall := h.namespaces hending
    · cases hmem _ hkill
    · obtain ⟨i, hi, hik⟩ := List.mem_filterMap.mp (hall pid fd hpid)
      rw [hmem i hi] at hik
      cases hik
  · obtain rfl := Option.some.inj ho
    rw [World.exits]
    split_ifs with hexc hclean
    · exact .inl rfl
    · exact .inr (.inl ⟨rfl, hclean⟩)
    · exact .inr (.inr ⟨rfl, hclean⟩)

/-- Only processes change. -/
theorem Ends.outside (h : Ends s) (hinv : Inv { s with world := w' }) (hlater : Later s.world w')
    (hfds : w'.os.fds = s.world.os.fds) (hnamespaces : w'.namespaces = s.world.namespaces)
    (hpopens : w'.popens = s.world.popens) (hcontrollers : w'.controllers = s.world.controllers)
    (hcallbacks : w'.callbacks = s.world.callbacks) (hcalled : w'.called = s.world.called)
    (hregistered : w'.registered = s.world.registered) (houtcome : w'.outcome = s.world.outcome)
    (herrors : w'.cleanupErrors = s.world.cleanupErrors) (howned : w'.owned = s.world.owned) :
    Ends { s with world := w' } := by
  have hclean : w'.Clean → s.world.Clean := fun hc => herrors.symm.trans hc
  have hending : State.Ending { s with world := w' } ↔ s.Ending := by
    rw [State.Ending, State.Ending, houtcome]
  have hdone : ∀ n, w'.isDone n = s.world.isDone n := by
    intro n
    rw [World.isDone, World.isDone, hpopens]
  refine ⟨hinv, fun i hi => ?_, fun hc e he => ?_, fun hc n hn => ?_, fun hend => ?_,
    fun hend c fd hfd => ?_, fun hend hne => ?_, ?_, fun hend => ?_, fun hsome => ?_, h.last,
    fun o ho => ?_⟩
  · have hknows := h.knows i hi
    cases i with
    | opening pid previous =>
      cases previous with
      | none => exact trivial
      | some previous => exact fun id hid => (hknows id (hfds ▸ hid)).later hlater
    | store pid fd previous =>
      cases previous with
      | none => exact trivial
      | some previous => exact fun id hid => (hknows id (hfds ▸ hid)).later hlater
    | close pid fd error =>
      cases error with
      | none => exact fun id hid => (hknows id (hfds ▸ hid)).later hlater
      | some error => exact trivial
    | _ => exact trivial
  · exact (h.owned (hclean hc) e (howned ▸ he)).later hlater hfds hnamespaces
  · rw [hdone]
    obtain hd | hcb | hstop | ⟨c, d, hd, hmem, hreach⟩ := h.stopped (hclean hc) n (hpopens ▸ hn)
    · exact .inl hd
    · exact .inr (.inl (hcallbacks.symm ▸ hcb))
    · exact .inr (.inr (.inl hstop))
    · exact .inr (.inr (.inr ⟨c, d, by rw [hcontrollers]; exact hd, hmem,
        fun hend => hreach (hending.mp hend)⟩))
  · obtain hkill | hall := h.namespaces (hending.mp hend)
    · exact .inl hkill
    · exact .inr fun pid fd hpid => hall pid fd (hnamespaces ▸ hpid)
  · exact h.mounts (hending.mp hend) c fd (hcontrollers ▸ hfd)
  · exact h.callbacks (hending.mp hend) (hcallbacks ▸ hne)
  · rw [hregistered, hcalled, hcallbacks]
    exact h.registered
  · obtain ⟨hnil, hnot⟩ := h.called fun hend' => hend (hending.mpr hend')
    exact ⟨hcalled.trans hnil, hnot⟩
  · exact h.finished (houtcome ▸ hsome)
  · have hfailure : w'.failure = s.world.failure := failure_congr herrors
    have hiff : w'.Clean ↔ s.world.Clean := by rw [World.Clean, World.Clean, herrors]
    dsimp only
    rw [hfailure, hiff]
    exact h.outcome o (houtcome ▸ ho)

/-! ### Between two calls -/

/-- Nothing is going on, and the exit has not been called. -/
structure Rests (w : World) : Prop where
  ready : Ready w none
  outcome : w.outcome = none
  owned : w.Clean → ∀ e ∈ w.owned, Accounted w none e
  stopped : w.Clean → ∀ n < w.popens.length, w.isDone n = true ∨ .stopProcess n ∈ w.callbacks ∨
    ∃ (c : ℕ) (d : Controller), w.controllers[c]? = some d ∧ n ∈ d.lazyPageDaemons
  registered : w.registered.reverse = w.callbacks
  called : w.called = []

theorem Ends.rests (h : Ends s) (hidle : s.idle = true) : Rests s.world := by
  have hnil := State.idle_eq hidle
  have hnone : s.world.outcome = none := by
    rw [State.idle, Bool.and_eq_true] at hidle
    exact Option.isNone_iff_eq_none.mp hidle.2
  have hnot : ¬s.Ending := by
    rintro (⟨exc, hexc⟩ | hsome)
    · rw [hnil] at hexc
      cases hexc
    · exact hsome hnone
  have hcalled := (h.called hnot).1
  have hready := h.inv.ready
  rw [hnil] at hready
  refine ⟨hready, hnone, fun hclean e he => ?_, fun hclean n hn => ?_, ?_, hcalled⟩
  · have hat := h.owned hclean e he
    rw [hnil] at hat
    exact hat
  · obtain hdone | hcb | ⟨s', hstop⟩ | ⟨c, d, hd, hmem, -⟩ := h.stopped hclean n hn
    · exact .inl hdone
    · exact .inr (.inl hcb)
    · rw [hnil] at hstop
      cases hstop
    · exact .inr (.inr ⟨c, d, hd, hmem⟩)
  · have hreg := h.registered
    rw [hcalled] at hreg
    exact hreg

/-- What is called then may put items into the agenda. -/
theorem Rests.ends (h : Rests w) (hinv : Inv ⟨w, items⟩) (hknows : ∀ i ∈ items.head?, i.Knows w)
    (hcallbacks : .callbacks ∉ items) (hfinish : ∀ exc, .finish exc ∉ items) : Ends ⟨w, items⟩ := by
  have hnot : ¬State.Ending ⟨w, items⟩ := by
    rintro (⟨exc, hexc⟩ | hsome)
    · exact hfinish exc hexc
    · exact hsome h.outcome
  refine ⟨hinv, hknows, fun hclean e he => ?_, fun hclean n hn => ?_, fun hend => absurd hend hnot,
    fun hend => absurd hend hnot, fun hend => absurd hend hnot, ?_, fun _ => ⟨h.called, hcallbacks⟩,
    fun hsome => absurd h.outcome hsome,
    fun exc hexc => hfinish exc (List.dropLast_subset _ hexc), fun o ho => ?_⟩
  · obtain hover | ⟨fd, hfd, hname | ⟨previous, heq⟩⟩ := h.owned hclean e he
    · exact .inl hover
    · exact .inr ⟨fd, hfd, .inl hname⟩
    · cases heq
  · obtain hdone | hcb | ⟨c, d, hd, hmem⟩ := h.stopped hclean n hn
    · exact .inl hdone
    · exact .inr (.inl hcb)
    · exact .inr (.inr (.inr ⟨c, d, hd, hmem, fun hend => absurd hend hnot⟩))
  · rw [h.called, h.registered]
    rfl
  · rw [h.outcome] at ho
    cases ho

theorem Rests.ends_nil (h : Rests w) : Ends ⟨w, []⟩ :=
  h.ends (.of_idle h.ready) nofun List.not_mem_nil fun _ => List.not_mem_nil

/-- The exit is called. -/
theorem Rests.exit (h : Rests w) {exc : Bool} (hinv : Inv ⟨w, exitItems w.controllers.length exc⟩) :
    Ends ⟨w, exitItems w.controllers.length exc⟩ := by
  have hclosing : ∀ {c : ℕ} {d : Controller}, w.controllers[c]? = some d →
      ∀ i ∈ closeController c, i ∈ exitItems w.controllers.length exc := by
    intro c d hd i hi
    refine List.mem_append_left _ (List.mem_cons_of_mem _ (List.mem_flatMap.mpr ⟨c, ?_, hi⟩))
    exact List.mem_range.mpr (List.getElem?_eq_some_iff.mp hd).1
  have hlast : exitItems w.controllers.length exc =
      (.killNamespaces :: (List.range w.controllers.length).flatMap closeController) ++
        [.callbacks, .finish exc] := rfl
  have hcallbacks : .callbacks ∈ exitItems w.controllers.length exc := by
    rw [hlast]
    exact List.mem_append_right _ List.mem_cons_self
  have hending : State.Ending ⟨w, exitItems w.controllers.length exc⟩ := by
    refine .inl ⟨exc, ?_⟩
    dsimp only
    rw [hlast]
    exact List.mem_append_right _ (List.mem_cons_of_mem _ List.mem_cons_self)
  refine ⟨hinv, fun i hi => ?_, fun hclean e he => ?_, fun hclean n hn => ?_,
    fun _ => .inl List.mem_cons_self, fun _ c fd hfd => ?_, fun _ _ => hcallbacks, ?_,
    fun hend => absurd hending hend, fun hsome => absurd h.outcome hsome, fun exc' hexc => ?_,
    fun o ho => ?_⟩
  · obtain rfl := Option.some.inj hi
    exact trivial
  · obtain hover | ⟨fd, hfd, hname | ⟨previous, heq⟩⟩ := h.owned hclean e he
    · exact .inl hover
    · exact .inr ⟨fd, hfd, .inl hname⟩
    · cases heq
  · obtain hdone | hcb | ⟨c, d, hd, hmem⟩ := h.stopped hclean n hn
    · exact .inl hdone
    · exact .inr (.inl hcb)
    · refine .inr (.inr (.inr ⟨c, d, hd, hmem, fun _ => ⟨.restamp c, ?_, rfl⟩⟩))
      exact hclosing hd _ (List.mem_cons_of_mem _ List.mem_cons_self)
  · obtain ⟨d, hd, -⟩ := Option.bind_eq_some_iff.mp hfd
    refine hclosing hd _ ?_
    simp [closeController]
  · rw [h.called, h.registered]
    rfl
  · have hdrop : Item.finish exc' ∈ (exitItems w.controllers.length exc).dropLast := hexc
    rw [hlast, List.dropLast_append_cons] at hdrop
    have hwaits := waits_exitItems (w := w) w.controllers.length exc
    obtain hmem | hmem := List.mem_append.mp hdrop
    · obtain heq | hmem := List.mem_cons.mp hmem
      · cases heq
      · obtain ⟨c, -, hc⟩ := List.mem_flatMap.mp hmem
        simp [closeController] at hc
    · simp at hmem
  · rw [h.outcome] at ho
    cases ho

/-- The world changes, but nothing of what there is to do gets lost. -/
theorem Rests.quiet (h : Rests w) (hready : Ready w' none) (hquiet : Quiet w w') (hlater : Later w w')
    (howned : w'.owned = w.owned) (hnamespaces : w'.namespaces = w.namespaces)
    (hfds : ∀ fd id, w.os.fds.find? fd = some id → w'.os.fds.find? fd = some id) : Rests w' where
  ready := hready
  outcome := hquiet.outcome.trans h.outcome
  owned hclean e he := by
    obtain hover | ⟨fd, hfd, hname | ⟨previous, heq⟩⟩ := h.owned (hquiet.clean hclean) e (howned ▸ he)
    · exact .inl (hover.later hlater)
    · exact .inr ⟨fd, hfds fd e.2 hfd, .inl (by rw [hnamespaces, hname])⟩
    · cases heq
  stopped hclean n hn := by
    obtain hdone | hcb | ⟨c, d, hd, hmem⟩ := h.stopped (hquiet.clean hclean) n (hquiet.length ▸ hn)
    · exact .inl (hquiet.done n hdone)
    · exact .inr (.inl (hquiet.callbacks.symm ▸ hcb))
    · have heq := hquiet.daemons c
      rw [hd] at heq
      obtain ⟨d', hd', hdaemons⟩ := Option.map_eq_some_iff.mp heq
      exact .inr (.inr ⟨c, d', hd', hdaemons.symm ▸ hmem⟩)
  registered := by
    rw [hquiet.registered, hquiet.callbacks]
    exact h.registered
  called := hquiet.called.trans h.called

/-- Daemons are not taken from a controller. -/
theorem daemons_modify {f : Controller → Controller} {l : List Controller} {c i : ℕ} {d : Controller}
    (hf : ∀ d, d.lazyPageDaemons ⊆ (f d).lazyPageDaemons) (hd : l[i]? = some d)
    (hn : n ∈ d.lazyPageDaemons) :
    ∃ (j : ℕ) (e : Controller), (l.modify c f)[j]? = some e ∧ n ∈ e.lazyPageDaemons := by
  refine ⟨i, if c = i then f d else d, ?_, ?_⟩
  · rw [List.getElem?_modify, hd]
    split_ifs <;> rfl
  · split_ifs
    · exact hf d hn
    · exact hn

/-- A process is started, and has an owner. -/
theorem Rests.popen {ticks : ℕ} (h : Rests w) (hfree : w.os.byPid pid = none) {starter : Starter}
    (args : String) (howner : ∀ c, starter = .daemon c → c < w.controllers.length) :
    Rests (w.popen starter pid ticks args) := by
  have hlater : Later w (w.spawn pid ticks args) := World.later_spawn
  have hmono : Later w (w.popen starter pid ticks args) := by
    cases starter with
    | popen => exact hlater.trans (.of_eq rfl rfl rfl (List.Subset.refl _) rfl)
    | popenNamespace => exact hlater.trans (.of_eq rfl rfl rfl (List.Subset.refl _) rfl)
    | daemon c => exact hlater.trans (.of_eq rfl rfl rfl (List.Subset.refl _) rfl)
  have hpopens : (w.popen starter pid ticks args).popens = w.popens ++ [⟨w.os.next, pid, args, false⟩] := by
    cases starter <;> rfl
  have hclean : (w.popen starter pid ticks args).Clean → w.Clean := by
    cases starter <;> exact fun h => h
  have howned : (w.popen starter pid ticks args).owned = w.owned := by cases starter <;> rfl
  have hfds : (w.popen starter pid ticks args).os.fds = w.os.fds := by cases starter <;> rfl
  have hnamespaces : (w.popen starter pid ticks args).namespaces = w.namespaces := by
    cases starter <;> rfl
  refine ⟨h.ready.popen hfree starter args, ?_, fun hc e he => ?_, fun hc n hn => ?_, ?_, ?_⟩
  · cases starter <;> exact h.outcome
  · exact (h.owned (hclean hc) e (howned ▸ he)).later hmono hfds hnamespaces
  · rw [hpopens, List.length_append, List.length_singleton] at hn
    obtain hlt | rfl := Nat.lt_succ_iff_lt_or_eq.mp hn
    · -- it was there before
      have hold : (w.popen starter pid ticks args).isDone n = w.isDone n := by
        rw [World.isDone, World.isDone, hpopens, List.getElem?_append_left hlt]
      rw [hold]
      obtain hdone | hcb | ⟨c, d, hd, hmem⟩ := h.stopped (hclean hc) n hlt
      · exact .inl hdone
      · refine .inr (.inl ?_)
        cases starter with
        | popen => exact List.mem_cons_of_mem _ hcb
        | popenNamespace => exact List.mem_cons_of_mem _ (List.mem_cons_of_mem _ hcb)
        | daemon c => exact hcb
      · refine .inr (.inr ?_)
        cases starter with
        | popen => exact ⟨c, d, hd, hmem⟩
        | popenNamespace => exact ⟨c, d, hd, hmem⟩
        | daemon c' => exact daemons_modify (fun _ => List.subset_append_left _ _) hd hmem
    · cases starter with
      | popen => exact .inr (.inl List.mem_cons_self)
      | popenNamespace => exact .inr (.inl (List.mem_cons_of_mem _ List.mem_cons_self))
      | daemon c =>
        obtain ⟨d, hd⟩ : ∃ d, w.controllers[c]? = some d := ⟨_, List.getElem?_eq_getElem (howner c rfl)⟩
        let e : Controller := { d with lazyPageDaemons := d.lazyPageDaemons ++ [w.popens.length] }
        have he : (w.popen (.daemon c) pid ticks args).controllers[c]? = some e := by
          rw [World.popen, List.getElem?_modify, World.spawn, World.fork, hd]
          simp [e]
        exact .inr (.inr ⟨c, e, he, List.mem_append_right _ List.mem_cons_self⟩)
  · have hreg := h.registered
    cases starter with
    | popen =>
      show (w.registered ++ [_]).reverse = _ :: w.callbacks
      rw [List.reverse_append, hreg]
      rfl
    | popenNamespace =>
      show ((w.registered ++ [_]) ++ [_]).reverse = _ :: _ :: w.callbacks
      rw [List.reverse_append, List.reverse_append, hreg]
      rfl
    | daemon c => exact hreg
  · cases starter <;> exact h.called

theorem Rests.callback {name : String} (h : Rests w) : Rests (w.register (.other name)) where
  ready := h.ready.of_eq rfl rfl rfl rfl rfl rfl fun _ => rfl
  outcome := h.outcome
  owned hclean e he := (h.owned hclean e he).later (.of_eq rfl rfl rfl (List.Subset.refl _) rfl) rfl rfl
  stopped hclean n hn := by
    obtain hdone | hcb | hmem := h.stopped hclean n hn
    · exact .inl hdone
    · exact .inr (.inl (List.mem_cons_of_mem _ hcb))
    · exact .inr (.inr hmem)
  registered := by
    rw [World.register, List.reverse_append, h.registered]
    rfl
  called := h.called

/-- The controllers change, but not their daemons. -/
theorem Rests.controllers {cs : List Controller} {os : Kernel} (h : Rests w)
    (hready : Ready { w with os, controllers := cs } none) (hprocs : os.procs = w.os.procs)
    (hnext : os.next = w.os.next)
    (hfds : ∀ fd id, w.os.fds.find? fd = some id → os.fds.find? fd = some id)
    (hdaemons : ∀ n (c : ℕ) (d : Controller), w.controllers[c]? = some d → n ∈ d.lazyPageDaemons →
      ∃ (j : ℕ) (e : Controller), cs[j]? = some e ∧ n ∈ e.lazyPageDaemons) :
    Rests { w with os, controllers := cs } where
  ready := hready
  outcome := h.outcome
  owned hclean e he := by
    obtain hover | ⟨fd, hfd, hrest⟩ := h.owned hclean e he
    · exact .inl (hover.later (.of_eq hprocs hnext rfl (List.Subset.refl _) rfl))
    · exact .inr ⟨fd, hfds fd e.2 hfd, hrest⟩
  stopped hclean n hn := by
    obtain hdone | hcb | ⟨c, d, hd, hmem⟩ := h.stopped hclean n hn
    · exact .inl hdone
    · exact .inr (.inl hcb)
    · exact .inr (.inr (hdaemons n c d hd hmem))
  registered := h.registered
  called := h.called

/-- **A step.** -/
theorem ends_step {act : Act} (h : Ends s) (hstep : step self s act = some t) : Ends t := by
  have hinv := inv_step h.inv hstep
  cases act with
  | fork pid ticks parent =>
    rw [step] at hstep
    split_ifs at hstep
    obtain rfl := Option.some.inj hstep
    exact h.outside hinv World.later_fork rfl rfl rfl rfl rfl rfl rfl rfl rfl rfl
  | exits id reaper =>
    rw [step] at hstep
    split_ifs at hstep
    obtain rfl := Option.some.inj hstep
    exact h.outside hinv World.later_terminate rfl rfl rfl rfl rfl rfl rfl rfl rfl rfl
  | reap id =>
    rw [step] at hstep
    split_ifs at hstep
    obtain rfl := Option.some.inj hstep
    exact h.outside hinv World.later_reap rfl rfl rfl rfl rfl rfl rfl rfl rfl rfl
  | popen starter pid ticks args =>
    simp only [step] at hstep
    split_ifs at hstep with hcond
    obtain rfl := Option.some.inj hstep
    simp only [Bool.and_eq_true] at hcond
    obtain ⟨⟨hi, hfree⟩, howner⟩ := hcond
    have hnone : s.world.os.byPid pid = none := by
      rw [World.free, Bool.and_assoc, Bool.and_eq_true, Option.isNone_iff_eq_none] at hfree
      exact hfree.1
    rw [State.idle_eq hi]
    refine ((h.rests hi).popen hnone args fun c hc => ?_).ends_nil
    subst hc
    exact of_decide_eq_true howner
  | poll n =>
    rw [step] at hstep
    split_ifs at hstep with hi
    obtain rfl := Option.some.inj hstep
    rw [State.idle_eq hi]
    have hrests := h.rests hi
    obtain ⟨hfds, -, hnamespaces, -⟩ := s.world.poll_same n
    exact (hrests.quiet (hrests.ready.poll n) (quiet_poll _ _) World.later_poll (poll_owned _ _)
      hnamespaces fun fd id hfd => by rw [hfds, hfd]).ends_nil
  | own pid =>
    rw [step] at hstep
    split_ifs at hstep with hi
    obtain rfl := Option.some.inj hstep
    refine (h.rests hi).ends hinv (fun i hi => ?_) ?_ fun exc => ?_
    · cases pid with
      | none => cases hi
      | some pid =>
        obtain rfl := Option.some.inj hi
        exact trivial
    · cases pid <;> simp
    · cases pid <;> simp
  | callback name =>
    rw [step] at hstep
    split_ifs at hstep with hi
    obtain rfl := Option.some.inj hstep
    rw [State.idle_eq hi]
    exact (h.rests hi).callback.ends_nil
  | create =>
    rw [step] at hstep
    split_ifs at hstep with hi
    obtain rfl := Option.some.inj hstep
    rw [State.idle_eq hi] at hinv ⊢
    refine ((h.rests hi).controllers hinv.ready rfl rfl (fun _ _ hfd => hfd)
      fun n c d hd hn => ⟨c, d, ?_, hn⟩).ends_nil
    rw [List.getElem?_append_left (List.getElem?_eq_some_iff.mp hd).1, hd]
  | attributes c dumpPool restampPool restampCacheRoot rootOverlays =>
    rw [step] at hstep
    split_ifs at hstep with hi
    obtain rfl := Option.some.inj hstep
    rw [State.idle_eq hi] at hinv ⊢
    exact ((h.rests hi).controllers hinv.ready rfl rfl (fun _ _ hfd => hfd)
      fun n c d hd hn => daemons_modify (fun _ => List.Subset.refl _) hd hn).ends_nil
  | openMount c fd =>
    rw [step] at hstep
    split_ifs at hstep with hcond
    obtain rfl := Option.some.inj hstep
    simp only [Bool.and_eq_true, Option.isNone_iff_eq_none] at hcond
    obtain ⟨⟨hi, -⟩, hfree⟩ := hcond
    rw [State.idle_eq hi] at hinv ⊢
    refine ((h.rests hi).controllers hinv.ready rfl rfl (fun fd' id hfd => ?_)
      fun n c d hd hn => daemons_modify (fun _ => List.Subset.refl _) hd hn).ends_nil
    rw [Kernel.pin, Dict.find?_set_of_ne, hfd]
    rintro rfl
    rw [hfree] at hfd
    cases hfd
  | abortDumps c =>
    rw [step] at hstep
    split_ifs at hstep with hi
    obtain rfl := Option.some.inj hstep
    refine (h.rests hi).ends hinv (fun i hi => ?_) (by simp) fun exc => by simp
    obtain rfl := Option.some.inj hi
    exact trivial
  | exit exc =>
    rw [step] at hstep
    split_ifs at hstep with hi
    obtain rfl := Option.some.inj hstep
    exact (h.rests hi).exit hinv
  | go a =>
    rw [step] at hstep
    split at hstep
    · rename_i item rest hagenda
      obtain ⟨⟨w', items⟩, hnext, heq⟩ := Option.map_eq_some_iff.mp hstep
      obtain rfl := heq
      by_cases hplain : item.isPlain = true
      · exact h.plain hagenda hplain hnext
      · cases item with
        | callbacks =>
          unfold World.next at hnext
          dsimp only at hnext
          split at hnext
          · rename_i cb cbs hcallbacks
            obtain ⟨rfl, rfl⟩ := Prod.mk.inj (Option.some.inj hnext)
            exact h.call hagenda hcallbacks hinv
          · rename_i hcallbacks
            obtain ⟨rfl, rfl⟩ := Prod.mk.inj (Option.some.inj hnext)
            exact h.called_all hagenda hcallbacks hinv
          · cases hnext
        | finish exc =>
          unfold World.next at hnext
          dsimp only at hnext
          split at hnext
          · obtain ⟨rfl, rfl⟩ := Prod.mk.inj (Option.some.inj hnext)
            exact h.finish hagenda hinv
          · cases hnext
        | _ => exact absurd rfl hplain
    · cases hstep

theorem ends_of_exec {acts : List Act} (hrun : Machine.exec (step self) State.init acts = some s) :
    Ends s :=
  Machine.invariant ends_step ends_init hrun

/-- A namespace ends, and its pid is owned again; a mount is open, and a lazy-pages daemon is there. The
second namespace is killed, the daemon is stopped, and a callback fails. -/
def reused : List Act :=
  [.fork 30 1 0, .own (some 30), .go .ok, .go (.fd 5), .go .ok, .exits 1 0, .reap 1, .fork 30 2 0,
    .own (some 30), .go .ok, .go (.fd 6), .go .ok, .create, .openMount 0 5,
    .attributes 0 true false false false, .popen (.daemon 0) 40 0 "criu", .callback "reset",
    .exit false, .go .ok, .go .ok, .exits 2 0, .go .ok, .go .ok, .go .ok, .go .ok, .go .ok, .go .ok,
    .go .ok, .exits 3 0, .go .ok, .go .ok, .go .ok, .go .ok, .go .ok, .go .ok,
    .go (.fails "OSError: no channel"), .go .ok, .go .ok]

end Resources

end DeltaBox
