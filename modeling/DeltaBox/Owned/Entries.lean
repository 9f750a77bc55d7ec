import DeltaBox.Owned.Children

/-!
# The entries and their descriptors

What is known of a pid may be out of date at any statement: the child may have been reaped by
another call of the handler, and its pid given to another child. The descriptor of an entry still
refers to the child that was registered, so what is waited for or signalled through it is that child.

Besides the descriptors of the entries there is at most one that is open, that of the registration in
progress.

## Main definitions

* `Safe` — the children, the entries, and what has happened
* `Work`, `World.Does` — what the code that is at work relies on

## Main results

* `reg_spec`, `waitid_spec`, `signal_spec`, `pop_spec`, `mark_spec`, `closeAll_spec` — the operations
-/

namespace DeltaBox

namespace Owned

open Pidfd (Proc Kernel Ledger)

/-- The descriptor of an entry. -/
def World.own (w : World) (pid : ℕ) : Option ℕ := (w.entries.find? pid).map Record.fd

/-- An entry's descriptor is that of the child with its pid and start, and every signal went to such
a child. -/
structure Safe (w : World) : Prop where
  os : w.os.Ok
  names : ∀ pid r id, w.entries.find? pid = some r → w.os.fds.find? r.fd = some id →
    w.os.Names id pid r.ticks
  right : w.os.wrong = false
  sent : ∀ g ∈ w.signals, g.child.pid = g.pid ∧ g.child.ticks = g.ticks
  returned : ∀ l ∈ w.returned, l = []

/-- What the code at work is about: a registration, or the entry of a pid. -/
inductive Work where
  | idle
  | reg (r : Reg)
  | entry (pid : ℕ) (r : Record)

/-- What it relies on. -/
def World.Does (w : World) : Work → Prop
  | .idle => Ledger w.os w.own none
  | .entry pid r => w.entries.find? pid = some r ∧ Ledger w.os w.own none
  | .reg (.identify pid) | .reg (.opening pid _) =>
    w.entries.find? pid = none ∧ Ledger w.os w.own none
  | .reg (.recheck pid _ fd) => w.entries.find? pid = none ∧ Ledger w.os w.own (some fd) ∧
    ∀ id, w.os.fds.find? fd = some id → ∀ p ∈ w.os.procs, p.id = id → p.pid = pid
  | .reg (.store pid ticks fd) => w.entries.find? pid = none ∧ Ledger w.os w.own (some fd) ∧
    ∀ id, w.os.fds.find? fd = some id → w.os.Names id pid ticks

def RegOut.work : RegOut → Work
  | .next r => .reg r
  | .done pid r => .entry pid r
  | .raised _ => .idle

def Reg.pid : Reg → ℕ
  | .identify pid | .opening pid _ | .recheck pid _ _ | .store pid _ _ => pid

/-- A registration stays with its pid. It is given up without an error only if there is no child. -/
def RegOut.About (k : Kernel) (pid : ℕ) : RegOut → Prop
  | .next r => r.pid = pid
  | .done pid' _ => pid' = pid
  | .raised .vanished => k.byPid pid = none
  | .raised .other => True

variable {w w' : World} {a : Answer}

/-- The attributes are as before, and no process is new. -/
structure Keeps (w w' : World) : Prop where
  flags : w'.flags = w.flags
  procs : ∀ p ∈ w'.os.procs, p ∈ w.os.procs
  next : w'.os.next = w.os.next

theorem Keeps.refl (w : World) : Keeps w w := ⟨rfl, fun _ hp => hp, rfl⟩

theorem Keeps.trans {w'' : World} (h : Keeps w w') (h' : Keeps w' w'') : Keeps w w'' :=
  ⟨h'.flags.trans h.flags, fun p hp => h.procs p (h'.procs p hp), h'.next.trans h.next⟩

/-! ### The operations -/

/-- Attributes that the entries have nothing to do with. -/
theorem Safe.flags (hs : Safe w) (flags : Flags) : Safe { w with flags } :=
  ⟨hs.os, hs.names, hs.right, hs.sent, hs.returned⟩

theorem does_flags {work : Work} (hd : w.Does work) (flags : Flags) :
    World.Does { w with flags } work := by
  cases work with
  | reg r => cases r <;> exact hd
  | _ => exact hd

theorem World.Does.of_entry {pid : ℕ} {r : Record} (hd : w.Does (.entry pid r)) : w.Does .idle := hd.2

theorem about_raised {r : Reg} {e : Exn} (h : w.raises r.pid e = true) :
    (RegOut.raised e).About w.os r.pid := by
  cases e with
  | vanished => simpa [World.raises, RegOut.About] using h
  | other => trivial

/-- What is held is closed when `register` raises. -/
theorem close_spec {fd : ℕ} (hs : Safe w) (hl : Ledger w.os w.own (some fd)) :
    Safe { w with os := w.os.close fd } ∧ World.Does { w with os := w.os.close fd } .idle := by
  refine ⟨⟨hs.os.close, fun pid r id hr hfd => ?_, hl.wrong_drop.trans hs.right, hs.sent, hs.returned⟩,
    hl.drop⟩
  rw [Kernel.close, Dict.find?_erase] at hfd
  split_ifs at hfd
  exact hs.names pid r id hr hfd

/-- A new entry. -/
theorem store_spec {pid ticks fd : ℕ} (hs : Safe w) (hd : w.Does (.reg (.store pid ticks fd))) :
    let r : Record := ⟨ticks, fd, false, false⟩
    Safe { w with entries := w.entries.set pid r } ∧
      World.Does { w with entries := w.entries.set pid r } (.entry pid r) := by
  obtain ⟨hnone, hl, hnames⟩ := hd
  refine ⟨⟨hs.os, fun pid' r id hr hfd => ?_, hs.right, hs.sent, hs.returned⟩, ?_, ?_⟩
  · rw [Dict.find?_set] at hr
    split_ifs at hr with heq
    · obtain rfl := Option.some.inj hr
      exact heq ▸ hnames id hfd
    · exact hs.names pid' r id hr hfd
  · exact Dict.find?_set_self _ _ _
  · have hown : World.own { w with entries := w.entries.set pid ⟨ticks, fd, false, false⟩ } =
        Function.update w.own pid (some fd) := by
      funext pid'
      rw [World.own, Dict.find?_set, Function.update_apply]
      split_ifs <;> rfl
    rw [hown]
    exact hl.store (by rw [World.own, hnone]; rfl)

/-- **One statement of `register`.** -/
theorem reg_spec {r : Reg} {out : RegOut} (hs : Safe w) (hd : w.Does (.reg r))
    (h : w.reg r a = some (w', out)) :
    Safe w' ∧ w'.Does out.work ∧ out.About w.os r.pid ∧ Keeps w w' := by
  cases r with
  | identify pid =>
    cases a with
    | ok =>
      obtain ⟨p, -, heq⟩ := Option.map_eq_some_iff.mp h
      cases heq
      exact ⟨hs, hd, rfl, .refl w⟩
    | fails e =>
      obtain ⟨hraises, heq⟩ := Option.ite_none_right_eq_some.mp h
      cases heq
      exact ⟨hs, hd.2, about_raised (r := .identify pid) hraises, .refl w⟩
    | _ => cases h
  | opening pid ticks =>
    cases a with
    | fd fd =>
      obtain ⟨hfree, heq⟩ := Option.ite_none_right_eq_some.mp h
      obtain ⟨p, hp, heq⟩ := Option.map_eq_some_iff.mp heq
      cases heq
      obtain ⟨hmem, hpid⟩ := Kernel.byPid_eq_some hp
      refine ⟨⟨hs.os.pin hmem, fun pid' r id hr hfd => ?_, hs.right, hs.sent, hs.returned⟩,
        ⟨hd.1, hd.2.pin hfree, fun id hfd q hq hid => ?_⟩, rfl, rfl, fun _ hp => hp, rfl⟩
      · have hne : r.fd ≠ fd := by
          rintro rfl
          have hopen := hd.2.isOpen pid' r.fd (by rw [World.own, hr]; rfl)
          rw [hfree] at hopen
          cases hopen
        rw [Kernel.pin, Dict.find?_set_of_ne _ _ hne] at hfd
        exact hs.names pid' r id hr hfd
      · rw [Kernel.pin, Dict.find?_set_self] at hfd
        rw [hs.os.ids q hq p hmem (hid.trans (Option.some.inj hfd).symm), hpid]
    | fails e =>
      obtain ⟨hraises, heq⟩ := Option.ite_none_right_eq_some.mp h
      cases heq
      exact ⟨hs, hd.2, about_raised (r := .opening pid ticks) hraises, .refl w⟩
    | _ => cases h
  | recheck pid ticks fd =>
    obtain ⟨hnone, hl, hpids⟩ := hd
    cases a with
    | ok =>
      obtain ⟨p, hp, heq⟩ := Option.map_eq_some_iff.mp h
      split_ifs at heq with hticks
      · cases heq
        refine ⟨hs, ⟨hnone, hl, fun id hfd q hq hid => ?_⟩, rfl, .refl w⟩
        -- it is the child that has the pid now
        obtain ⟨hmem, hpid⟩ := Kernel.byPid_eq_some hp
        have hqpid := hpids id hfd q hq hid
        exact ⟨hqpid, hs.os.pids q hq p hmem (hqpid.trans hpid.symm) ▸ hticks⟩
      · cases heq
        exact ⟨(close_spec hs hl).1, (close_spec hs hl).2, trivial, rfl, fun _ hp => hp, rfl⟩
    | fails e =>
      obtain ⟨hraises, heq⟩ := Option.ite_none_right_eq_some.mp h
      cases heq
      exact ⟨(close_spec hs hl).1, (close_spec hs hl).2,
        about_raised (r := .recheck pid ticks fd) hraises, rfl, fun _ hp => hp, rfl⟩
    | _ => cases h
  | store pid ticks fd =>
    cases a with
    | ok =>
      cases h
      exact ⟨(store_spec hs hd).1, (store_spec hs hd).2, rfl, rfl, fun _ hp => hp, rfl⟩
    | _ => cases h

/-- A child that has been waited for leaves the descriptors as they are. -/
theorem reap_spec (id : ℕ) {work : Work} (hs : Safe w) (hd : w.Does work) :
    Safe { w with os := w.os.reap id } ∧ World.Does { w with os := w.os.reap id } work := by
  refine ⟨⟨hs.os.reap, fun pid r id hr hfd => (hs.names pid r id hr hfd).reap, hs.right, hs.sent,
    hs.returned⟩, ?_⟩
  cases work with
  | idle => exact hd.of_fds rfl
  | entry pid r => exact ⟨hd.1, hd.2.of_fds rfl⟩
  | reg r =>
    cases r with
    | identify pid => exact ⟨hd.1, hd.2.of_fds rfl⟩
    | opening pid ticks => exact ⟨hd.1, hd.2.of_fds rfl⟩
    | recheck pid ticks fd =>
      exact ⟨hd.1, hd.2.1.of_fds rfl, fun id hfd p hp => hd.2.2 id hfd p (Kernel.mem_reap.mp hp).1⟩
    | store pid ticks fd => exact ⟨hd.1, hd.2.1.of_fds rfl, fun id hfd => (hd.2.2 id hfd).reap⟩

theorem reap_keeps (w : World) (id : ℕ) : Keeps w { w with os := w.os.reap id } :=
  ⟨rfl, fun _ hp => (Kernel.mem_reap.mp hp).1, rfl⟩

/-- What has been waited for through an entry. -/
theorem Safe.of_pinned {pid : ℕ} {r : Record} {p : Proc} (hs : Safe w)
    (hr : w.entries.find? pid = some r) (hp : w.os.pinned r.fd = some p) :
    p ∈ w.os.procs ∧ p.pid = pid ∧ p.ticks = r.ticks := by
  obtain ⟨hfd, hmem⟩ := Kernel.pinned_eq_some hp
  exact ⟨hmem, hs.names pid r p.id hr hfd p hmem rfl⟩

/-- The child a wait has reaped, or has seen running. -/
def WaitOut.About (w w' : World) (pid : ℕ) : WaitOut → Prop
  | .reaped p => p ∈ w.os.procs ∧ p.pid = pid ∧ w'.os.procs = (w.os.reap p.id).procs
  | .running => w' = w ∧ ∃ p ∈ w.os.procs, p.pid = pid ∧ p.zombie = false
  | .raised => w' = w

/-- **`os.waitid` for an entry.** -/
theorem waitid_spec {pid : ℕ} {r : Record} {out : WaitOut} (hs : Safe w)
    (hd : w.Does (.entry pid r)) (h : w.waitid r.fd a = some (w', out)) :
    Safe w' ∧ w'.Does (.entry pid r) ∧ out.About w w' pid ∧ Keeps w w' := by
  cases a with
  | ok =>
    rw [World.waitid] at h
    cases hp : w.os.pinned r.fd with
    | none =>
      rw [hp] at h
      cases h
      exact ⟨hs, hd, rfl, .refl w⟩
    | some p =>
      rw [hp] at h
      obtain ⟨hmem, hpid, -⟩ := hs.of_pinned hd.1 hp
      simp only [Option.some.injEq] at h
      split_ifs at h with hz
      · cases h
        obtain ⟨hs', hd'⟩ := reap_spec p.id hs hd
        exact ⟨hs', hd', ⟨hmem, hpid, rfl⟩, rfl, fun q hq => (Kernel.mem_reap.mp hq).1, rfl⟩
      · cases h
        exact ⟨hs, hd, ⟨rfl, p, hmem, hpid, by simpa using hz⟩, .refl w⟩
  | fails e =>
    cases e with
    | vanished => cases h
    | other =>
      cases h
      exact ⟨hs, hd, rfl, .refl w⟩
  | _ => cases h

/-- **`pidfd_send_signal` for an entry.** -/
theorem signal_spec {pid : ℕ} {r : Record} {e : Option Exn} (hs : Safe w)
    (hd : w.Does (.entry pid r)) (h : w.signal pid r a = some (w', e)) :
    Safe w' ∧ w'.Does (.entry pid r) ∧ Keeps w w' := by
  cases a with
  | ok =>
    rw [World.signal] at h
    cases hp : w.os.pinned r.fd with
    | none =>
      rw [hp] at h
      cases h
      exact ⟨hs, hd, .refl w⟩
    | some p =>
      rw [hp] at h
      cases h
      refine ⟨⟨hs.os, hs.names, hs.right, fun g hg => ?_, hs.returned⟩, hd, rfl, fun _ hp => hp, rfl⟩
      rcases List.mem_append.mp hg with hg | hg
      · exact hs.sent g hg
      · rw [List.mem_singleton.mp hg]
        exact (hs.of_pinned hd.1 hp).2
  | fails e =>
    cases e with
    | vanished => cases h
    | other =>
      cases h
      exact ⟨hs, hd, .refl w⟩
  | _ => cases h

theorem pop_keeps (w : World) (pid : ℕ) : Keeps w (w.pop pid) := by
  unfold World.pop
  split
  · exact ⟨rfl, fun _ hp => hp, rfl⟩
  · exact .refl w

/-- **An entry goes, with its descriptor.** -/
theorem pop_spec (pid : ℕ) (hs : Safe w) (hd : w.Does .idle) :
    Safe (w.pop pid) ∧ (w.pop pid).Does .idle := by
  unfold World.pop
  split
  · rename_i r hr
    have hown : w.own pid = some r.fd := by rw [World.own, hr]; rfl
    have herase : ∀ os, World.own { w with os, entries := w.entries.erase pid } =
        Function.update w.own pid none := by
      intro os
      funext pid'
      rw [World.own, Dict.find?_erase, Function.update_apply]
      split_ifs <;> rfl
    refine ⟨⟨hs.os.close, fun pid' r' id hr' hfd => ?_, (hd.wrong_close hown).trans hs.right,
      hs.sent, hs.returned⟩, ?_⟩
    · rw [Dict.find?_erase] at hr'
      rw [Kernel.close, Dict.find?_erase] at hfd
      split_ifs at hr' hfd
      exact hs.names pid' r' id hr' hfd
    · change Ledger _ (World.own _) none
      rw [herase]
      exact hd.pop hown
  · exact ⟨hs, hd⟩

theorem mark_keeps (w : World) (pid : ℕ) (r : Record) : Keeps w (w.mark pid r) := by
  unfold World.mark
  split_ifs
  · exact ⟨rfl, fun _ hp => hp, rfl⟩
  · exact .refl w

/-- A record with another flag. -/
theorem mark_spec {pid : ℕ} {r : Record} (r' : Record) (hs : Safe w) (hd : w.Does (.entry pid r))
    (hticks : r'.ticks = r.ticks) (hfd : r'.fd = r.fd) :
    Safe (w.mark pid r') ∧ (w.mark pid r').Does (.entry pid r') := by
  obtain ⟨hr, hl⟩ := hd
  have hown : World.own { w with entries := w.entries.set pid r' } = w.own := by
    funext pid'
    rw [World.own, Dict.find?_set, World.own]
    split_ifs with heq
    · rw [heq, hr, Option.map_some, Option.map_some, hfd]
    · rfl
  rw [World.mark, hr, Option.isSome_some, if_pos rfl]
  refine ⟨⟨hs.os, fun pid' r'' id hr'' hopen => ?_, hs.right, hs.sent, hs.returned⟩,
    Dict.find?_set_self _ _ _, hown.symm ▸ hl⟩
  rw [Dict.find?_set] at hr''
  split_ifs at hr'' with heq
  · obtain rfl := Option.some.inj hr''
    rw [heq, hticks]
    exact hs.names pid r id hr (hfd ▸ hopen)
  · exact hs.names pid' r'' id hr'' hopen

/-- In the end nothing is open. -/
theorem closeAll_spec (hs : Safe w) (hd : w.Does .idle) :
    Safe w.closeAll ∧ w.closeAll.Does .idle ∧ (∀ fd, w.closeAll.os.fds.find? fd = none) ∧
      Keeps w w.closeAll := by
  have hkeys : ((w.entries.map Record.fd).entries.map Prod.fst).Nodup := (w.entries.map Record.fd).nodup
  have hvalues : (w.entries.map Record.fd).entries.map Prod.snd = w.entries.values.map Record.fd := by
    simp [Dict.map, Dict.values]
  obtain ⟨hl, hwrong⟩ := hd.closeAll hkeys fun pid fd => by
    rw [← Dict.find?_eq_some_iff, Dict.find?_map, World.own]
  rw [hvalues] at hl hwrong
  have hok : ∀ (l : List ℕ) (k : Kernel), k.Ok → (l.foldl Kernel.close k).Ok ∧
      (l.foldl Kernel.close k).procs = k.procs ∧ (l.foldl Kernel.close k).next = k.next := by
    intro l
    induction l with
    | nil => exact fun k hk => ⟨hk, rfl, rfl⟩
    | cons fd l ih => exact fun k hk => ih _ hk.close
  obtain ⟨hos, hprocs, hnext⟩ := hok (w.entries.values.map Record.fd) w.os hs.os
  refine ⟨⟨hos, fun pid r id hr => ?_, hwrong.trans hs.right, hs.sent, hs.returned⟩, hl,
    hl.fds_eq_none fun _ => rfl, rfl, fun p hp => hprocs ▸ hp, hnext⟩
  cases hr

end Owned

end DeltaBox
