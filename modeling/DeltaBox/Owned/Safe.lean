import DeltaBox.Owned.Entries

/-!
# Only children are signalled, and no descriptor is lost

Of the calls of the handler that are on the stack at most one is at work: those below it have not
begun or are through, and those above it find that it is busy. The job does not go on before all of
them have returned.

## Main definitions

* `Shape` — the stack of the calls
* `Phase` — what the job has done about live reaping
* `Inv` — the invariant

## Main results

* `atWork_spec`, `main_spec` — a statement of the handler, and of the job
* `inv_step`, `inv_of_exec` — a step, and a run
* `owned_safe` — signals, descriptors, and the producer
-/

namespace DeltaBox

namespace Owned

open Pidfd (Proc Kernel Ledger)

variable {w w' : World} {a : Answer}

/-! ### The stack -/

/-- It has not begun, or is through. -/
def Frame.Calm : Frame → Prop
  | .entry | .check | .enter | .again => True
  | _ => False

/-- It has set the flag, and has not put it back. -/
def Frame.AtWork : Frame → Prop
  | .clear | .list | .each _ | .register _ _ | .wait _ _ _ | .pop _ _ | .decide | .fail | .release => True
  | _ => False

/-- It will find that it is busy. -/
def Frame.Above : Frame → Prop
  | .entry | .check | .defer => True
  | _ => False

/-- The stack, with the flag. -/
inductive Shape : Bool → List Frame → Prop
  | nil : Shape false []
  | calm {f : Frame} {fs : List Frame} : f.Calm → Shape false fs → Shape false (f :: fs)
  | atWork {f : Frame} {fs : List Frame} : f.AtWork → Shape false fs → Shape true (f :: fs)
  | above {f : Frame} {fs : List Frame} : f.Above → Shape true fs → Shape true (f :: fs)

def Frame.work : Frame → Work
  | .register r _ => .reg r
  | .wait pid r _ => .entry pid r
  | _ => .idle

/-- The pids that are still to be looked at. -/
def Frame.pids : Frame → List ℕ
  | .each pids | .pop _ pids => pids
  | .register r pids => r.pid :: pids
  | .wait pid _ pids => pid :: pids
  | _ => []

/-- What the call at work is about. -/
def work : List Frame → Work
  | [] => .idle
  | f :: fs =>
    match f.work with
    | .idle => work fs
    | found => found

theorem work_of_idle {f : Frame} {fs : List Frame} (h : f.work = .idle) : work (f :: fs) = work fs := by
  rw [work, h]

theorem Frame.Calm.work {f : Frame} (h : f.Calm) : f.work = .idle := by
  cases f <;> first | rfl | cases h

theorem Frame.Above.work {f : Frame} (h : f.Above) : f.work = .idle := by
  cases f <;> first | rfl | cases h

theorem Shape.work_calm {fs : List Frame} (h : Shape false fs) : work fs = .idle := by
  induction fs with
  | nil => rfl
  | cons f fs ih =>
    cases h with
    | calm hf hfs => rw [work_of_idle hf.work, ih hfs]

theorem Shape.work_atWork {f : Frame} {fs : List Frame} (h : Shape false fs) :
    Owned.work (f :: fs) = f.work := by
  rw [Owned.work, h.work_calm]
  split
  · rename_i hidle
    exact hidle.symm
  · rfl

/-- A call may come up at any time. -/
theorem Shape.entry {busy : Bool} {fs : List Frame} (h : Shape busy fs) :
    Shape busy (.entry :: fs) := by
  cases busy with
  | false => exact .calm trivial h
  | true => exact .above trivial h

/-! ### A statement of the handler -/

/-- What the handler leaves alone. -/
def Flags.Alike (fl fl' : Flags) : Prop :=
  fl'.producerPid = fl.producerPid ∧ fl'.installed = fl.installed ∧ fl'.child = fl.child ∧
    fl'.due = fl.due

/-- A statement of a call at work leads to another one, or puts the flag back. -/
structure Turn (w w' : World) (f' : Frame) : Prop where
  safe : Safe w'
  does : w'.Does f'.work
  flags : w.flags.Alike w'.flags
  skips : ∀ pid ∈ f'.pids, some pid ≠ w.flags.producerPid
  reaped : ∀ p ∈ w'.flags.reaped, p ∈ w.flags.reaped ∨ some p.pid ≠ w.flags.producerPid
  procs : ∀ p ∈ w'.os.procs, p ∈ w.os.procs
  next : w'.os.next = w.os.next
  pending : f' = .list ∨ w'.flags.reapPending = w.flags.reapPending
  error : w.flags.liveReapError = true → w'.flags.liveReapError = true
  goes : f'.AtWork ∧ w'.flags.reapBusy = w.flags.reapBusy ∨ f' = .again ∧ w'.flags.reapBusy = false

/-- Nothing happens to the attributes. -/
theorem Turn.of_keeps {f' : Frame} (hs : Safe w') (hd : w'.Does f'.work) (hk : Keeps w w')
    (hskip : ∀ pid ∈ f'.pids, some pid ≠ w.flags.producerPid) (hat : f'.AtWork) : Turn w w' f' where
  safe := hs
  does := hd
  flags := hk.flags ▸ ⟨rfl, rfl, rfl, rfl⟩
  skips := hskip
  reaped _ hp := .inl (hk.flags ▸ hp)
  procs := hk.procs
  next := hk.next
  pending := .inr (hk.flags ▸ rfl)
  error herr := hk.flags ▸ herr
  goes := .inl ⟨hat, hk.flags ▸ rfl⟩

theorem atWork_register {r : Reg} {pids : List ℕ} {g : Option Frame} (hs : Safe w)
    (hd : w.Does (.reg r)) (hskip : ∀ pid ∈ r.pid :: pids, some pid ≠ w.flags.producerPid)
    (h : w.handle (.register r pids) a = some (w', g)) : ∃ f', g = some f' ∧ Turn w w' f' := by
  obtain ⟨⟨w₁, out⟩, hreg, heq⟩ := Option.map_eq_some_iff.mp h
  obtain ⟨hs', hd', habout, hkeeps⟩ := reg_spec hs hd hreg
  cases out with
  | next r' =>
    cases heq
    refine ⟨_, rfl, .of_keeps hs' hd' hkeeps ?_ trivial⟩
    have hpid : r'.pid = r.pid := habout
    exact fun pid hmem => hskip pid (hpid ▸ hmem)
  | done pid' r' =>
    cases heq
    refine ⟨_, rfl, .of_keeps hs' hd' hkeeps ?_ trivial⟩
    have hpid : pid' = r.pid := habout
    exact fun pid hmem => hskip pid (hpid ▸ hmem)
  | raised e =>
    cases e with
    | vanished =>
      cases heq
      exact ⟨_, rfl, .of_keeps hs' hd' hkeeps
        (fun pid hmem => hskip pid (List.mem_cons_of_mem _ hmem)) trivial⟩
    | other =>
      cases heq
      exact ⟨_, rfl, .of_keeps hs' hd' hkeeps nofun trivial⟩

theorem atWork_wait {pid : ℕ} {r : Record} {pids : List ℕ} {g : Option Frame} (hs : Safe w)
    (hd : w.Does (.entry pid r)) (hskip : ∀ p ∈ pid :: pids, some p ≠ w.flags.producerPid)
    (h : w.handle (.wait pid r pids) a = some (w', g)) : ∃ f', g = some f' ∧ Turn w w' f' := by
  obtain ⟨⟨w₁, out⟩, hwait, heq⟩ := Option.map_eq_some_iff.mp h
  obtain ⟨hs', hd', habout, hkeeps⟩ := waitid_spec hs hd hwait
  have hflags := hkeeps.flags
  have hrest : ∀ p ∈ pids, some p ≠ w.flags.producerPid :=
    fun p hmem => hskip p (List.mem_cons_of_mem _ hmem)
  cases out with
  | reaped p =>
    cases heq
    refine ⟨_, rfl, hs'.flags _, does_flags hd'.of_entry _, ?_, hrest, fun q hq => ?_, hkeeps.procs,
      hkeeps.next, .inr (hflags ▸ rfl), fun herr => hflags ▸ herr, ?_⟩
    · exact hflags ▸ ⟨rfl, rfl, rfl, rfl⟩
    · rcases List.mem_append.mp hq with hq | hq
      · exact .inl (hflags ▸ hq)
      · rw [List.mem_singleton.mp hq, habout.2.1]
        exact .inr (hskip pid List.mem_cons_self)
    · exact .inl ⟨trivial, hflags ▸ rfl⟩
  | running =>
    cases heq
    exact ⟨_, rfl, .of_keeps hs' hd'.of_entry hkeeps hrest trivial⟩
  | raised =>
    cases heq
    exact ⟨_, rfl, .of_keeps hs' hd'.of_entry hkeeps nofun trivial⟩

/-- **A statement of a call that is at work.** -/
theorem atWork_spec {f : Frame} {g : Option Frame} (hs : Safe w) (hd : w.Does f.work)
    (hf : f.AtWork) (hskip : ∀ pid ∈ f.pids, some pid ≠ w.flags.producerPid)
    (h : w.handle f a = some (w', g)) : ∃ f', g = some f' ∧ Turn w w' f' := by
  cases f with
  | register r pids => exact atWork_register hs hd hskip h
  | wait pid r pids => exact atWork_wait hs hd hskip h
  | clear =>
    cases a with
    | ok =>
      cases h
      exact ⟨_, rfl, hs.flags _, does_flags hd _, ⟨rfl, rfl, rfl, rfl⟩, nofun, fun p hp => .inl hp,
        fun _ hp => hp, rfl, .inl rfl, id, .inl ⟨trivial, rfl⟩⟩
    | _ => cases h
  | list =>
    cases a with
    | pids l =>
      obtain ⟨-, heq⟩ := Option.ite_none_right_eq_some.mp h
      cases heq
      refine ⟨_, rfl, .of_keeps hs hd (.refl w) (fun pid hmem => ?_) trivial⟩
      exact of_decide_eq_true (List.mem_filter.mp hmem).2
    | fails e =>
      cases h
      exact ⟨_, rfl, .of_keeps hs hd (.refl w) nofun trivial⟩
    | _ => cases h
  | each pids =>
    cases a with
    | ok =>
      cases pids with
      | nil =>
        cases h
        exact ⟨_, rfl, .of_keeps hs hd (.refl w) nofun trivial⟩
      | cons pid pids =>
        rw [World.handle] at h
        cases hr : w.entries.find? pid with
        | none =>
          rw [hr] at h
          cases h
          exact ⟨_, rfl, .of_keeps hs ⟨hr, hd⟩ (.refl w) hskip trivial⟩
        | some r =>
          rw [hr] at h
          cases h
          exact ⟨_, rfl, .of_keeps hs ⟨hr, hd⟩ (.refl w) hskip trivial⟩
    | _ => cases pids <;> cases h
  | pop pid pids =>
    cases a with
    | ok =>
      cases h
      obtain ⟨hs', hd'⟩ := pop_spec pid hs hd
      exact ⟨_, rfl, .of_keeps hs' hd' (pop_keeps w pid) hskip trivial⟩
    | _ => cases h
  | decide =>
    cases a with
    | ok =>
      cases h
      refine ⟨_, rfl, ?_⟩
      split_ifs
      · exact .of_keeps hs hd (.refl w) nofun trivial
      · exact .of_keeps hs hd (.refl w) nofun trivial
    | _ => cases h
  | fail =>
    cases a with
    | ok =>
      cases h
      exact ⟨_, rfl, hs.flags _, does_flags hd _, ⟨rfl, rfl, rfl, rfl⟩, nofun, fun p hp => .inl hp,
        fun _ hp => hp, rfl, .inr rfl, fun _ => rfl, .inl ⟨trivial, rfl⟩⟩
    | _ => cases h
  | release =>
    cases a with
    | ok =>
      cases h
      exact ⟨_, rfl, hs.flags _, does_flags hd _, ⟨rfl, rfl, rfl, rfl⟩, nofun, fun p hp => .inl hp,
        fun _ hp => hp, rfl, .inr rfl, id, .inr ⟨rfl, rfl⟩⟩
    | _ => cases h
  | entry | check | defer | enter | again => cases hf

theorem Shape.of_light {busy : Bool} {f : Frame} {fs : List Frame} (h : Shape busy (f :: fs))
    (hf : ¬ f.AtWork) : Shape busy fs ∧ (if busy then f.Above else f.Calm) := by
  cases h with
  | calm hcalm hfs => exact ⟨hfs, hcalm⟩
  | atWork hat => exact absurd hat hf
  | above habove hfs => exact ⟨hfs, habove⟩

/-- There is no other call at work. -/
theorem Shape.of_atWork {busy : Bool} {f : Frame} {fs : List Frame} (h : Shape busy (f :: fs))
    (hf : f.AtWork) : Shape false fs ∧ busy = true := by
  cases h with
  | calm hcalm => cases f <;> first | exact hf.elim | exact hcalm.elim
  | atWork _ hfs => exact ⟨hfs, rfl⟩
  | above habove => cases f <;> first | exact hf.elim | exact habove.elim

theorem Shape.light {busy : Bool} {f : Frame} {fs : List Frame} (hfs : Shape busy fs)
    (hf : if busy then f.Above else f.Calm) : Shape busy (f :: fs) := by
  cases busy with
  | false => exact .calm hf hfs
  | true => exact .above hf hfs

/-- What a call that is not at work may do: it changes flags, and goes on as another such call, or to
work. -/
structure Light (w w' : World) (f : Frame) (fs : List Frame) (g : Option Frame) : Prop where
  world : w' = { w with flags := w'.flags }
  flags : w.flags.Alike w'.flags
  reaped : w'.flags.reaped = w.flags.reaped
  pending : w.flags.reapPending = true → w'.flags.reapPending = true
  error : w'.flags.liveReapError = w.flags.liveReapError
  shape : Shape w'.flags.reapBusy (g.toList ++ fs)
  work : Owned.work (g.toList ++ fs) = Owned.work fs
  next : ∀ f' ∈ g, f'.pids = [] ∧ (f' ≠ .entry → f ≠ .entry ∨ w.flags.producerPid ≠ none)

/-- **A statement of a call that is not at work.** -/
theorem light_spec {f : Frame} {fs : List Frame} {g : Option Frame}
    (hshape : Shape w.flags.reapBusy (f :: fs)) (hf : ¬ f.AtWork)
    (h : w.handle f a = some (w', g)) : Light w w' f fs g := by
  obtain ⟨hfs, hkind⟩ := hshape.of_light hf
  cases f with
  | entry =>
    cases a with
    | ok =>
      cases h
      split_ifs with hnone
      · exact ⟨rfl, ⟨rfl, rfl, rfl, rfl⟩, rfl, id, rfl, hfs, rfl, nofun⟩
      · refine ⟨rfl, ⟨rfl, rfl, rfl, rfl⟩, rfl, id, rfl, hfs.light ?_, work_of_idle rfl, ?_⟩
        · split_ifs <;> trivial
        · rintro f' ⟨⟩
          exact ⟨rfl, fun _ => .inr hnone⟩
    | _ => cases h
  | check =>
    cases a with
    | ok =>
      cases h
      split_ifs with hbusy
      · refine ⟨rfl, ⟨rfl, rfl, rfl, rfl⟩, rfl, id, rfl, hfs.light ?_, work_of_idle rfl, ?_⟩
        · rw [if_pos hbusy]
          trivial
        · rintro f' ⟨⟩
          exact ⟨rfl, fun _ => .inl nofun⟩
      · refine ⟨rfl, ⟨rfl, rfl, rfl, rfl⟩, rfl, id, rfl, hfs.light ?_, work_of_idle rfl, ?_⟩
        · rw [if_neg hbusy]
          trivial
        · rintro f' ⟨⟩
          exact ⟨rfl, fun _ => .inl nofun⟩
    | _ => cases h
  | defer =>
    cases a with
    | ok =>
      cases h
      exact ⟨rfl, ⟨rfl, rfl, rfl, rfl⟩, rfl, fun _ => rfl, rfl, hfs, rfl, nofun⟩
    | _ => cases h
  | enter =>
    cases a with
    | ok =>
      cases h
      have hbusy : w.flags.reapBusy = false := by
        by_contra htrue
        rw [if_pos (by simpa using htrue)] at hkind
        exact hkind
      rw [hbusy] at hfs
      refine ⟨rfl, ⟨rfl, rfl, rfl, rfl⟩, rfl, id, rfl, .atWork trivial hfs, work_of_idle rfl, ?_⟩
      rintro f' ⟨⟩
      exact ⟨rfl, fun _ => .inl nofun⟩
    | _ => cases h
  | again =>
    cases a with
    | ok =>
      cases h
      split_ifs
      · refine ⟨rfl, ⟨rfl, rfl, rfl, rfl⟩, rfl, id, rfl, hfs.entry, work_of_idle rfl, ?_⟩
        rintro f' ⟨⟩
        exact ⟨rfl, fun hne => absurd rfl hne⟩
      · exact ⟨rfl, ⟨rfl, rfl, rfl, rfl⟩, rfl, id, rfl, hfs, rfl, nofun⟩
    | _ => cases h
  | clear | list | each | register | wait | pop | decide | fail | release => exact absurd trivial hf

/-! ### A statement of the job -/

inductive Stage where
  | popen
  | calm
  | armed
  | live
  | leaving
  | shut
  deriving DecidableEq

def Main.stage : Main → Stage
  | .popen => .popen
  | .install => .armed
  | .first | .waiting | .stopping => .live
  | .uninstall => .leaving
  | .restored => .shut
  | _ => .calm

/-- What the job has done about live reaping. -/
def Phase (fl : Flags) : Stage → Prop
  | .popen => fl.producerPid = none ∧ fl.installed = false ∧ fl.reaped = [] ∧ fl.due = []
  | .armed => fl.producerPid = fl.child.map Proc.pid ∧ fl.installed = false
  | .live => fl.producerPid = fl.child.map Proc.pid ∧ fl.installed = true
  | .leaving => fl.producerPid = none ∧ fl.installed = true
  | .calm | .shut => fl.producerPid = none ∧ fl.installed = false

/-- The handler is installed. -/
def Stage.Installed : Stage → Prop
  | .live | .leaving => True
  | _ => False

theorem Phase.installed {fl : Flags} {g : Stage} (h : Phase fl g) (hi : fl.installed = true) :
    g.Installed := by
  cases g with
  | live | leaving => trivial
  | popen => exact absurd (h.2.1.symm.trans hi) (by decide)
  | armed | calm | shut => exact absurd (h.2.symm.trans hi) (by decide)

theorem Phase.producerPid {fl : Flags} {g : Stage} (h : Phase fl g) :
    fl.producerPid = none ∨ fl.producerPid = fl.child.map Proc.pid := by
  cases g with
  | armed | live => exact .inr h.1
  | popen | calm | leaving | shut => exact .inl h.1

/-- What the code at work in the job is about. -/
def Main.work : Main → Work
  | .registerProducer r _ | .register r _ => .reg r
  | .compare pid r _ | .signal pid r _ | .waitProducer pid r _ | .wait pid r _ _ | .term pid r _
  | .late pid r _ => .entry pid r
  | _ => .idle

/-- What the job leaves alone. -/
def Flags.Behind (fl fl' : Flags) : Prop :=
  fl' = { fl with producerPid := fl'.producerPid, installed := fl'.installed }

/-- What a statement of the job leads to. -/
structure Move (w w' : World) (m' : Main) : Prop where
  safe : Safe w'
  does : w'.Does m'.work
  phase : Phase w'.flags m'.stage
  flags : w.flags.Behind w'.flags
  procs : ∀ p ∈ w'.os.procs, p ∈ w.os.procs
  next : w'.os.next = w.os.next
  later : m'.stage ≠ .popen
  closed : m'.stage = .shut → ∀ fd, w'.os.fds.find? fd = none

/-- Nothing about live reaping happens. -/
theorem Move.calm {m' : Main} (hs : Safe w') (hd : w'.Does m'.work) (hk : Keeps w w')
    (hph : Phase w.flags .calm) (hm : m'.stage = .calm) : Move w w' m' where
  safe := hs
  does := hd
  phase := hm ▸ hk.flags ▸ hph
  flags := hk.flags ▸ rfl
  procs := hk.procs
  next := hk.next
  later := hm ▸ nofun
  closed := hm ▸ nofun

/-- Only the flags change. -/
theorem Move.of_flags {flags : Flags} {m' : Main} (hs : Safe w) (hd : w.Does m'.work)
    (hph : Phase flags m'.stage) (hbehind : w.flags.Behind flags) (hpopen : m'.stage ≠ .popen)
    (hshut : m'.stage ≠ .shut) : Move w { w with flags } m' where
  safe := hs.flags _
  does := does_flags hd _
  phase := hph
  flags := hbehind
  procs _ hp := hp
  next := rfl
  later := hpopen
  closed h := absurd h hshut

variable {m m' : Main}

theorem move_sent {pid : ℕ} {r : Record} {s : Sent} {e : Option Exn} {w₁ : World} (hs : Safe w₁)
    (hd : w₁.Does (.entry pid r)) (hk : Keeps w w₁) (hph : Phase w.flags .calm) :
    Move w (w₁.sent pid r s e).1 (w₁.sent pid r s e).2 := by
  cases s with
  | producer kill =>
    match e with
    | none => exact .calm hs hd hk hph rfl
    | some .vanished => exact .calm hs hd hk hph rfl
    | some .other => exact .calm hs hd.of_entry hk hph rfl
  | loop kill pids =>
    match kill, e with
    | false, none =>
      obtain ⟨hs', hd'⟩ := mark_spec { r with termSent := true } hs hd rfl rfl
      exact .calm hs' hd' (hk.trans (mark_keeps _ _ _)) hph rfl
    | true, none =>
      obtain ⟨hs', hd'⟩ := mark_spec { r with killSent := true } hs hd rfl rfl
      exact .calm hs' hd' (hk.trans (mark_keeps _ _ _)) hph rfl
    | false, some .vanished | true, some .vanished => exact .calm hs hd.of_entry hk hph rfl
    | false, some .other | true, some .other => exact .calm hs hd.of_entry hk hph rfl

theorem move_register {r : Reg} {pids : List ℕ} (hs : Safe w) (hd : w.Does (.reg r))
    (hph : Phase w.flags .calm) (h : w.main (.register r pids) a = some (w', m')) : Move w w' m' := by
  obtain ⟨⟨w₁, out⟩, hreg, heq⟩ := Option.map_eq_some_iff.mp h
  obtain ⟨hs', hd', -, hk⟩ := reg_spec hs hd hreg
  match out with
  | .next r' =>
    cases heq
    exact .calm hs' hd' hk hph rfl
  | .done pid r' =>
    cases heq
    exact .calm hs' hd' hk hph rfl
  | .raised .vanished | .raised .other =>
    cases heq
    exact .calm hs' hd' hk hph rfl

theorem move_registerProducer {r : Reg} {cleaning : Bool} (hs : Safe w) (hd : w.Does (.reg r))
    (hph : Phase w.flags .calm) (h : w.main (.registerProducer r cleaning) a = some (w', m')) :
    Move w w' m' := by
  obtain ⟨⟨w₁, out⟩, hreg, heq⟩ := Option.map_eq_some_iff.mp h
  obtain ⟨hs', hd', -, hk⟩ := reg_spec hs hd hreg
  cases out with
  | next r' =>
    cases heq
    exact .calm hs' hd' hk hph rfl
  | done pid r' =>
    cases cleaning with
    | false =>
      cases heq
      exact .calm hs' hd'.of_entry hk hph rfl
    | true =>
      cases heq
      exact .calm hs' hd' hk hph rfl
  | raised e =>
    cases cleaning with
    | false =>
      cases heq
      exact .calm hs' hd' hk hph rfl
    | true =>
      cases heq
      exact .calm hs' hd' hk hph rfl

theorem move_wait {pid : ℕ} {r : Record} {again : Bool} {pids : List ℕ} (hs : Safe w)
    (hd : w.Does (.entry pid r)) (hph : Phase w.flags .calm)
    (h : w.main (.wait pid r again pids) a = some (w', m')) : Move w w' m' := by
  obtain ⟨⟨w₁, out⟩, hwait, heq⟩ := Option.map_eq_some_iff.mp h
  obtain ⟨hs', hd', -, hk⟩ := waitid_spec hs hd hwait
  cases out with
  | reaped p =>
    cases heq
    exact .calm hs' hd'.of_entry hk hph rfl
  | running =>
    cases again with
    | false =>
      cases heq
      exact .calm hs' hd' hk hph rfl
    | true =>
      cases heq
      exact .calm hs' hd'.of_entry hk hph rfl
  | raised =>
    cases heq
    exact .calm hs' hd'.of_entry hk hph rfl

/-- The process that `Popen` has made is reaped by it. -/
theorem pollChild_spec (hs : Safe w) (hd : w.Does .idle) :
    Safe w.pollChild ∧ w.pollChild.Does .idle ∧ Keeps w w.pollChild := by
  unfold World.pollChild
  split
  · split_ifs
    · exact ⟨(reap_spec _ hs hd).1, (reap_spec _ hs hd).2, reap_keeps w _⟩
    · exact ⟨hs, hd, .refl w⟩
  · exact ⟨hs, hd, .refl w⟩

theorem move_poll (hs : Safe w) (hd : w.Does .idle) (hph : Phase w.flags .calm)
    (h : w.main .poll .ok = some (w', m')) : Move w w' m' := by
  obtain ⟨hs', hd', hk⟩ := pollChild_spec hs hd
  simp only [World.main] at h
  split at h
  · cases h
    exact .calm hs' hd' hk hph rfl
  · split at h
    · rename_i r hr
      cases h
      exact .calm hs' ⟨hr, hd'⟩ hk hph rfl
    · rename_i hr
      cases h
      exact .calm hs' ⟨hr, hd'⟩ hk hph rfl

theorem move_forget (hs : Safe w) (hd : w.Does .idle) (hph : Phase w.flags .calm)
    (h : w.main .forget .ok = some (w', m')) : Move w w' m' := by
  cases h
  cases w.flags.child with
  | none => exact .calm hs hd (.refl w) hph rfl
  | some c =>
    obtain ⟨hs', hd'⟩ := pop_spec c.pid hs hd
    exact .calm hs' hd' (pop_keeps w _) hph rfl

theorem move_list (hs : Safe w) (hd : w.Does .idle) (hph : Phase w.flags .calm) {l : List ℕ}
    (h : w.main .list (.pids l) = some (w', m')) : Move w w' m' := by
  obtain ⟨hlists, h⟩ := Option.ite_none_right_eq_some.mp h
  split_ifs at h with hnil
  · cases h
    have hnone : w.os.procs = [] := by
      rw [World.lists, hnil] at hlists
      exact List.eq_nil_iff_forall_not_mem.mpr (by simpa using hlists)
    refine .calm ⟨hs.os, hs.names, hs.right, hs.sent, fun l hl => ?_⟩ hd ⟨rfl, fun _ hp => hp, rfl⟩ hph
      rfl
    rcases List.mem_append.mp hl with hl | hl
    · exact hs.returned l hl
    · rw [List.mem_singleton.mp hl, hnone]
  · cases h
    exact .calm hs hd (.refl w) hph rfl

theorem move_each (hs : Safe w) (hd : w.Does .idle) (hph : Phase w.flags .calm) {pids : List ℕ}
    (h : w.main (.each pids) .ok = some (w', m')) : Move w w' m' := by
  cases pids with
  | nil =>
    cases h
    exact .calm hs hd (.refl w) hph rfl
  | cons pid pids =>
    rw [World.main] at h
    cases hr : w.entries.find? pid with
    | none =>
      rw [hr] at h
      cases h
      exact .calm hs ⟨hr, hd⟩ (.refl w) hph rfl
    | some r =>
      rw [hr] at h
      cases h
      exact .calm hs ⟨hr, hd⟩ (.refl w) hph rfl

theorem move_vanished (hs : Safe w) (hd : w.Does .idle) (hph : Phase w.flags .calm) {pid : ℕ}
    {pids : List ℕ} (h : w.main (.vanished pid pids) .ok = some (w', m')) : Move w w' m' := by
  rw [World.main] at h
  cases hr : w.entries.find? pid with
  | none =>
    rw [hr] at h
    cases h
    exact .calm hs hd (.refl w) hph rfl
  | some r =>
    rw [hr] at h
    cases h
    exact .calm hs ⟨hr, hd⟩ (.refl w) hph rfl

/-- **A statement of the job.** -/
theorem main_spec (hs : Safe w) (hd : w.Does m.work) (hph : Phase w.flags m.stage)
    (hclosed : m.stage = .shut → ∀ fd, w.os.fds.find? fd = none)
    (h : w.main m a = some (w', m')) : Move w w' m' := by
  cases m with
  | registerProducer r cleaning => exact move_registerProducer hs hd hph h
  | register r pids => exact move_register hs hd hph h
  | compare pid r s =>
    obtain ⟨e, -, heq⟩ := Option.map_eq_some_iff.mp h
    cases e with
    | none =>
      cases heq
      exact .calm hs hd (.refl w) hph rfl
    | some e =>
      have hmove := move_sent (s := s) (e := some e) hs hd (.refl w) hph
      have hsent : w.sent pid r s (some e) = (w', m') := heq
      rw [hsent] at hmove
      exact hmove
  | signal pid r s =>
    obtain ⟨⟨w₁, e⟩, hsig, heq⟩ := Option.map_eq_some_iff.mp h
    obtain ⟨hs', hd', hk⟩ := signal_spec hs hd hsig
    have hmove := move_sent (s := s) (e := e) hs' hd' hk hph
    have hsent : w₁.sent pid r s e = (w', m') := heq
    rw [hsent] at hmove
    exact hmove
  | wait pid r again pids => exact move_wait hs hd hph h
  | popen =>
    cases a with
    | fails e =>
      cases h
      exact .calm hs hd (.refl w) ⟨hph.1, hph.2.1⟩ rfl
    | _ => cases h
  | start =>
    cases a with
    | ok =>
      cases h
      exact .of_flags hs hd ⟨rfl, hph.2⟩ rfl (by decide) (by decide)
    | _ => cases h
  | install =>
    cases a with
    | ok =>
      cases h
      exact .of_flags hs hd ⟨hph.1, rfl⟩ rfl (by decide) (by decide)
    | _ => cases h
  | waiting =>
    cases a with
    | ok =>
      obtain ⟨p, -, heq⟩ := Option.map_eq_some_iff.mp h
      cases heq
      exact ⟨(reap_spec _ hs hd).1, (reap_spec _ hs hd).2, hph, rfl, (reap_keeps w _).procs, rfl, nofun,
        nofun⟩
    | fails e =>
      cases h
      exact ⟨hs, hd, hph, rfl, fun _ hp => hp, rfl, nofun, nofun⟩
    | _ => cases h
  | stopping =>
    cases a with
    | ok =>
      cases h
      exact .of_flags hs hd ⟨rfl, hph.2⟩ rfl (by decide) (by decide)
    | _ => cases h
  | uninstall =>
    cases a with
    | ok =>
      cases h
      exact .of_flags hs hd ⟨hph.1, rfl⟩ rfl (by decide) (by decide)
    | _ => cases h
  | poll =>
    cases a with
    | ok => exact move_poll hs hd hph h
    | _ => cases h
  | waitProducer pid r kill =>
    cases a with
    | ok =>
      rw [World.main] at h
      split at h
      · cases h
        exact .calm hs hd.of_entry (.refl w) hph rfl
      · split_ifs at h
        cases h
        exact .calm (reap_spec _ hs hd.of_entry).1 (reap_spec _ hs hd.of_entry).2 (reap_keeps w _) hph rfl
    | no =>
      cases kill with
      | false =>
        cases h
        exact .calm hs hd (.refl w) hph rfl
      | true =>
        cases h
        exact .calm hs hd.of_entry (.refl w) hph rfl
    | _ => cases h
  | forget =>
    cases a with
    | ok => exact move_forget hs hd hph h
    | _ => cases h
  | list =>
    cases a with
    | pids l => exact move_list hs hd hph h
    | fails e =>
      cases h
      exact .calm hs hd (.refl w) hph rfl
    | _ => cases h
  | each pids =>
    cases a with
    | ok => exact move_each hs hd hph h
    | _ => cases pids <;> cases h
  | term pid r pids =>
    cases a with
    | ok =>
      obtain rfl := Prod.mk.inj (Option.some.inj h) |>.1
      obtain rfl := Prod.mk.inj (Option.some.inj h) |>.2
      split_ifs
      · exact .calm hs hd (.refl w) hph rfl
      · exact .calm hs hd (.refl w) hph rfl
    | _ => cases h
  | late pid r pids =>
    cases a with
    | ok =>
      obtain rfl := Prod.mk.inj (Option.some.inj h) |>.1
      obtain rfl := Prod.mk.inj (Option.some.inj h) |>.2
      split_ifs
      · exact .calm hs hd (.refl w) hph rfl
      · exact .calm hs hd (.refl w) hph rfl
    | no =>
      cases h
      exact .calm hs hd (.refl w) hph rfl
    | _ => cases h
  | vanished pid pids =>
    cases a with
    | ok => exact move_vanished hs hd hph h
    | _ => cases h
  | pop pid pids =>
    cases a with
    | ok =>
      cases h
      obtain ⟨hs', hd'⟩ := pop_spec pid hs hd
      exact .calm hs' hd' (pop_keeps w pid) hph rfl
    | _ => cases h
  | pause =>
    cases a with
    | ok =>
      cases h
      exact .calm hs hd (.refl w) hph rfl
    | no =>
      rw [World.main] at h
      split_ifs at h
      cases h
      exact .calm hs hd (.refl w) hph rfl
    | _ => cases h
  | idle =>
    cases a with
    | ok =>
      cases h
      exact .calm hs hd (.refl w) hph rfl
    | no =>
      cases h
      exact .calm hs hd (.refl w) hph rfl
    | _ => cases h
  | restoring =>
    cases a with
    | ok =>
      obtain rfl := Prod.mk.inj (Option.some.inj h) |>.1
      obtain rfl := Prod.mk.inj (Option.some.inj h) |>.2
      have hf : ({ w.flags with producerPid := none } : Flags) = w.flags := by
        rw [← hph.1]
      split_ifs
      · exact .calm (hs.flags _) (does_flags hd _) ⟨hf, fun _ hp => hp, rfl⟩ hph rfl
      · exact .calm (hs.flags _) (does_flags hd _) ⟨hf, fun _ hp => hp, rfl⟩ hph rfl
    | _ => cases h
  | closing =>
    cases a with
    | ok =>
      cases h
      obtain ⟨hs', hd', hnone, hk⟩ := closeAll_spec hs hd
      exact ⟨hs', hd', hph, rfl, hk.procs, hk.next, nofun, fun _ => hnone⟩
    | fails e =>
      cases h
      exact .calm hs hd (.refl w) hph rfl
    | _ => cases h
  | first | restored => cases a <;> cases h

/-! ### A run -/

/-- The code that is at work. -/
def State.work (s : State) : Work :=
  match s.handlers with
  | [] => s.main.work
  | f :: fs => Owned.work (f :: fs)

/-- The invariant. -/
structure Inv (s : State) : Prop where
  safe : Safe s.world
  does : s.world.Does s.work
  shape : Shape s.world.flags.reapBusy s.handlers
  phase : Phase s.world.flags s.main.stage
  live : s.handlers ≠ [] → s.main.stage.Installed
  armed : ∀ f ∈ s.handlers, f ≠ .entry →
    s.world.flags.producerPid = s.world.flags.child.map Proc.pid
  skips : ∀ f ∈ s.handlers, ∀ pid ∈ f.pids, some pid ≠ s.world.flags.producerPid
  spared : ∀ p ∈ s.world.flags.reaped, some p.pid ≠ s.world.flags.child.map Proc.pid
  closed : s.main.stage = .shut → ∀ fd, s.world.os.fds.find? fd = none
  fresh : s.main.stage = .popen → ∀ pid, s.world.entries.find? pid = none

variable {s t : State}

theorem Inv.init : Inv .init where
  safe := ⟨.init, nofun, rfl, nofun, nofun⟩
  does := Ledger.init
  shape := .nil
  phase := ⟨rfl, rfl, rfl, rfl⟩
  live h := absurd rfl h
  armed := nofun
  skips := nofun
  spared := nofun
  closed := nofun
  fresh _ _ := rfl

theorem work_of_installed (h : m.stage.Installed) : m.work = .idle := by
  cases m <;> first | rfl | cases h

/-- When the handler may run, the job is at nothing. -/
theorem state_work {fs : List Frame} (h : m.stage.Installed) :
    State.work ⟨w, m, fs⟩ = Owned.work fs := by
  cases fs with
  | nil => exact work_of_installed h
  | cons f fs => rfl

theorem Stage.Installed.closed {g : Stage} {P : Prop} (h : g.Installed) : g = .shut → P := by
  rintro rfl
  cases h

theorem Stage.Installed.fresh {g : Stage} {P : Prop} (h : g.Installed) : g = .popen → P := by
  rintro rfl
  cases h

/-! A process that comes or goes. -/

theorem fork_spec {pid : ℕ} (ticks : ℕ) {k : Work} (hs : Safe w) (hd : w.Does k)
    (hfree : w.os.byPid pid = none) :
    Safe { w with os := w.os.fork pid ticks } ∧ World.Does { w with os := w.os.fork pid ticks } k := by
  refine ⟨⟨hs.os.fork hfree, fun pid' r id hr hfd => (hs.names pid' r id hr hfd).fork (hs.os.past _ _ hfd),
    hs.right, hs.sent, hs.returned⟩, ?_⟩
  cases k with
  | idle => exact hd.of_fds rfl
  | entry pid' r => exact ⟨hd.1, hd.2.of_fds rfl⟩
  | reg r =>
    cases r with
    | identify pid' => exact ⟨hd.1, hd.2.of_fds rfl⟩
    | opening pid' ticks' => exact ⟨hd.1, hd.2.of_fds rfl⟩
    | recheck pid' ticks' fd =>
      refine ⟨hd.1, hd.2.1.of_fds rfl, fun id hfd p hp hid => ?_⟩
      rcases Kernel.mem_fork.mp hp with hp | rfl
      · exact hd.2.2 id hfd p hp hid
      · exact absurd hid (Nat.ne_of_gt (hs.os.past _ _ hfd))
    | store pid' ticks' fd =>
      exact ⟨hd.1, hd.2.1.of_fds rfl, fun id hfd => (hd.2.2 id hfd).fork (hs.os.past _ _ hfd)⟩

theorem exits_spec (id : ℕ) {k : Work} (hs : Safe w) (hd : w.Does k) :
    Safe { w with os := w.os.exits id } ∧ World.Does { w with os := w.os.exits id } k := by
  refine ⟨⟨hs.os.exits, fun pid r id hr hfd => (hs.names pid r id hr hfd).exits, hs.right, hs.sent,
    hs.returned⟩, ?_⟩
  cases k with
  | idle => exact hd.of_fds rfl
  | entry pid r => exact ⟨hd.1, hd.2.of_fds rfl⟩
  | reg r =>
    cases r with
    | identify pid => exact ⟨hd.1, hd.2.of_fds rfl⟩
    | opening pid ticks => exact ⟨hd.1, hd.2.of_fds rfl⟩
    | recheck pid ticks fd =>
      refine ⟨hd.1, hd.2.1.of_fds rfl, fun id' hfd p hp hid => ?_⟩
      obtain ⟨q, hq, hqid, hqpid, -⟩ := Kernel.mem_exits hp
      exact hqpid.trans (hd.2.2 id' hfd q hq (hqid.symm.trans hid))
    | store pid ticks fd => exact ⟨hd.1, hd.2.1.of_fds rfl, fun id' hfd => (hd.2.2 id' hfd).exits⟩

theorem notice_world (w : World) :
    w.notice = { w with flags.due := w.notice.flags.due } := by
  rw [World.notice]
  split <;> rfl

theorem inv_popen {pid ticks : ℕ} (hinv : Inv s) (hstep : step s (.popen pid ticks) = some t) :
    Inv t := by
  obtain ⟨⟨hmain, hfree⟩, heq⟩ := Option.ite_none_right_eq_some.mp hstep
  cases heq
  have hph := hinv.phase
  have hnone := hinv.fresh (by rw [hmain]; rfl) pid
  rw [hmain] at hph
  have hnil : s.handlers = [] := by
    by_contra hne
    have hlive := hinv.live hne
    rw [hmain] at hlive
    exact hlive
  have hd := hinv.does
  have hshape := hinv.shape
  rw [State.work, hnil, hmain] at hd
  obtain ⟨hs', hl⟩ := fork_spec ticks hinv.safe hd hfree
  refine ⟨hs'.flags _, ?_, hshape, ⟨hph.1, hph.2.1⟩, fun hne => absurd hnil hne, ?_, ?_, ?_, nofun,
    nofun⟩
  · rw [State.work, hnil]
    exact ⟨hnone, hl⟩
  · intro f hf
    rw [hnil] at hf
    cases hf
  · intro f hf
    rw [hnil] at hf
    cases hf
  · intro p hp
    rw [hph.2.2.1] at hp
    cases hp

theorem inv_deliver {fs : List Frame} (hinv : Inv ⟨w, m, fs⟩) (hinstalled : w.flags.installed = true) :
    Inv ⟨w.notice, m, .entry :: fs⟩ := by
  have hlive : m.stage.Installed := hinv.phase.installed hinstalled
  have hd := hinv.does
  rw [state_work hlive] at hd
  rw [notice_world]
  refine ⟨hinv.safe.flags _, ?_, hinv.shape.entry, ?_, fun _ => hlive, ?_, ?_, hinv.spared,
    hinv.closed, hinv.fresh⟩
  · rw [state_work hlive]
    exact does_flags hd _
  · have hph : Phase w.flags m.stage := hinv.phase
    change Phase _ m.stage
    cases hstage : m.stage with
    | live | leaving =>
      rw [hstage] at hph
      exact hph
    | popen | calm | armed | shut =>
      rw [hstage] at hlive
      cases hlive
  · intro f hf hne
    rcases List.mem_cons.mp hf with rfl | hf
    · exact absurd rfl hne
    · exact hinv.armed f hf hne
  · intro f hf
    rcases List.mem_cons.mp hf with rfl | hf
    · exact nofun
    · exact hinv.skips f hf

/-- The call of `reap_terminated` in `start_live_reaping`. -/
theorem inv_first (hinv : Inv s) (hnil : s.handlers = []) (hmain : s.main = .first) :
    Inv ⟨s.world.notice, .waiting, [.entry]⟩ := by
  have hd := hinv.does
  have hph := hinv.phase
  have hshape := hinv.shape
  rw [State.work, hnil, hmain] at hd
  rw [hnil] at hshape
  rw [hmain] at hph
  rw [notice_world]
  refine ⟨hinv.safe.flags _, does_flags hd _, hshape.entry, hph, fun _ => trivial, ?_, ?_,
    hinv.spared, nofun, nofun⟩
  · intro f hf hne
    exact absurd (List.mem_singleton.mp hf) hne
  · intro f hf
    rw [List.mem_singleton.mp hf]
    exact nofun

theorem phase_alike {fl fl' : Flags} {g : Stage} (h : Phase fl g) (ha : fl.Alike fl')
    (hg : g.Installed) : Phase fl' g := by
  obtain ⟨hpid, hinst, hchild, -⟩ := ha
  cases g with
  | live => exact ⟨by rw [hpid, hchild, h.1], hinst.trans h.2⟩
  | leaving => exact ⟨hpid.trans h.1, hinst.trans h.2⟩
  | popen | calm | armed | shut => cases hg

theorem inv_atWork {f : Frame} {fs : List Frame} {g : Option Frame} (hinv : Inv ⟨w, m, f :: fs⟩)
    (hat : f.AtWork) (h : w.handle f a = some (w', g)) : Inv ⟨w', m, g.toList ++ fs⟩ := by
  have hlive : m.stage.Installed := hinv.live nofun
  have hd := hinv.does
  obtain ⟨hfs, hbusy⟩ := hinv.shape.of_atWork hat
  rw [state_work hlive, hfs.work_atWork] at hd
  obtain ⟨f', rfl, hturn⟩ := atWork_spec hinv.safe hd hat (hinv.skips f List.mem_cons_self) h
  obtain ⟨hpid, -, hchild, -⟩ := hturn.flags
  have harmed : w.flags.producerPid = w.flags.child.map Proc.pid :=
    hinv.armed f List.mem_cons_self (by rintro rfl; exact hat)
  refine ⟨hturn.safe, ?_, ?_, phase_alike hinv.phase hturn.flags hlive, fun _ => hlive, ?_, ?_, ?_,
    hlive.closed, hlive.fresh⟩
  · rw [state_work hlive]
    change w'.Does (Owned.work (f' :: fs))
    rw [hfs.work_atWork]
    exact hturn.does
  · change Shape w'.flags.reapBusy (f' :: fs)
    obtain ⟨hat', hbusy'⟩ | ⟨rfl, hbusy'⟩ := hturn.goes
    · rw [hbusy'.trans hbusy]
      exact .atWork hat' hfs
    · rw [hbusy']
      exact .calm trivial hfs
  · intro f'' hmem hne
    rcases List.mem_cons.mp hmem with rfl | hmem
    · exact (hpid.trans harmed).trans (by rw [hchild])
    · exact (hpid.trans (hinv.armed f'' (List.mem_cons_of_mem _ hmem) hne)).trans (by rw [hchild])
  · intro f'' hmem pid hp
    change some pid ≠ w'.flags.producerPid
    rw [hpid]
    rcases List.mem_cons.mp hmem with rfl | hmem
    · exact hturn.skips pid hp
    · exact hinv.skips f'' (List.mem_cons_of_mem _ hmem) pid hp
  · intro p hp
    change some p.pid ≠ w'.flags.child.map Proc.pid
    rw [hchild]
    obtain hp | hp := hturn.reaped p hp
    · exact hinv.spared p hp
    · exact harmed ▸ hp

theorem inv_light {f : Frame} {fs : List Frame} {g : Option Frame} (hinv : Inv ⟨w, m, f :: fs⟩)
    (hat : ¬ f.AtWork) (h : w.handle f a = some (w', g)) : Inv ⟨w', m, g.toList ++ fs⟩ := by
  have hlive : m.stage.Installed := hinv.live nofun
  have hd := hinv.does
  have hidle : f.work = .idle := by
    cases f <;> first | rfl | exact absurd trivial hat
  rw [state_work hlive, work_of_idle hidle] at hd
  have hlight := light_spec hinv.shape hat h
  obtain ⟨hpid, -, hchild, -⟩ := hlight.flags
  refine ⟨hlight.world ▸ hinv.safe.flags _, ?_, hlight.shape,
    phase_alike hinv.phase hlight.flags hlive, fun _ => hlive, ?_, ?_, ?_, hlive.closed, hlive.fresh⟩
  · rw [state_work hlive, hlight.work]
    change w'.Does _
    rw [hlight.world]
    exact does_flags hd _
  · intro f' hmem hne
    refine (hpid.trans ?_).trans (by rw [hchild])
    rcases List.mem_append.mp hmem with hmem | hmem
    · obtain hne' | hsome := (hlight.next f' (Option.mem_toList.mp hmem)).2 hne
      · exact hinv.armed f List.mem_cons_self hne'
      · exact hinv.phase.producerPid.resolve_left hsome
    · exact hinv.armed f' (List.mem_cons_of_mem _ hmem) hne
  · intro f' hmem pid hp
    change some pid ≠ w'.flags.producerPid
    rw [hpid]
    rcases List.mem_append.mp hmem with hmem | hmem
    · rw [(hlight.next f' (Option.mem_toList.mp hmem)).1] at hp
      cases hp
    · exact hinv.skips f' (List.mem_cons_of_mem _ hmem) pid hp
  · intro p hp
    change some p.pid ≠ w'.flags.child.map Proc.pid
    rw [hchild]
    exact hinv.spared p (hlight.reaped ▸ hp)

theorem inv_main (hinv : Inv s) (hnil : s.handlers = []) (h : s.world.main s.main a = some (w', m')) :
    Inv ⟨w', m', []⟩ := by
  have hd := hinv.does
  have hshape := hinv.shape
  rw [State.work, hnil] at hd
  rw [hnil] at hshape
  have hmove := main_spec hinv.safe hd hinv.phase hinv.closed h
  have hflags := hmove.flags
  refine ⟨hmove.safe, hmove.does, ?_, hmove.phase, fun hne => absurd rfl hne, nofun, nofun, ?_,
    hmove.closed, fun hpopen => absurd hpopen hmove.later⟩
  · change Shape w'.flags.reapBusy []
    rw [hflags]
    exact hshape
  · change ∀ p ∈ w'.flags.reaped, some p.pid ≠ w'.flags.child.map Proc.pid
    rw [hflags]
    exact hinv.spared

/-- **The invariant is kept.** -/
theorem inv_step {act : Act} (hinv : Inv s) (hstep : step s act = some t) : Inv t := by
  cases act with
  | adopt pid ticks =>
    obtain ⟨hfree, heq⟩ := Option.ite_none_right_eq_some.mp hstep
    cases heq
    obtain ⟨hs', hd'⟩ := fork_spec ticks hinv.safe hinv.does hfree
    exact ⟨hs', hd', hinv.shape, hinv.phase, hinv.live, hinv.armed, hinv.skips, hinv.spared,
      hinv.closed, hinv.fresh⟩
  | exits id =>
    cases hstep
    obtain ⟨hs', hd'⟩ := exits_spec id hinv.safe hinv.does
    exact ⟨hs', hd', hinv.shape, hinv.phase, hinv.live, hinv.armed, hinv.skips, hinv.spared,
      hinv.closed, hinv.fresh⟩
  | popen pid ticks => exact inv_popen hinv hstep
  | deliver =>
    obtain ⟨hinstalled, heq⟩ := Option.ite_none_right_eq_some.mp hstep
    cases heq
    exact inv_deliver hinv hinstalled
  | go a =>
    obtain ⟨w, m, fs⟩ := s
    cases fs with
    | cons f fs =>
      obtain ⟨⟨w', g⟩, h, heq⟩ := Option.map_eq_some_iff.mp hstep
      cases heq
      by_cases hat : f.AtWork
      · exact inv_atWork hinv hat h
      · exact inv_light hinv hat h
    | nil =>
      change (if m = .first then some ⟨w.notice, .waiting, [.entry]⟩ else _) = some t at hstep
      split_ifs at hstep with hmain
      · cases hstep
        exact inv_first hinv rfl hmain
      · obtain ⟨⟨w', m'⟩, h, heq⟩ := Option.map_eq_some_iff.mp hstep
        cases heq
        exact inv_main hinv rfl h

theorem inv_of_exec {acts : List Act} (h : Machine.exec step .init acts = some t) : Inv t :=
  Machine.invariant inv_step Inv.init h

/-- **What is owned.** In every run, whatever is adopted, exits or is delivered in between: each
signal went to a direct child with the pid and the start of its record. No descriptor is closed that
is not open, and when the object has been restored none is left open. A handler has not waited for a
process with the pid of the producer. When `cleanup` returns there are no children. -/
theorem owned_safe (acts : List Act) (h : Machine.exec step .init acts = some t) :
    (∀ g ∈ t.world.signals, g.child.pid = g.pid ∧ g.child.ticks = g.ticks) ∧
      t.world.os.wrong = false ∧
      (t.main = .restored → ∀ fd, t.world.os.fds.find? fd = none) ∧
      (∀ p ∈ t.world.flags.reaped, some p.pid ≠ t.world.flags.child.map Proc.pid) ∧
      ∀ l ∈ t.world.returned, l = [] := by
  have hinv := inv_of_exec h
  refine ⟨hinv.safe.sent, hinv.safe.right, fun hmain => hinv.closed ?_, hinv.spared, hinv.safe.returned⟩
  rw [hmain]
  rfl

/-- An adopted child terminates before the handler is installed. `SIGCHLD` is delivered once more while
the first call has the child in hand. -/
def watched : List Act :=
  [.popen 10 100, .go .ok, .go (.fd 5), .go .ok, .go .ok, .go .ok, .go .ok, .adopt 11 7, .exits 1,
   .go .ok, .go .ok, .go .ok, .go .ok, .go .ok, .go (.pids [10, 11]), .deliver, .go .ok, .go .ok,
   .go .ok, .go .ok, .go .ok, .go (.fd 6), .go .ok, .go .ok, .go .ok, .go .ok, .go .ok, .go .ok,
   .go .ok, .go (.pids [10]), .go .ok, .go .ok, .go .ok, .go .ok]

/-- The pid of that child is used again. The producer exits, and the other child is terminated by
`cleanup`. -/
def cleaned : List Act :=
  watched ++ [.adopt 11 9, .exits 0, .go .ok, .go .ok, .go .ok, .go .ok, .go .ok, .go (.pids [11]),
   .go .ok, .go .ok, .go (.fd 6), .go .ok, .go .ok, .go .ok, .go .ok, .go .ok, .go .ok, .go .no,
   .exits 2, .go .ok, .go .ok, .go .ok, .go .ok, .go (.pids []), .go .no, .go .ok, .go .ok]

/-- The signal went to the second child with the pid. -/
theorem owned_safe_cleaned : ∃ t, Machine.exec step .init cleaned = some t ∧
    (∃ g ∈ t.world.signals, g.child = ⟨2, 11, 9, false⟩) ∧ ∀ fd, t.world.os.fds.find? fd = none := by
  have hrun : (Machine.exec step .init cleaned).map (fun t => (t.main, t.world.signals)) =
      some (.restored, [⟨11, 9, ⟨2, 11, 9, false⟩⟩]) := by decide +kernel
  obtain ⟨t, ht, heq⟩ := Option.map_eq_some_iff.mp hrun
  obtain ⟨hmain, hsignals⟩ := Prod.mk.inj heq
  refine ⟨t, ht, ⟨_, hsignals ▸ List.mem_singleton_self _, rfl⟩, ?_⟩
  exact (owned_safe cleaned ht).2.2.1 hmain

end Owned

end DeltaBox
