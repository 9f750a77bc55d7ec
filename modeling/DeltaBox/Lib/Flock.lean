import DeltaBox.Lib.Dict
import DeltaBox.Lib.Machine
import Mathlib.Logic.Function.Basic

/-!
# Locks on files, taken one after the other

A user takes locks on several files in a fixed order, by opening each file and locking it, and
closes all of them when it leaves. Anything may go wrong while it takes them, and then it closes the
ones it has. A lock is exclusive or shared: two locks on one file exclude each other unless both are
shared.

A user may turn its last lock into a shared one while it is inside. This is done in one step, or the
lock is given up first and then taken anew: the manual of `flock` does not say which of the two.

## What is given

What a user locks is a `plan`, which depends on what it is called with. It is none when the call is
refused at once.

## Main definitions

* `Descriptor` — an open file with its lock
* `move`, `step` — what a user does
* `Exclusive`, `Sound` — the invariants

## Main results

* `exec_inv` — the invariants hold in every run
* `idle_empty` — a user that is not in a call has no open file
* `inside_holds`, `inside_front` — what is locked by a user that is inside
* `Exclusive.both_shared` — two locks on one file are shared
* `leaving_leaves` — a user that leaves can always go on to its end
-/

namespace DeltaBox

namespace Flock

/-- A kind of lock. -/
inductive Mode where
  | shared
  | exclusive
  deriving DecidableEq

/-- A file that is to be locked. -/
structure Request (F : Type*) where
  file : F
  mode : Mode
  deriving DecidableEq

/-- An open file with its lock, if it has one. -/
structure Descriptor (F : Type*) where
  file : F
  lock : Option Mode
  deriving DecidableEq

/-- Where a user is in its call. -/
inductive Phase (F : Type*) where
  /-- It has these locks to take. -/
  | taking (todo : List (Request F))
  /-- It has opened a file and waits for the lock. -/
  | locking (fd : ℕ) (r : Request F) (todo : List (Request F))
  | inside
  /-- It waits for its last lock to become a shared one. -/
  | converting
  /-- It closes what it has. -/
  | leaving
  deriving DecidableEq

/-- A call of a user. The files that it has to close are on its stack. -/
structure Call (F κ : Type*) where
  what : κ
  stack : List (ℕ × Request F)
  phase : Phase F
  converted : Bool

/-- What a user does. -/
inductive Act (κ : Type*) where
  | call (what : κ)
  | openFile (fd : ℕ)
  | lock
  /-- Something goes wrong. -/
  | raise
  | enter
  /-- It asks for its last lock to be shared. Is this done in one step? -/
  | convert (atomic : Bool)
  | retake
  | exit
  | close
  | leave
  /-- The kernel closes everything. -/
  | kill
  deriving DecidableEq

variable {P F κ : Type*} [DecidableEq P]

/-- Does a descriptor allow a lock on a file beside its own? -/
def Descriptor.allows [DecidableEq F] (d : Descriptor F) (f : F) (m : Mode) : Bool :=
  match d.lock with
  | none => true
  | some m' => d.file ≠ f || (m = .shared && m' = .shared)

/-- The descriptors of all users. -/
abbrev Table (P F : Type*) := Dict (P × ℕ) (Descriptor F)

/-- Do the other descriptors allow a lock? -/
def granted [DecidableEq F] (t : Table P F) (k : P × ℕ) (f : F) (m : Mode) : Bool :=
  t.entries.all fun e => e.1 = k || e.2.allows f m

variable (plan : κ → Option (List (Request F))) (gated : κ → Bool)

/-- One step of a user. `gated` says whether its call lets it convert the last lock. -/
def move [DecidableEq F] (t : Table P F) (p : P) :
    Option (Call F κ) → Act κ → Option (Table P F × Option (Call F κ))
  | none, .call k =>
    match plan k with
    | none => some (t, none)
    | some todo => some (t, some ⟨k, [], .taking todo, false⟩)
  | some ⟨k, stack, .taking (r :: todo), b⟩, .openFile fd =>
    if t.find? (p, fd) = none then
      some (t.set (p, fd) ⟨r.file, none⟩, some ⟨k, stack, .locking fd r todo, b⟩)
    else none
  | some ⟨k, stack, .locking fd r todo, b⟩, .lock =>
    if granted t (p, fd) r.file r.mode then
      some (t.set (p, fd) ⟨r.file, some r.mode⟩, some ⟨k, (fd, r) :: stack, .taking todo, b⟩)
    else none
  | some ⟨k, stack, .taking _, b⟩, .raise => some (t, some ⟨k, stack, .leaving, b⟩)
  | some ⟨k, stack, .locking fd _ _, b⟩, .raise =>
    some (t.erase (p, fd), some ⟨k, stack, .leaving, b⟩)
  | some ⟨k, stack, .taking [], b⟩, .enter => some (t, some ⟨k, stack, .inside, b⟩)
  | some ⟨k, (fd, r) :: stack, .inside, _⟩, .convert atomic =>
    if gated k then
      match (t.find? (p, fd)).bind Descriptor.lock with
      | none => none
      | some .shared => some (t, some ⟨k, (fd, r) :: stack, .inside, true⟩)
      | some .exclusive =>
        if atomic then
          some (t.set (p, fd) ⟨r.file, some .shared⟩, some ⟨k, (fd, r) :: stack, .inside, true⟩)
        else some (t.set (p, fd) ⟨r.file, none⟩, some ⟨k, (fd, r) :: stack, .converting, true⟩)
    else none
  | some ⟨k, (fd, r) :: stack, .converting, b⟩, .retake =>
    if granted t (p, fd) r.file .shared then
      some (t.set (p, fd) ⟨r.file, some .shared⟩, some ⟨k, (fd, r) :: stack, .inside, b⟩)
    else none
  | some ⟨k, stack, .inside, b⟩, .exit => some (t, some ⟨k, stack, .leaving, b⟩)
  | some ⟨k, stack, .converting, b⟩, .exit => some (t, some ⟨k, stack, .leaving, b⟩)
  | some ⟨k, (fd, _) :: stack, .leaving, b⟩, .close =>
    some (t.erase (p, fd), some ⟨k, stack, .leaving, b⟩)
  | some ⟨_, [], .leaving, _⟩, .leave => some (t, none)
  | some _, .kill => some (t.keep fun k => k.1 ≠ p, none)
  | _, _ => none

/-- All users. -/
structure State (P F κ : Type*) where
  table : Table P F
  calls : P → Option (Call F κ)

/-- Nobody is in a call. -/
def State.init : State P F κ := ⟨.empty, fun _ => none⟩

/-- Some user does one step. -/
def step [DecidableEq F] (s : State P F κ) (l : P × Act κ) : Option (State P F κ) :=
  (move plan gated s.table l.1 (s.calls l.1) l.2).map fun r =>
    ⟨r.1, Function.update s.calls l.1 r.2⟩

/-! ### Exclusion -/

/-- Two locks on one file are shared. -/
def Exclusive (t : Table P F) : Prop :=
  ∀ k k' d d' m m', k ≠ k' → t.find? k = some d → t.find? k' = some d' → d.file = d'.file →
    d.lock = some m → d'.lock = some m' → m = .shared ∧ m' = .shared

variable {t t' : Table P F} {k : P × ℕ} {f : F} {m : Mode} {p q : P}

theorem granted_iff [DecidableEq F] : granted t k f m = true ↔
    ∀ k' d m', t.find? k' = some d → k' ≠ k → d.file = f → d.lock = some m' →
      m = .shared ∧ m' = .shared := by
  rw [granted, List.all_eq_true]
  constructor
  · intro h k' d m' hfind hne hfile hlock
    have hentry := h _ (Dict.find?_eq_some_iff.mp hfind)
    simpa [Descriptor.allows, hne, hlock, hfile] using hentry
  · rintro h ⟨k', d⟩ hmem
    have hfind := Dict.find?_eq_some_iff.mpr hmem
    by_cases hne : k' = k
    · simp [hne]
    · cases hlock : d.lock with
      | none => simp [Descriptor.allows, hlock]
      | some m' =>
        by_cases hfile : d.file = f
        · simp [Descriptor.allows, hlock, h k' d m' hfind hne hfile hlock]
        · simp [Descriptor.allows, hlock, hfile]

/-- With fewer descriptors. -/
theorem Exclusive.sub (h : Exclusive t) (hsub : ∀ k d, t'.find? k = some d → t.find? k = some d) :
    Exclusive t' :=
  fun k k' d d' m m' hne hk hk' => h k k' d d' m m' hne (hsub k d hk) (hsub k' d' hk')

/-- A descriptor without a lock. -/
theorem Exclusive.set_none (h : Exclusive t) (k : P × ℕ) (f : F) :
    Exclusive (t.set k ⟨f, none⟩) := by
  intro k₁ k₂ d d' m m' hne hk₁ hk₂ hfile hm hm'
  rw [Dict.find?_set] at hk₁ hk₂
  by_cases h₁ : k₁ = k
  · rw [if_pos h₁] at hk₁
    obtain rfl := Option.some.inj hk₁
    cases hm
  · by_cases h₂ : k₂ = k
    · rw [if_pos h₂] at hk₂
      obtain rfl := Option.some.inj hk₂
      cases hm'
    · rw [if_neg h₁] at hk₁
      rw [if_neg h₂] at hk₂
      exact h k₁ k₂ d d' m m' hne hk₁ hk₂ hfile hm hm'

/-- A lock that is granted. -/
theorem Exclusive.set_granted [DecidableEq F] (h : Exclusive t)
    (hg : granted t k f m = true) : Exclusive (t.set k ⟨f, some m⟩) := by
  rw [granted_iff] at hg
  intro k₁ k₂ d d' m₁ m₂ hne hk₁ hk₂ hfile hm₁ hm₂
  rw [Dict.find?_set] at hk₁ hk₂
  by_cases h₁ : k₁ = k
  · have h₂ : k₂ ≠ k := fun heq => hne (h₁.trans heq.symm)
    rw [if_pos h₁] at hk₁
    rw [if_neg h₂] at hk₂
    obtain rfl := Option.some.inj hk₁
    obtain rfl := Option.some.inj hm₁
    exact hg k₂ d' m₂ hk₂ h₂ hfile.symm hm₂
  · rw [if_neg h₁] at hk₁
    by_cases h₂ : k₂ = k
    · rw [if_pos h₂] at hk₂
      obtain rfl := Option.some.inj hk₂
      obtain rfl := Option.some.inj hm₂
      exact (hg k₁ d m₁ hk₁ h₁ hfile hm₁).symm
    · rw [if_neg h₂] at hk₂
      exact h k₁ k₂ d d' m₁ m₂ hne hk₁ hk₂ hfile hm₁ hm₂

/-- Whoever has an exclusive lock may have any. -/
theorem Exclusive.granted_self [DecidableEq F] (h : Exclusive t)
    (hk : t.find? k = some ⟨f, some .exclusive⟩) (m : Mode) : granted t k f m = true := by
  rw [granted_iff]
  intro k' d m' hk' hne hfile hlock
  have hboth := h k k' _ d .exclusive m' hne.symm hk hk' hfile.symm rfl hlock
  cases hboth.1

/-- **Two locks on one file are shared.** -/
theorem Exclusive.both_shared (h : Exclusive t) (hpq : p ≠ q) {fd fd' : ℕ} {r r' : Request F}
    (hp : t.find? (p, fd) = some ⟨r.file, some r.mode⟩)
    (hq : t.find? (q, fd') = some ⟨r'.file, some r'.mode⟩) (hfile : r.file = r'.file) :
    r.mode = .shared ∧ r'.mode = .shared :=
  h _ _ _ _ _ _ (fun heq => hpq (Prod.mk.inj heq).1) hp hq hfile rfl rfl

/-! ### What a user has -/

/-- All of these files have their locks. -/
def Full (t : Table P F) (p : P) (stack : List (ℕ × Request F)) : Prop :=
  ∀ e ∈ stack, t.find? (p, e.1) = some ⟨e.2.file, some e.2.mode⟩

/-- All files but the last one have their locks, and this one has another. -/
def Gate (t : Table P F) (p : P) (c : Call F κ) (lock : Option Mode) : Prop :=
  gated c.what = true ∧ ∃ e rest, c.stack = e :: rest ∧ Full t p rest ∧
    t.find? (p, e.1) = some ⟨e.2.file, lock⟩

/-- The requests that a call has been through. -/
def Call.past (c : Call F κ) : List (Request F) := c.stack.reverse.map Prod.snd

/-- What is locked, by where the user is. -/
def Held (t : Table P F) (p : P) (c : Call F κ) : Prop :=
  match c.phase with
  | .taking todo => c.converted = false ∧ plan c.what = some (c.past ++ todo) ∧ Full t p c.stack
  | .locking fd r todo =>
    c.converted = false ∧ plan c.what = some (c.past ++ r :: todo) ∧ Full t p c.stack ∧
      fd ∉ c.stack.map Prod.fst
  | .inside =>
    plan c.what = some c.past ∧ (c.converted = false → Full t p c.stack) ∧
      (c.converted = true → Gate gated t p c (some .shared))
  | .converting =>
    plan c.what = some c.past ∧ c.converted = true ∧ Gate gated t p c none
  | .leaving => True

/-- The descriptors of a call. -/
structure Sound (t : Table P F) (p : P) (c : Call F κ) : Prop where
  nodup : (c.stack.map Prod.fst).Nodup
  keys : ∀ fd d, t.find? (p, fd) = some d →
    fd ∈ c.stack.map Prod.fst ∨ ∃ r todo, c.phase = .locking fd r todo
  held : Held plan gated t p c

/-- The descriptors of a user. -/
def Own (t : Table P F) (p : P) : Option (Call F κ) → Prop
  | none => ∀ fd, t.find? (p, fd) = none
  | some c => Sound plan gated t p c

/-- The invariants. -/
structure Inv (s : State P F κ) : Prop where
  exclusive : Exclusive s.table
  own : ∀ p, Own plan gated s.table p (s.calls p)

variable {plan gated} {stack : List (ℕ × Request F)} {c : Call F κ} {s s' : State P F κ}

theorem Full.congr (h : Full t p stack) (ht : ∀ e ∈ stack, t'.find? (p, e.1) = t.find? (p, e.1)) :
    Full t' p stack :=
  fun e he => (ht e he).trans (h e he)

/-- The files on the stack are not touched by a change at another one. -/
theorem Full.set (h : Full t p stack) {fd : ℕ} (hfd : fd ∉ stack.map Prod.fst) (d : Descriptor F) :
    Full (t.set (p, fd) d) p stack := by
  refine h.congr fun e he => Dict.find?_set_of_ne t d fun heq => hfd ?_
  rw [← (Prod.mk.inj heq).2]
  exact List.mem_map_of_mem he

/-- Only the descriptors of a user matter to it. -/
theorem Own.congr {c : Option (Call F κ)} (h : Own plan gated t q c)
    (ht : ∀ fd, t'.find? (q, fd) = t.find? (q, fd)) : Own plan gated t' q c := by
  cases c with
  | none => exact fun fd => (ht fd).trans (h fd)
  | some c =>
    refine ⟨h.nodup, fun fd d hfd => h.keys fd d ((ht fd).symm.trans hfd), ?_⟩
    have hfull : ∀ l, Full t q l → Full t' q l := fun l hl => hl.congr fun e _ => ht e.1
    have hgate : ∀ lock, Gate gated t q c lock → Gate gated t' q c lock := by
      rintro lock ⟨hg, e, rest, hstack, hrest, he⟩
      exact ⟨hg, e, rest, hstack, hfull rest hrest, (ht e.1).trans he⟩
    have hheld := h.held
    unfold Held at hheld ⊢
    cases hphase : c.phase with
    | taking todo =>
      rw [hphase] at hheld
      exact ⟨hheld.1, hheld.2.1, hfull _ hheld.2.2⟩
    | locking fd r todo =>
      rw [hphase] at hheld
      exact ⟨hheld.1, hheld.2.1, hfull _ hheld.2.2.1, hheld.2.2.2⟩
    | inside =>
      rw [hphase] at hheld
      exact ⟨hheld.1, fun hc => hfull _ (hheld.2.1 hc), fun hc => hgate _ (hheld.2.2 hc)⟩
    | converting =>
      rw [hphase] at hheld
      exact ⟨hheld.1, hheld.2.1, hgate _ hheld.2.2⟩
    | leaving => trivial

/-- A new descriptor is known to its user. -/
theorem keys_set {fd : ℕ} {d : Descriptor F} {K : ℕ → Prop}
    (h : ∀ fd' d', t.find? (p, fd') = some d' → K fd') (hfd : K fd) :
    ∀ fd' d', (t.set (p, fd) d).find? (p, fd') = some d' → K fd' := by
  intro fd' d' hfind
  by_cases heq : fd' = fd
  · exact heq ▸ hfd
  · rw [Dict.find?_set_of_ne t d fun hk => heq (Prod.mk.inj hk).2] at hfind
    exact h fd' d' hfind

/-- A descriptor that is closed is gone. -/
theorem keys_erase {fd : ℕ} {K : ℕ → Prop}
    (h : ∀ fd' d', t.find? (p, fd') = some d' → fd' = fd ∨ K fd') :
    ∀ fd' d', (t.erase (p, fd)).find? (p, fd') = some d' → K fd' := by
  intro fd' d' hfind
  rw [Dict.find?_erase] at hfind
  split_ifs at hfind with heq
  exact (h fd' d' hfind).resolve_left fun hfd => heq (by rw [hfd])

/-- **What a step changes.** The descriptors of the other users stay, and the invariants hold. -/
theorem move_spec [DecidableEq F] {c c' : Option (Call F κ)} {a : Act κ} (hex : Exclusive t)
    (hown : Own plan gated t p c) (h : move plan gated t p c a = some (t', c')) :
    (∀ q, q ≠ p → ∀ fd, t'.find? (q, fd) = t.find? (q, fd)) ∧ Exclusive t' ∧
      Own plan gated t' p c' := by
  have hset : ∀ (fd : ℕ) (d : Descriptor F), ∀ q, q ≠ p → ∀ fd',
      (t.set (p, fd) d).find? (q, fd') = t.find? (q, fd') := fun fd d q hq fd' =>
    Dict.find?_set_of_ne t d fun heq => hq (Prod.mk.inj heq).1
  have herase : ∀ (fd : ℕ), ∀ q, q ≠ p → ∀ fd',
      (t.erase (p, fd)).find? (q, fd') = t.find? (q, fd') := fun fd q hq fd' =>
    Dict.find?_erase_of_ne t fun heq => hq (Prod.mk.inj heq).1
  have hesub : ∀ (fd : ℕ) k d, (t.erase (p, fd)).find? k = some d → t.find? k = some d := by
    intro fd k d hk
    rw [Dict.find?_erase] at hk
    split_ifs at hk
    exact hk
  unfold move at h
  split at h
  · -- a call
    rename_i k
    cases hplan : plan k with
    | none =>
      rw [hplan] at h
      obtain ⟨rfl, rfl⟩ := Prod.mk.inj (Option.some.inj h)
      exact ⟨fun _ _ _ => rfl, hex, hown⟩
    | some todo =>
      rw [hplan] at h
      obtain ⟨rfl, rfl⟩ := Prod.mk.inj (Option.some.inj h)
      refine ⟨fun _ _ _ => rfl, hex, List.nodup_nil, fun fd d hfd => ?_, rfl, hplan, ?_⟩
      · rw [hown fd] at hfd
        cases hfd
      · intro e he
        cases he
  · -- a file is opened
    rename_i k stack r todo b fd
    obtain ⟨hnone, h⟩ := Option.ite_none_right_eq_some.mp h
    obtain ⟨rfl, rfl⟩ := Prod.mk.inj (Option.some.inj h)
    obtain ⟨hb, hplan, hfull⟩ := hown.held
    have hfd : fd ∉ stack.map Prod.fst := by
      intro hmem
      obtain ⟨e, he, rfl⟩ := List.mem_map.mp hmem
      rw [hfull e he] at hnone
      cases hnone
    refine ⟨hset fd _, hex.set_none _ _, hown.nodup, ?_, hb, hplan, hfull.set hfd _, hfd⟩
    refine keys_set (fun fd' d' hfd' => .inl ?_) (.inr ⟨r, todo, rfl⟩)
    rcases hown.keys fd' d' hfd' with hmem | ⟨_, _, hphase⟩
    · exact hmem
    · cases hphase
  · -- it is locked
    rename_i k stack fd r todo b
    obtain ⟨hg, h⟩ := Option.ite_none_right_eq_some.mp h
    obtain ⟨rfl, rfl⟩ := Prod.mk.inj (Option.some.inj h)
    obtain ⟨hb, hplan, hfull, hfd⟩ := hown.held
    refine ⟨hset fd _, hex.set_granted hg, ?_, ?_, hb, ?_, ?_⟩
    · exact List.nodup_cons.mpr ⟨hfd, hown.nodup⟩
    · refine keys_set (fun fd' d' hfd' => .inl ?_) (.inl List.mem_cons_self)
      rcases hown.keys fd' d' hfd' with hmem | ⟨r', todo', hphase⟩
      · exact List.mem_cons_of_mem _ hmem
      · cases hphase
        exact List.mem_cons_self
    · rw [hplan]
      simp [Call.past]
    · intro e he
      rcases List.mem_cons.mp he with rfl | he
      · exact Dict.find?_set_self ..
      · exact hfull.set hfd _ e he
  · -- something goes wrong before a file is opened
    obtain ⟨rfl, rfl⟩ := Prod.mk.inj (Option.some.inj h)
    refine ⟨fun _ _ _ => rfl, hex, hown.nodup, fun fd d hfd => .inl ?_, trivial⟩
    rcases hown.keys fd d hfd with hmem | ⟨_, _, hphase⟩
    · exact hmem
    · cases hphase
  · -- and after that
    rename_i k stack fd r todo b
    obtain ⟨rfl, rfl⟩ := Prod.mk.inj (Option.some.inj h)
    refine ⟨herase fd, hex.sub (hesub fd), hown.nodup, keys_erase fun fd' d' hfd' => ?_, trivial⟩
    rcases hown.keys fd' d' hfd' with hmem | ⟨_, _, hphase⟩
    · exact .inr (.inl hmem)
    · cases hphase
      exact .inl rfl
  · -- all is locked
    rename_i k stack b
    obtain ⟨rfl, rfl⟩ := Prod.mk.inj (Option.some.inj h)
    obtain ⟨hb, hplan, hfull⟩ := hown.held
    refine ⟨fun _ _ _ => rfl, hex, hown.nodup, fun fd d hfd => .inl ?_, ?_, fun _ => hfull,
      fun hb' => ?_⟩
    · rcases hown.keys fd d hfd with hmem | ⟨_, _, hphase⟩
      · exact hmem
      · cases hphase
    · rw [hplan, List.append_nil]
      rfl
    · cases hb.symm.trans hb'
  · -- the last lock is to be shared
    rename_i k fd r stack b atomic
    obtain ⟨hgated, h⟩ := Option.ite_none_right_eq_some.mp h
    obtain ⟨hplan, hfalse, htrue⟩ := hown.held
    obtain ⟨hfd, hnodup⟩ := List.nodup_cons.mp hown.nodup
    have hrest : Full t p stack := by
      cases b with
      | false => exact fun e he => hfalse rfl e (List.mem_cons_of_mem _ he)
      | true =>
        obtain ⟨-, e, rest, hstack, hrest, -⟩ := htrue rfl
        exact (List.cons.inj hstack).2 ▸ hrest
    have hfile : ∃ lock, t.find? (p, fd) = some ⟨r.file, lock⟩ := by
      cases b with
      | false => exact ⟨_, hfalse rfl (fd, r) List.mem_cons_self⟩
      | true =>
        obtain ⟨-, e, rest, hstack, -, he⟩ := htrue rfl
        exact ⟨_, (List.cons.inj hstack).1 ▸ he⟩
    have hkeys : ∀ fd' d', t.find? (p, fd') = some d' →
        fd' ∈ ((fd, r) :: stack).map Prod.fst := by
      intro fd' d' hfd'
      rcases hown.keys fd' d' hfd' with hmem | ⟨_, _, hphase⟩
      · exact hmem
      · cases hphase
    obtain ⟨lock, hlock⟩ := hfile
    rw [hlock, Option.bind_some] at h
    dsimp only at h
    cases lock with
    | none => cases h
    | some m =>
      cases m with
      | shared =>
        obtain ⟨rfl, rfl⟩ := Prod.mk.inj (Option.some.inj h)
        refine ⟨fun _ _ _ => rfl, hex, hown.nodup, fun fd' d' hfd' => .inl (hkeys fd' d' hfd'),
          hplan, fun hb => (by cases hb), fun _ => ⟨hgated, (fd, r), stack, rfl, hrest, hlock⟩⟩
      | exclusive =>
        cases atomic with
        | true =>
          obtain ⟨rfl, rfl⟩ := Prod.mk.inj (Option.some.inj h)
          refine ⟨hset fd _, hex.set_granted (hex.granted_self hlock .shared), hown.nodup,
            keys_set (fun fd' d' hfd' => .inl (hkeys fd' d' hfd')) (.inl List.mem_cons_self), hplan,
            fun hb => (by cases hb), fun _ => ⟨hgated, (fd, r), stack, rfl, hrest.set hfd _, ?_⟩⟩
          exact Dict.find?_set_self ..
        | false =>
          obtain ⟨rfl, rfl⟩ := Prod.mk.inj (Option.some.inj h)
          refine ⟨hset fd _, hex.set_none _ _, hown.nodup,
            keys_set (fun fd' d' hfd' => .inl (hkeys fd' d' hfd')) (.inl List.mem_cons_self), hplan,
            rfl, hgated, (fd, r), stack, rfl, hrest.set hfd _, ?_⟩
          exact Dict.find?_set_self ..
  · -- and it is shared
    rename_i k fd r stack b
    obtain ⟨hg, h⟩ := Option.ite_none_right_eq_some.mp h
    obtain ⟨rfl, rfl⟩ := Prod.mk.inj (Option.some.inj h)
    obtain ⟨hplan, hb, hgated, e, rest, hstack, hrest, -⟩ := hown.held
    obtain ⟨rfl, rfl⟩ := List.cons.inj hstack
    obtain ⟨hfd, -⟩ := List.nodup_cons.mp hown.nodup
    refine ⟨hset fd _, hex.set_granted hg, hown.nodup, ?_, hplan, fun hb' => ?_,
      fun _ => ⟨hgated, (fd, r), stack, rfl, hrest.set hfd _, ?_⟩⟩
    · refine keys_set (fun fd' d' hfd' => .inl ?_) (.inl List.mem_cons_self)
      rcases hown.keys fd' d' hfd' with hmem | ⟨_, _, hphase⟩
      · exact hmem
      · cases hphase
    · cases hb.symm.trans hb'
    · exact Dict.find?_set_self ..
  · -- the user leaves
    obtain ⟨rfl, rfl⟩ := Prod.mk.inj (Option.some.inj h)
    refine ⟨fun _ _ _ => rfl, hex, hown.nodup, fun fd d hfd => .inl ?_, trivial⟩
    rcases hown.keys fd d hfd with hmem | ⟨_, _, hphase⟩
    · exact hmem
    · cases hphase
  · obtain ⟨rfl, rfl⟩ := Prod.mk.inj (Option.some.inj h)
    refine ⟨fun _ _ _ => rfl, hex, hown.nodup, fun fd d hfd => .inl ?_, trivial⟩
    rcases hown.keys fd d hfd with hmem | ⟨_, _, hphase⟩
    · exact hmem
    · cases hphase
  · -- a file is closed
    rename_i k fd r stack b
    obtain ⟨rfl, rfl⟩ := Prod.mk.inj (Option.some.inj h)
    refine ⟨herase fd, hex.sub (hesub fd), (List.nodup_cons.mp hown.nodup).2,
      keys_erase fun fd' d' hfd' => ?_, trivial⟩
    rcases hown.keys fd' d' hfd' with hmem | ⟨_, _, hphase⟩
    · exact (List.mem_cons.mp hmem).imp id .inl
    · cases hphase
  · -- all files are closed
    obtain ⟨rfl, rfl⟩ := Prod.mk.inj (Option.some.inj h)
    refine ⟨fun _ _ _ => rfl, hex, fun fd => ?_⟩
    cases hfind : t.find? (p, fd) with
    | none => rfl
    | some d =>
      rcases hown.keys fd d hfind with hmem | ⟨_, _, hphase⟩
      · cases hmem
      · cases hphase
  · -- the user is killed
    obtain ⟨rfl, rfl⟩ := Prod.mk.inj (Option.some.inj h)
    refine ⟨fun q hq fd => ?_, hex.sub fun k d hk => ?_, fun fd => ?_⟩
    · rw [Dict.find?_keep]
      simp [hq]
    · rw [Dict.find?_keep] at hk
      split_ifs at hk
      exact hk
    · rw [Dict.find?_keep]
      simp
  · cases h

/-! ### Runs -/

theorem inv_init : Inv plan gated (State.init : State P F κ) where
  exclusive := by
    intro k k' d d' m m' hne hk
    cases hk
  own := fun p fd => rfl

theorem step_inv [DecidableEq F] {l : P × Act κ} (hi : Inv plan gated s)
    (h : step plan gated s l = some s') : Inv plan gated s' := by
  obtain ⟨⟨t', c'⟩, hmove, rfl⟩ := Option.map_eq_some_iff.mp h
  obtain ⟨hother, hex, hown⟩ := move_spec hi.exclusive (hi.own l.1) hmove
  refine ⟨hex, fun q => ?_⟩
  dsimp only
  by_cases hq : q = l.1
  · rw [hq, Function.update_self]
    exact hown
  · rw [Function.update_of_ne hq]
    exact (hi.own q).congr (hother q hq)

/-- **The invariants hold in every run.** -/
theorem exec_inv [DecidableEq F] {ls : List (P × Act κ)}
    (h : Machine.exec (step plan gated) State.init ls = some s) : Inv plan gated s :=
  Machine.invariant step_inv inv_init h

/-- Nothing is open when there is no call. -/
theorem idle_empty (hi : Inv plan gated s) (h : s.calls p = none) (fd : ℕ) :
    s.table.find? (p, fd) = none := by
  have hown := hi.own p
  rw [h] at hown
  exact hown fd

/-- **A user that is inside** has all its locks, as long as it has not converted the last one. -/
theorem inside_holds (hi : Inv plan gated s) (h : s.calls p = some c) (hphase : c.phase = .inside)
    (hconv : c.converted = false) {rs : List (Request F)} (hplan : plan c.what = some rs)
    {r : Request F} (hr : r ∈ rs) :
    ∃ fd, s.table.find? (p, fd) = some ⟨r.file, some r.mode⟩ := by
  have hown := hi.own p
  rw [h] at hown
  have hheld := hown.held
  unfold Held at hheld
  rw [hphase] at hheld
  obtain rfl := Option.some.inj (hplan.symm.trans hheld.1)
  obtain ⟨e, he, rfl⟩ := List.mem_map.mp hr
  exact ⟨e.1, hheld.2.1 hconv e (List.mem_reverse.mp he)⟩

/-- And it keeps all but the last one in any case. -/
theorem inside_front (hi : Inv plan gated s) (h : s.calls p = some c)
    (hphase : c.phase = .inside ∨ c.phase = .converting) {rs : List (Request F)} {last : Request F}
    (hplan : plan c.what = some (rs ++ [last])) {r : Request F} (hr : r ∈ rs) :
    ∃ fd, s.table.find? (p, fd) = some ⟨r.file, some r.mode⟩ := by
  have hown := hi.own p
  rw [h] at hown
  have hheld := hown.held
  unfold Held at hheld
  have hgate : ∀ lock, plan c.what = some c.past → Gate gated s.table p c lock →
      ∃ fd, s.table.find? (p, fd) = some ⟨r.file, some r.mode⟩ := by
    rintro lock hpast ⟨-, e, rest, hstack, hrest, -⟩
    have hrs := Option.some.inj (hplan.symm.trans hpast)
    rw [Call.past, hstack, List.reverse_cons, List.map_append] at hrs
    obtain ⟨rfl, -⟩ := List.append_inj' hrs rfl
    obtain ⟨e', he', rfl⟩ := List.mem_map.mp hr
    exact ⟨e'.1, hrest e' (List.mem_reverse.mp he')⟩
  rcases hphase with hphase | hphase
  · rw [hphase] at hheld
    cases hconv : c.converted with
    | false => exact inside_holds hi h hphase hconv hplan (List.mem_append_left _ hr)
    | true => exact hgate _ hheld.1 (hheld.2.2 hconv)
  · rw [hphase] at hheld
    exact hgate _ hheld.1 hheld.2.2

/-- Its last file has some lock, unless it waits for it. -/
theorem inside_last (hi : Inv plan gated s) (h : s.calls p = some c) (hphase : c.phase = .inside)
    {rs : List (Request F)} {last : Request F} (hplan : plan c.what = some (rs ++ [last])) :
    ∃ fd m, s.table.find? (p, fd) = some ⟨last.file, some m⟩ := by
  cases hconv : c.converted with
  | false =>
    obtain ⟨fd, hfd⟩ := inside_holds hi h hphase hconv hplan
      (List.mem_append_right _ List.mem_cons_self)
    exact ⟨fd, last.mode, hfd⟩
  | true =>
    have hown := hi.own p
    rw [h] at hown
    have hheld := hown.held
    unfold Held at hheld
    rw [hphase] at hheld
    obtain ⟨-, e, rest, hstack, -, he⟩ := hheld.2.2 hconv
    have hrs := Option.some.inj (hplan.symm.trans hheld.1)
    rw [Call.past, hstack, List.reverse_cons, List.map_append] at hrs
    obtain ⟨-, hlast⟩ := List.append_inj' hrs rfl
    obtain rfl : last = e.2 := (List.cons.inj hlast).1
    exact ⟨e.1, .shared, he⟩

/-- A call without a gate has all its locks as long as it is inside. -/
theorem inside_ungated (hi : Inv plan gated s) (h : s.calls p = some c)
    (hphase : c.phase = .inside ∨ c.phase = .converting) (hgated : gated c.what = false)
    {rs : List (Request F)} (hplan : plan c.what = some rs) {r : Request F} (hr : r ∈ rs) :
    ∃ fd, s.table.find? (p, fd) = some ⟨r.file, some r.mode⟩ := by
  have hown := hi.own p
  rw [h] at hown
  have hheld := hown.held
  unfold Held at hheld
  rcases hphase with hphase | hphase
  · rw [hphase] at hheld
    cases hconv : c.converted with
    | false => exact inside_holds hi h hphase hconv hplan hr
    | true => cases hgated.symm.trans (hheld.2.2 hconv).1
  · rw [hphase] at hheld
    cases hgated.symm.trans hheld.2.2.1

/-- Nobody waits to convert a lock if every conversion is done in one step. -/
theorem not_converting [DecidableEq F] {ls : List (P × Act κ)}
    (hatomic : ∀ p, (p, Act.convert false) ∉ ls)
    (h : Machine.exec (step plan gated) State.init ls = some s) (hp : s.calls p = some c) :
    c.phase ≠ .converting := by
  have halong : ∀ (ls : List (P × Act κ)) (s : State P F κ), (∀ p, (p, Act.convert false) ∉ ls) →
      Machine.Along (step plan gated) (fun _ l => l.2 ≠ .convert false) s ls := by
    intro ls
    induction ls with
    | nil => exact fun _ _ => trivial
    | cons l ls ih =>
      refine fun s hls => ⟨fun heq => hls l.1 ?_, fun t _ => ih t fun p hp => ?_⟩
      · rw [← heq]
        exact List.mem_cons_self
      · exact hls p (List.mem_cons_of_mem _ hp)
  have hinv := Machine.invariant_along
    (I := fun s => ∀ p c, s.calls p = some c → c.phase ≠ .converting) (t := s) ?_
    (fun p c hpc => (by cases hpc)) (halong ls State.init hatomic) h
  · exact hinv p c hp
  · intro s l s' hs hl hstep q c hq
    obtain ⟨⟨t', c'⟩, hmove, rfl⟩ := Option.map_eq_some_iff.mp hstep
    dsimp only at hq
    by_cases heq : q = l.1
    · rw [heq, Function.update_self] at hq
      subst hq
      unfold move at hmove
      split at hmove <;> grind
    · rw [Function.update_of_ne heq] at hq
      exact hs q c hq

/-- **A user that leaves comes to its end.** It closes what it has, and nobody can stop it. -/
theorem leaving_leaves [DecidableEq F] (h : s.calls p = some c) (hphase : c.phase = .leaving) :
    ∃ s', Machine.exec (step plan gated) s
        (c.stack.map (fun _ => (p, Act.close)) ++ [(p, .leave)]) = some s' ∧ s'.calls p = none := by
  obtain ⟨k, stack, phase, b⟩ := c
  obtain rfl : phase = .leaving := hphase
  dsimp only
  induction stack generalizing s with
  | nil =>
    refine ⟨⟨s.table, Function.update s.calls p none⟩, ?_, Function.update_self ..⟩
    rw [List.map_nil, List.nil_append, Machine.exec_cons]
    exact ⟨_, by rw [step, h]; rfl, rfl⟩
  | cons e stack ih =>
    obtain ⟨s', hs', hnone⟩ := ih (s := ⟨s.table.erase (p, e.1),
      Function.update s.calls p (some ⟨k, stack, .leaving, b⟩)⟩) (Function.update_self ..)
    refine ⟨s', ?_, hnone⟩
    rw [List.map_cons, List.cons_append, Machine.exec_cons]
    exact ⟨_, by rw [step, h]; rfl, hs'⟩

end Flock

end DeltaBox
