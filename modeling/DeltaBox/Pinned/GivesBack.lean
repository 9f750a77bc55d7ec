import DeltaBox.Pinned.Measurement
import Mathlib.Data.List.Nodup
import Mathlib.Order.Basic

/-!
# The frequency policy is given back

The three writes that apply a frequency begin with the maximum. It is rejected where the old minimum
is above the requested frequency, so that the frequency can be applied just when no policy has such
a minimum. `restore` lowers the minimum to the one of the hardware first, and none of its writes is
ever rejected.

The `finally` clause is safe from signals once it has ignored all three. A signal that arrives
before leaves the clause, and nothing is restored.

## Main definitions

* `Undo.At` — how far the restoration of a policy is
* `Core`, `At` — the invariant
* `Fine` — no signal in the first steps of the `finally` clause
* `GivesBack` — what holds of the policies and the locks

## Main results

* `frequency_given_back` — the exact condition for applying, and the restoration in every run
* `lower_frequency_rejected` — a frequency that cannot be applied, and a signal that comes too early
-/

namespace DeltaBox

namespace Pinned

open Machine

/-! ### The restoration of one policy -/

/-- How far the restoration of a policy is. -/
def Undo.At (l : Limits) (f old : Freq) : Undo → Prop
  | .widen => True
  | .writeMax => f.minFreq = l.cpuinfoMin
  | .writeMin => f.minFreq = l.cpuinfoMin ∧ f.maxFreq = old.maxFreq
  | .writeGovernor => f.minFreq = old.minFreq ∧ f.maxFreq = old.maxFreq
  | .readBack => f = old
  | .record => f = old

/-- The minimum is in its place. -/
def Sane (l : Limits) (f : Freq) : Prop := l.cpuinfoMin ≤ f.minFreq ∧ f.minFreq ≤ f.maxFreq

variable {h : Host} {s t : State} {p : ℕ} {old : Freq}

/-- Only one policy is touched. -/
structure Touches (p : ℕ) (s t : State) : Prop where
  hw : ∀ q, q ≠ p → t.hw q = s.hw q
  wrote : (t.wrote = s.wrote ∧ t.hw = s.hw) ∨ t.wrote = p :: s.wrote
  rest : t = { s with hw := t.hw, wrote := t.wrote }

theorem Touches.refl (p : ℕ) (s : State) : Touches p s s := ⟨fun _ _ => rfl, .inl ⟨rfl, rfl⟩, rfl⟩

theorem Touches.write (p : ℕ) (s : State) (f : Freq) : Touches p s (s.write p f) where
  hw := fun q hq => by simp [State.write, hq]
  wrote := .inr rfl
  rest := rfl

@[simp] theorem hw_write (p : ℕ) (s : State) (f : Freq) : (s.write p f).hw p = f := by
  simp [State.write]

/-- **No write of `restore` is rejected.** -/
theorem undo_eq_some {op : Undo} (hsane : Sane (h.limits p) (s.hw p))
    (hold : old.Valid (h.limits p)) (hat : op.At (h.limits p) (s.hw p) old) :
    ∃ s', s.undo h p old op = some s' ∧ Touches p s s' ∧ Sane (h.limits p) (s'.hw p) ∧
      (∀ op', op.next = some op' → op'.At (h.limits p) (s'.hw p) old) ∧
      (op.next = none → s'.hw p = old) := by
  have hmin := hold.lower
  have horder := hold.order
  cases op with
  | widen =>
    have hle : (h.limits p).cpuinfoMin ≤ (s.hw p).maxFreq :=
      Nat.le_trans hsane.1 hsane.2
    refine ⟨s.write p { s.hw p with minFreq := (h.limits p).cpuinfoMin },
      by simp [State.undo, Freq.writeMin, hle], .write .., ?_, ?_, nofun⟩
    · exact (hw_write ..).symm ▸ ⟨Nat.le_refl _, hle⟩
    · rintro op' ⟨⟩
      exact (hw_write ..).symm ▸ rfl
  | writeMax =>
    have hle : (s.hw p).minFreq ≤ old.maxFreq := hat ▸ Nat.le_trans hmin horder
    refine ⟨s.write p { s.hw p with maxFreq := old.maxFreq },
      by simp [State.undo, Freq.writeMax, hle], .write .., ?_, ?_, nofun⟩
    · exact (hw_write ..).symm ▸ ⟨hsane.1, hle⟩
    · rintro op' ⟨⟩
      exact (hw_write ..).symm ▸ ⟨hat, rfl⟩
  | writeMin =>
    have hle : old.minFreq ≤ (s.hw p).maxFreq := hat.2 ▸ horder
    refine ⟨s.write p { s.hw p with minFreq := old.minFreq },
      by simp [State.undo, Freq.writeMin, hle], .write .., ?_, ?_, nofun⟩
    · exact (hw_write ..).symm ▸ ⟨hmin, hle⟩
    · rintro op' ⟨⟩
      exact (hw_write ..).symm ▸ ⟨rfl, hat.2⟩
  | writeGovernor =>
    refine ⟨s.write p ((s.hw p).writeGovernor old.governor), rfl, .write .., ?_, ?_, nofun⟩
    · exact (hw_write ..).symm ▸ hsane
    · rintro op' ⟨⟩
      obtain ⟨hmin', hmax'⟩ := hat
      show (s.write p _).hw p = old
      rw [hw_write, Freq.writeGovernor, hmin', hmax']
  | readBack =>
    refine ⟨s, by simp only [State.undo, if_pos (show s.hw p = old from hat)], .refl .., hsane, ?_,
      nofun⟩
    rintro op' ⟨⟩
    exact hat
  | record => exact ⟨s, rfl, .refl .., hsane, nofun, fun _ => hat⟩

/-! ### The invariant -/

/-- The places of the operations in the loop. -/
def Op.rank : Op → ℕ
  | .lock => 0
  | .readOld => 1
  | .request => 2
  | .save => 3
  | .note => 4
  | .writeMax => 5
  | .writeMin => 6
  | .writeGovernor => 7
  | .readBack => 8

theorem Op.rank_next {op op' : Op} (hnext : op.next = some op') : op'.rank = op.rank + 1 := by
  cases op <;> cases hnext <;> rfl

/-- The old minimum is not above the requested frequency. -/
def Low (h : Host) (p : ℕ) : Prop :=
  ∀ khz, requestedFrequency (h.limits p) h.override = some khz → (h.original p).minFreq ≤ khz

/-- What holds of the policies at any time. -/
structure Core (h : Host) (s : State) : Prop where
  untouched : ∀ p ∉ s.wrote, s.hw p = h.original p
  noted : ∀ e ∈ s.changed, e.2 = h.original e.1
  nodup : (s.changed.map Prod.fst).Nodup
  wrote : ∀ p ∈ s.wrote, p ∈ s.changed.map Prod.fst
  sane : ∀ p, Sane (h.limits p) (s.hw p)

/-- What holds in the loop over the policies. -/
structure Applying (h : Host) (s : State) (op : Op) (p : ℕ) (todo : List ℕ) : Prop where
  node : none ∈ s.locks
  own : 1 ≤ op.rank → some p ∈ s.locks
  old : 2 ≤ op.rank → s.old = h.original p
  asked : 3 ≤ op.rank → requestedFrequency (h.limits p) h.override = some s.requested
  fresh : op.rank ≤ 4 → p ∉ s.changed.map Prod.fst
  noted : 5 ≤ op.rank → p ∈ s.changed.map Prod.fst
  unwritten : op.rank ≤ 5 → p ∉ s.wrote
  low : 6 ≤ op.rank → Low h p
  nodup : (p :: todo).Nodup
  later : ∀ q ∈ todo, q ∉ s.changed.map Prod.fst
  earlier : ∀ q ∈ h.policies, q ∈ p :: todo ∨ Low h q

/-- A policy is as it was, or there is an error for it. -/
def Done (h : Host) (s : State) (p : ℕ) : Prop := s.hw p = h.original p ∨ .policy p ∈ s.errors

/-- What holds in the loop that restores. -/
structure Restoring (h : Host) (s : State) (op : Undo) (p : ℕ) (old : Freq)
    (left : List (ℕ × Freq)) : Prop where
  progress : op.At (h.limits p) (s.hw p) old
  old : old = h.original p
  noted : p ∈ s.changed.map Prod.fst
  nodup : (p :: left.map Prod.fst).Nodup
  behind : ∀ e ∈ left, e ∈ s.changed
  done : ∀ e ∈ s.changed, e.1 = p ∨ e ∈ left ∨ Done h s e.1

/-- Every signal is ignored. -/
def Quiet (s : State) : Prop := ∀ sig, sig ∈ s.ignored

/-- The noted policies are locked. -/
def Locked (s : State) : Prop := ∀ p ∈ s.changed.map Prod.fst, none ∈ s.locks ∧ some p ∈ s.locks

/-- What holds where `main` is. -/
def At (h : Host) (s : State) : Pc → Prop
  | .acquiring => s.changed = []
  | .applying op p todo => Locked s ∧ Applying h s op p todo
  | .working => Locked s ∧ ∀ p ∈ h.policies, Low h p
  | .handling => Locked s
  | .ignoring left => Locked s ∧ ∀ sig, sig ∈ left ∨ sig ∈ s.ignored
  | .stopping left => Locked s ∧ Quiet s ∧ ∀ p, .policy p ∉ left
  | .restoring op p old left => Locked s ∧ Quiet s ∧ Restoring h s op p old left
  | .reporting => Locked s ∧ Quiet s ∧ ∀ e ∈ s.changed, Done h s e.1
  | .unlocking => Locked s ∧ Quiet s ∧ ∀ e ∈ s.changed, Done h s e.1
  | .ended returned => (∀ e ∈ s.changed, Done h s e.1) ∧ (s.errors ≠ [] → returned = false)

/-- The invariant. -/
structure Inv (h : Host) (s : State) : Prop where
  core : Core h s
  pc : At h s s.pc

/-- No signal arrives in the `finally` clause before it is ignored. -/
def Fine (s : State) : Label → Prop
  | .signal sig => ∀ left, s.pc = .ignoring left → sig ∈ s.ignored
  | .run _ => True

theorem Core.of_same (hcore : Core h s) (hhw : t.hw = s.hw) (hchanged : t.changed = s.changed)
    (hwrote : t.wrote = s.wrote) : Core h t where
  untouched := by rw [hwrote, hhw]; exact hcore.untouched
  noted := by rw [hchanged]; exact hcore.noted
  nodup := by rw [hchanged]; exact hcore.nodup
  wrote := by rw [hwrote, hchanged]; exact hcore.wrote
  sane := by rw [hhw]; exact hcore.sane

/-- A noted policy is touched. -/
theorem Core.touch (hcore : Core h s) (htouch : Touches p s t)
    (hnoted : p ∈ s.changed.map Prod.fst) (hsane : Sane (h.limits p) (t.hw p)) : Core h t := by
  have hchanged : t.changed = s.changed := by rw [htouch.rest]
  rcases htouch.wrote with ⟨hwrote, hhw⟩ | hwrote
  · exact hcore.of_same hhw hchanged hwrote
  refine ⟨fun q hq => ?_, hchanged ▸ hcore.noted, hchanged ▸ hcore.nodup, fun q hq => ?_,
    fun q => ?_⟩
  · rw [hwrote] at hq
    have hne : q ≠ p := fun heq => hq (heq ▸ List.mem_cons_self)
    rw [htouch.hw q hne]
    exact hcore.untouched q fun hmem => hq (List.mem_cons_of_mem _ hmem)
  · rw [hwrote] at hq
    rw [hchanged]
    rcases List.mem_cons.mp hq with rfl | hq
    · exact hnoted
    · exact hcore.wrote q hq
  · by_cases hqp : q = p
    · exact hqp ▸ hsane
    · rw [htouch.hw q hqp]
      exact hcore.sane q

/-! ### The loop that applies -/

theorem Core.raise (hcore : Core h s) : Core h s.raise := hcore.of_same rfl rfl rfl

theorem Inv.raise (hcore : Core h s) (hlocked : Locked s) : Inv h s.raise := ⟨hcore.raise, hlocked⟩

/-- The next policy, or the command. -/
theorem At.nextPolicy {todo : List ℕ} (hlocked : Locked s) (hnode : none ∈ s.locks)
    (hnodup : todo.Nodup) (hlater : ∀ q ∈ todo, q ∉ s.changed.map Prod.fst)
    (hwrote : ∀ q ∈ s.wrote, q ∈ s.changed.map Prod.fst)
    (hearlier : ∀ q ∈ h.policies, q ∈ todo ∨ Low h q) :
    At h { s with pc := nextPolicy todo } (nextPolicy todo) := by
  cases todo with
  | nil => exact ⟨hlocked, fun q hq => (hearlier q hq).resolve_left (by simp)⟩
  | cons q todo =>
    refine ⟨hlocked, ?_⟩
    exact {
      node := hnode
      own := fun hrank => absurd hrank (by decide)
      old := fun hrank => absurd hrank (by decide)
      asked := fun hrank => absurd hrank (by decide)
      fresh := fun _ => hlater q List.mem_cons_self
      noted := fun hrank => absurd hrank (by decide)
      unwritten := fun _ hmem => hlater q List.mem_cons_self (hwrote q hmem)
      low := fun hrank => absurd hrank (by decide)
      nodup := hnodup
      later := fun r hr => hlater r (List.mem_cons_of_mem _ hr)
      earlier := hearlier }

/-- What an operation of the loop leaves behind when it succeeds. -/
structure Applied (h : Host) (s s' : State) (op : Op) (p : ℕ) (todo : List ℕ) : Prop where
  core : Core h s'
  locked : Locked s'
  next : ∀ op', op.next = some op' → Applying h s' op' p todo
  last : op.next = none → Applying h s' op p todo

/-- An operation that writes to the policy. -/
theorem Applied.write {op : Op} {todo : List ℕ} (hcore : Core h s) (hlocked : Locked s)
    (happlying : Applying h s op p todo) (hrank : 5 ≤ op.rank) (hlast : op.next ≠ none) {f : Freq}
    (hsane : Sane (h.limits p) f) (hlow : Low h p) : Applied h s (s.write p f) op p todo where
  core := hcore.touch (.write p s f) (happlying.noted hrank) ((hw_write ..).symm ▸ hsane)
  locked := hlocked
  next := by
    intro op' hnext
    have hrank' := Op.rank_next hnext
    exact {
      node := happlying.node
      own := fun _ => happlying.own (by omega)
      old := fun _ => happlying.old (by omega)
      asked := fun _ => happlying.asked (by omega)
      fresh := fun hle => absurd hle (by omega)
      noted := fun _ => happlying.noted hrank
      unwritten := fun hle => absurd hle (by omega)
      low := fun _ => hlow
      nodup := happlying.nodup
      later := happlying.later
      earlier := happlying.earlier }
  last := fun hnone => absurd hnone hlast

/-- The requested frequency is not below the minimum of the hardware. -/
theorem cpuinfoMin_le_of_requested {khz : ℕ}
    (hreq : requestedFrequency (h.limits p) h.override = some khz) :
    (h.limits p).cpuinfoMin ≤ khz := by
  cases hover : h.override with
  | none =>
    rw [hover, requestedFrequency, Option.some.injEq] at hreq
    have hvalid := h.valid p
    have := hvalid.lower
    have := hvalid.order
    have := hvalid.upper
    omega
  | some khz' =>
    rw [hover, requestedFrequency] at hreq
    obtain ⟨hrange, heq⟩ := Option.ite_none_right_eq_some.mp hreq
    exact Option.some.inj heq ▸ hrange.1

/-- **An operation of the loop.** -/
theorem applied {op : Op} {todo : List ℕ} (hcore : Core h s) (hlocked : Locked s)
    (happlying : Applying h s op p todo) {s' : State} (happly : s.apply h p op = some s') :
    Applied h s s' op p todo := by
  obtain ⟨node, own, old, asked, fresh, noted, unwritten, low, nodup, later, earlier⟩ := happlying
  cases op with
  | lock =>
    obtain rfl := Option.some.inj happly
    refine ⟨hcore.of_same rfl rfl rfl, fun q hq => ?_, ?_, nofun⟩
    · exact ⟨List.mem_cons_of_mem _ (hlocked q hq).1, List.mem_cons_of_mem _ (hlocked q hq).2⟩
    · rintro op' ⟨⟩
      exact ⟨List.mem_cons_of_mem _ node, fun _ => List.mem_cons_self,
        fun hrank => absurd hrank (by decide), fun hrank => absurd hrank (by decide),
        fun _ => fresh (by decide), fun hrank => absurd hrank (by decide),
        fun _ => unwritten (by decide), fun hrank => absurd hrank (by decide), nodup, later, earlier⟩
  | readOld =>
    obtain rfl := Option.some.inj happly
    refine ⟨hcore.of_same rfl rfl rfl, hlocked, ?_, nofun⟩
    rintro op' ⟨⟩
    exact ⟨node, fun _ => own (by decide), fun _ => hcore.untouched p (unwritten (by decide)),
      fun hrank => absurd hrank (by decide), fun _ => fresh (by decide),
      fun hrank => absurd hrank (by decide), fun _ => unwritten (by decide),
      fun hrank => absurd hrank (by decide), nodup, later, earlier⟩
  | request =>
    obtain ⟨khz, hkhz, rfl⟩ := Option.map_eq_some_iff.mp happly
    refine ⟨hcore.of_same rfl rfl rfl, hlocked, ?_, nofun⟩
    rintro op' ⟨⟩
    exact ⟨node, fun _ => own (by decide), fun _ => old (by decide), fun _ => hkhz,
      fun _ => fresh (by decide), fun hrank => absurd hrank (by decide),
      fun _ => unwritten (by decide), fun hrank => absurd hrank (by decide), nodup, later, earlier⟩
  | save =>
    obtain rfl := Option.some.inj happly
    refine ⟨hcore, hlocked, ?_, nofun⟩
    rintro op' ⟨⟩
    exact ⟨node, fun _ => own (by decide), fun _ => old (by decide), fun _ => asked (by decide),
      fun _ => fresh (by decide), fun hrank => absurd hrank (by decide),
      fun _ => unwritten (by decide), fun hrank => absurd hrank (by decide), nodup, later, earlier⟩
  | note =>
    obtain rfl := Option.some.inj happly
    have hnew : (s.changed ++ [(p, s.old)]).map Prod.fst = s.changed.map Prod.fst ++ [p] := by simp
    refine ⟨⟨hcore.untouched, ?_, ?_, ?_, hcore.sane⟩, ?_, ?_, nofun⟩
    · intro e he
      rcases List.mem_append.mp he with he | he
      · exact hcore.noted e he
      · obtain rfl := List.mem_singleton.mp he
        exact old (by decide)
    · rw [hnew]
      refine List.Nodup.append hcore.nodup (List.nodup_singleton p) ?_
      exact List.disjoint_singleton.mpr (fresh (by decide))
    · intro q hq
      rw [hnew]
      exact List.mem_append_left _ (hcore.wrote q hq)
    · intro q hq
      rw [hnew] at hq
      rcases List.mem_append.mp hq with hq | hq
      · exact hlocked q hq
      · obtain rfl := List.mem_singleton.mp hq
        exact ⟨node, own (by decide)⟩
    · rintro op' ⟨⟩
      refine ⟨node, fun _ => own (by decide), fun _ => old (by decide), fun _ => asked (by decide),
        fun hrank => absurd hrank (by decide), fun _ => hnew ▸ List.mem_append_right _ (by simp),
        fun _ => unwritten (by decide), fun hrank => absurd hrank (by decide), nodup, ?_, earlier⟩
      intro q hq
      rw [hnew, List.mem_append, List.mem_singleton]
      rintro (hmem | rfl)
      · exact later q hq hmem
      · exact (List.nodup_cons.mp nodup).1 hq
  | writeMax =>
    obtain ⟨f, hf, rfl⟩ := Option.map_eq_some_iff.mp happly
    obtain ⟨hle, heq⟩ := Option.ite_none_right_eq_some.mp hf
    obtain rfl := Option.some.inj heq
    refine Applied.write hcore hlocked
      ⟨node, own, old, asked, fresh, noted, unwritten, low, nodup, later, earlier⟩ (by decide)
      (by decide) ⟨(hcore.sane p).1, hle⟩ fun khz hkhz => ?_
    -- the policy has not been written to yet
    rw [asked (by decide), Option.some.injEq] at hkhz
    rw [← hcore.untouched p (unwritten (by decide)), ← hkhz]
    exact hle
  | writeMin =>
    obtain ⟨f, hf, rfl⟩ := Option.map_eq_some_iff.mp happly
    obtain ⟨hle, heq⟩ := Option.ite_none_right_eq_some.mp hf
    obtain rfl := Option.some.inj heq
    exact Applied.write hcore hlocked
      ⟨node, own, old, asked, fresh, noted, unwritten, low, nodup, later, earlier⟩ (by decide)
      (by decide) ⟨cpuinfoMin_le_of_requested (asked (by decide)), hle⟩ (low (by decide))
  | writeGovernor =>
    obtain rfl := Option.some.inj happly
    exact Applied.write hcore hlocked
      ⟨node, own, old, asked, fresh, noted, unwritten, low, nodup, later, earlier⟩ (by decide)
      (by decide) (hcore.sane p) (low (by decide))
  | readBack =>
    obtain ⟨-, heq⟩ := Option.ite_none_right_eq_some.mp happly
    obtain rfl := Option.some.inj heq
    exact ⟨hcore, hlocked, nofun, fun _ =>
      ⟨node, own, old, asked, fresh, noted, unwritten, low, nodup, later, earlier⟩⟩

theorem Inv.tryOp {op : Op} {todo : List ℕ} (hcore : Core h s) (hlocked : Locked s)
    (happlying : Applying h s op p todo) (o : Outcome) : Inv h (s.tryOp h op p todo o) := by
  unfold State.tryOp
  split
  · rename_i s' happly
    have happlied := applied hcore hlocked happlying happly
    refine ⟨happlied.core.of_same rfl rfl rfl, ?_⟩
    cases hnext : op.next with
    | some op' =>
      obtain ⟨node, own, old, asked, fresh, noted, unwritten, low, nodup, later, earlier⟩ :=
        happlied.next op' hnext
      exact ⟨happlied.locked,
        ⟨node, own, old, asked, fresh, noted, unwritten, low, nodup, later, earlier⟩⟩
    | none =>
      have hlast := happlied.last hnext
      have hrank : 6 ≤ op.rank := by
        cases op <;> first | (cases hnext; done) | decide
      refine At.nextPolicy happlied.locked hlast.node (List.nodup_cons.mp hlast.nodup).2 hlast.later
        happlied.core.wrote fun q hq => ?_
      rcases hlast.earlier q hq with hmem | hlow
      · rcases List.mem_cons.mp hmem with rfl | hmem
        · exact .inr (hlast.low hrank)
        · exact .inl hmem
      · exact .inr hlow
  · rename_i s' happly
    have happlied := applied hcore hlocked happlying happly
    exact .raise happlied.core happlied.locked
  · exact .raise hcore hlocked

/-! ### The loop that restores -/

theorem Done.of_touch {q : ℕ} (hdone : Done h s q) (htouch : Touches p s t) (hne : q ≠ p)
    (herrors : t.errors = s.errors) : Done h t q := by
  rcases hdone with heq | hmem
  · exact .inl ((htouch.hw q hne).trans heq)
  · exact .inr (herrors ▸ hmem)

/-- The next policy, or the end. -/
theorem At.nextUndo {left : List (ℕ × Freq)} (hcore : Core h s) (hlocked : Locked s)
    (hquiet : Quiet s) (hnodup : (left.map Prod.fst).Nodup) (hbehind : ∀ e ∈ left, e ∈ s.changed)
    (hdone : ∀ e ∈ s.changed, e ∈ left ∨ Done h s e.1) :
    At h { s with pc := nextUndo left } (nextUndo left) := by
  cases left with
  | nil => exact ⟨hlocked, hquiet, fun e he => (hdone e he).resolve_left (by simp)⟩
  | cons e left =>
    have he := hbehind e List.mem_cons_self
    refine ⟨hlocked, hquiet, trivial, hcore.noted e he, List.mem_map_of_mem he, hnodup,
      fun e' he' => hbehind e' (List.mem_cons_of_mem _ he'), fun e' he' => ?_⟩
    rcases hdone e' he' with hmem | hdone
    · rcases List.mem_cons.mp hmem with rfl | hmem
      · exact .inl rfl
      · exact .inr (.inl hmem)
    · exact .inr (.inr hdone)

/-- The restoration of a policy is over. -/
theorem Inv.undone {op : Undo} {left : List (ℕ × Freq)} (hcore : Core h t) (hlocked : Locked t)
    (hquiet : Quiet t) (hrest : Restoring h s op p old left) (hchanged : t.changed = s.changed)
    (hother : ∀ q ≠ p, Done h s q → Done h t q) (hown : Done h t p) :
    Inv h { t with pc := nextUndo left } := by
  refine ⟨hcore.of_same rfl rfl rfl, At.nextUndo hcore hlocked hquiet
    (List.nodup_cons.mp hrest.nodup).2 (fun e he => hchanged ▸ hrest.behind e he) fun e he => ?_⟩
  by_cases hep : e.1 = p
  · exact .inr (hep ▸ hown)
  · rcases hrest.done e (hchanged ▸ he) with heq | hmem | hdone
    · exact absurd heq hep
    · exact .inl hmem
    · exact .inr (hother e.1 hep hdone)

theorem Inv.tryUndo {op : Undo} {left : List (ℕ × Freq)} (hcore : Core h s) (hlocked : Locked s)
    (hquiet : Quiet s) (hrest : Restoring h s op p old left) (o : Outcome) :
    Inv h (s.tryUndo h op p old left o) := by
  have hold : old.Valid (h.limits p) := hrest.old ▸ h.valid p
  obtain ⟨s', hundo, htouch, hsane, hnext, hlast⟩ :=
    undo_eq_some (hcore.sane p) hold hrest.progress
  have hcore' : Core h s' := hcore.touch htouch hrest.noted hsane
  have hchanged : s'.changed = s.changed := by rw [htouch.rest]
  have herrors : s'.errors = s.errors := by rw [htouch.rest]
  have hlocked' : Locked s' := by
    rw [htouch.rest]
    exact hlocked
  have hquiet' : Quiet s' := by
    rw [htouch.rest]
    exact hquiet
  unfold State.tryUndo
  rw [hundo]
  cases o with
  | ok =>
    cases hop : op.next with
    | none =>
      exact Inv.undone hcore' hlocked' hquiet' hrest hchanged
        (fun q hq hdone => hdone.of_touch htouch hq herrors) (.inl ((hlast hop).trans hrest.old))
    | some op' =>
      refine ⟨hcore'.of_same rfl rfl rfl, hlocked', hquiet', hnext op' hop, hrest.old,
        hchanged ▸ hrest.noted, hrest.nodup, fun e he => hchanged ▸ hrest.behind e he,
        fun e he => ?_⟩
      by_cases hep : e.1 = p
      · exact .inl hep
      · rcases hrest.done e (hchanged ▸ he) with heq | hmem | hdone
        · exact .inl heq
        · exact .inr (.inl hmem)
        · have hdone' : Done h s' e.1 := hdone.of_touch htouch hep herrors
          exact .inr (.inr hdone')
  | fault =>
    have hown : Done h { s with errors := s.errors ++ [.policy p] } p := .inr (by simp)
    exact Inv.undone (t := { s with errors := s.errors ++ [.policy p] })
      (hcore.of_same rfl rfl rfl) hlocked hquiet hrest rfl
      (fun q _ hdone => hdone.imp id fun hmem => List.mem_append_left _ hmem) hown
  | late =>
    have hown : Done h { s' with errors := s.errors ++ [.policy p] } p := .inr (by simp)
    refine Inv.undone (t := { s' with errors := s.errors ++ [.policy p] })
      (hcore'.of_same rfl rfl rfl) hlocked' hquiet' hrest hchanged (fun q hq hdone => ?_) hown
    exact (hdone.of_touch htouch hq herrors).imp id fun hmem =>
      List.mem_append_left _ (herrors ▸ hmem)

/-! ### Every step -/

theorem mem_signals (sig : Signal) : sig ∈ [Signal.term, .int, .hup] := by cases sig <;> decide

theorem Inv.step {a : Label} (hinv : Inv h s) (hfine : Fine s a) (hstep : step h s a = some t) :
    Inv h t := by
  obtain ⟨hcore, hat⟩ := hinv
  cases hpc : s.pc with
  | acquiring =>
    rw [hpc] at hat
    have hchanged : s.changed = [] := hat
    have hlocked : Locked s := fun q hq => by simp [hchanged] at hq
    cases a with
    | signal sig =>
      simp only [Pinned.step, hpc, Option.some.injEq] at hstep
      exact hstep ▸ .raise hcore hlocked
    | run o =>
      simp only [Pinned.step, hpc] at hstep
      split_ifs at hstep
      · obtain rfl := Option.some.inj hstep
        refine ⟨hcore.of_same rfl rfl rfl, ?_⟩
        exact @At.nextPolicy h { s with locks := [none] } h.policies
          (fun q hq => by simp [hchanged] at hq) List.mem_cons_self h.nodup
          (fun q _ hmem => by simp [hchanged] at hmem) hcore.wrote fun q hq => .inl hq
      · obtain rfl := Option.some.inj hstep
        exact .raise hcore hlocked
  | applying op p todo =>
    rw [hpc] at hat
    cases a with
    | signal sig =>
      simp only [Pinned.step, hpc, Option.some.injEq] at hstep
      exact hstep ▸ .raise hcore hat.1
    | run o =>
      simp only [Pinned.step, hpc, Option.some.injEq] at hstep
      exact hstep ▸ .tryOp hcore hat.1 hat.2 o
  | working =>
    rw [hpc] at hat
    cases a with
    | signal sig =>
      simp only [Pinned.step, hpc, Option.some.injEq] at hstep
      exact hstep ▸ .raise hcore hat.1
    | run o =>
      simp only [Pinned.step, hpc] at hstep
      split_ifs at hstep
      · obtain rfl := Option.some.inj hstep
        exact ⟨hcore.of_same rfl rfl rfl, hat.1, fun sig => .inl (mem_signals sig)⟩
      · obtain rfl := Option.some.inj hstep
        exact .raise hcore hat.1
  | handling =>
    rw [hpc] at hat
    have hnext : Inv h { s with pc := .ignoring [.term, .int, .hup] } :=
      ⟨hcore.of_same rfl rfl rfl, hat, fun sig => .inl (mem_signals sig)⟩
    cases a with
    | signal sig =>
      simp only [Pinned.step, hpc, Option.some.injEq] at hstep
      exact hstep ▸ hnext
    | run o =>
      simp only [Pinned.step, hpc, Option.some.injEq] at hstep
      exact hstep ▸ hnext
  | ignoring left =>
    rw [hpc] at hat
    cases a with
    | signal sig =>
      simp only [Pinned.step, hpc, if_pos (hfine left hpc), Option.some.injEq] at hstep
      subst hstep
      exact ⟨hcore, by rw [hpc]; exact hat⟩
    | run o =>
      cases left with
      | nil =>
        simp only [Pinned.step, hpc, Option.some.injEq] at hstep
        subst hstep
        exact ⟨hcore.of_same rfl rfl rfl, hat.1, fun sig => (hat.2 sig).resolve_left (by simp),
          fun p => by simp⟩
      | cons sig left =>
        simp only [Pinned.step, hpc, Option.some.injEq] at hstep
        subst hstep
        refine ⟨hcore.of_same rfl rfl rfl, hat.1, fun sig' => ?_⟩
        rcases hat.2 sig' with hmem | hmem
        · rcases List.mem_cons.mp hmem with rfl | hmem
          · exact .inr List.mem_cons_self
          · exact .inl hmem
        · exact .inr (List.mem_cons_of_mem _ hmem)
  | stopping left =>
    rw [hpc] at hat
    cases a with
    | signal sig =>
      simp only [Pinned.step, hpc, if_pos (hat.2.1 sig), Option.some.injEq] at hstep
      subst hstep
      exact ⟨hcore, by rw [hpc]; exact hat⟩
    | run o =>
      cases left with
      | nil =>
        simp only [Pinned.step, hpc, Option.some.injEq] at hstep
        subst hstep
        refine ⟨hcore.of_same rfl rfl rfl, At.nextUndo hcore hat.1 hat.2.1 ?_
          (fun e he => List.mem_reverse.mp he) fun e he => .inl (List.mem_reverse.mpr he)⟩
        rw [List.map_reverse, List.nodup_reverse]
        exact hcore.nodup
      | cons x left =>
        simp only [Pinned.step, hpc, Option.some.injEq] at hstep
        subst hstep
        exact ⟨hcore.of_same rfl rfl rfl, hat.1, hat.2.1, fun p hp =>
          hat.2.2 p (List.mem_cons_of_mem _ hp)⟩
  | restoring op p old left =>
    rw [hpc] at hat
    cases a with
    | signal sig =>
      simp only [Pinned.step, hpc, if_pos (hat.2.1 sig), Option.some.injEq] at hstep
      subst hstep
      exact ⟨hcore, by rw [hpc]; exact hat⟩
    | run o =>
      simp only [Pinned.step, hpc, Option.some.injEq] at hstep
      exact hstep ▸ .tryUndo hcore hat.1 hat.2.1 hat.2.2 o
  | reporting =>
    rw [hpc] at hat
    cases a with
    | signal sig =>
      simp only [Pinned.step, hpc, if_pos (hat.2.1 sig), Option.some.injEq] at hstep
      subst hstep
      exact ⟨hcore, by rw [hpc]; exact hat⟩
    | run o =>
      simp only [Pinned.step, hpc] at hstep
      split_ifs at hstep
      · obtain rfl := Option.some.inj hstep
        exact ⟨hcore.of_same rfl rfl rfl, hat⟩
      · obtain rfl := Option.some.inj hstep
        exact ⟨hcore.of_same rfl rfl rfl, hat.2.2, fun _ => rfl⟩
  | unlocking =>
    rw [hpc] at hat
    cases a with
    | signal sig =>
      simp only [Pinned.step, hpc, if_pos (hat.2.1 sig), Option.some.injEq] at hstep
      subst hstep
      exact ⟨hcore, by rw [hpc]; exact hat⟩
    | run o =>
      simp only [Pinned.step, hpc, Option.some.injEq] at hstep
      subst hstep
      exact ⟨hcore.of_same rfl rfl rfl, hat.2.2, fun herrors => by simp [herrors]⟩
  | ended returned =>
    cases a with
    | signal sig => simp [Pinned.step, hpc] at hstep
    | run o => simp [Pinned.step, hpc] at hstep

theorem inv_start (h : Host) : Inv h (start h) where
  core := ⟨fun _ _ => rfl, fun e he => by simp [start] at he, by simp [start], fun p hp => by
    simp [start] at hp, fun p => ⟨(h.valid p).lower, (h.valid p).order⟩⟩
  pc := rfl

/-! ### Applying -/

/-- The loop over the policies ends with every policy at the requested frequency, if nothing goes
wrong. -/
def Applies (h : Host) : Prop :=
  ∃ n t, exec (step h) (start h) (List.replicate n (.run .ok)) = some t ∧ t.pc = .working ∧
    ∀ p ∈ h.policies, ∃ khz, requestedFrequency (h.limits p) h.override = some khz ∧
      t.hw p = ⟨"performance", khz, khz⟩

theorem step_applying (op : Op) {todo : List ℕ} {s' : State} (hpc : s.pc = .applying op p todo)
    (happly : s.apply h p op = some s') : step h s (.run .ok) = some { s' with
      pc := op.next.elim (nextPolicy todo) fun op' => .applying op' p todo } := by
  simp only [step, hpc, State.tryOp, happly]

/-- The three writes, and reading them back. -/
theorem exec_writes {todo : List ℕ} {khz : ℕ} (hpc : s.pc = .applying .writeMax p todo)
    (hrequested : s.requested = khz) (hle : (s.hw p).minFreq ≤ khz) :
    ∃ t, exec (step h) s (List.replicate 4 (.run .ok)) = some t ∧ t.pc = nextPolicy todo ∧
      t.hw = Function.update s.hw p ⟨"performance", khz, khz⟩ := by
  subst hrequested
  let s₁ : State := { s.write p { s.hw p with maxFreq := s.requested } with
    pc := .applying .writeMin p todo }
  have h₁ : step h s (.run .ok) = some s₁ :=
    step_applying .writeMax hpc (by simp only [State.apply, Freq.writeMax, if_pos hle, Option.map_some])
  let s₂ : State := { s₁.write p { s₁.hw p with minFreq := s.requested } with
    pc := .applying .writeGovernor p todo }
  have hmin : s₁.requested ≤ (s₁.hw p).maxFreq := by simp [s₁, State.write]
  have hwrite : (s₁.hw p).writeMin s₁.requested = some { s₁.hw p with minFreq := s.requested } :=
    if_pos hmin
  have happly : s₁.apply h p .writeMin =
      some (s₁.write p { s₁.hw p with minFreq := s.requested }) :=
    congrArg (Option.map (s₁.write p)) hwrite
  have h₂ : step h s₁ (.run .ok) = some s₂ := step_applying .writeMin rfl happly
  let s₃ : State := { s₂.write p ((s₂.hw p).writeGovernor "performance") with
    pc := .applying .readBack p todo }
  have h₃ : step h s₂ (.run .ok) = some s₃ := step_applying .writeGovernor rfl rfl
  have hback : s₃.hw p = ⟨"performance", s₃.requested, s₃.requested⟩ := by
    simp [s₃, s₂, s₁, State.write, Freq.writeGovernor]
  have h₄ : step h s₃ (.run .ok) = some { s₃ with pc := nextPolicy todo } :=
    step_applying .readBack rfl (if_pos hback)
  refine ⟨_, exec_cons.mpr ⟨s₁, h₁, exec_cons.mpr ⟨s₂, h₂, exec_cons.mpr ⟨s₃, h₃,
    exec_cons.mpr ⟨_, h₄, rfl⟩⟩⟩⟩, rfl, ?_⟩
  simp [s₃, s₂, s₁, State.write, Freq.writeGovernor]

/-- The nine operations for one policy. -/
theorem exec_policy {todo : List ℕ} (hpc : s.pc = .applying .lock p todo)
    (hhw : s.hw p = h.original p) {khz : ℕ}
    (hreq : requestedFrequency (h.limits p) h.override = some khz)
    (hlow : (h.original p).minFreq ≤ khz) :
    ∃ t, exec (step h) s (List.replicate 9 (.run .ok)) = some t ∧ t.pc = nextPolicy todo ∧
      t.hw = Function.update s.hw p ⟨"performance", khz, khz⟩ := by
  let u : State := { s with
    locks := some p :: s.locks, old := s.hw p, requested := khz
    changed := s.changed ++ [(p, s.hw p)], pc := .applying .writeMax p todo }
  let s₁ : State := { s with locks := some p :: s.locks, pc := .applying .readOld p todo }
  let s₂ : State := { s₁ with old := s.hw p, pc := .applying .request p todo }
  let s₃ : State := { s₂ with requested := khz, pc := .applying .save p todo }
  let s₄ : State := { s₃ with pc := .applying .note p todo }
  have h₁ : step h s (.run .ok) = some s₁ := step_applying .lock hpc rfl
  have h₂ : step h s₁ (.run .ok) = some s₂ := step_applying .readOld rfl rfl
  have happly : s₂.apply h p .request = some { s₂ with requested := khz } := by
    rw [State.apply, hreq]
    rfl
  have h₃ : step h s₂ (.run .ok) = some s₃ := step_applying .request rfl happly
  have h₄ : step h s₃ (.run .ok) = some s₄ := step_applying .save rfl rfl
  have h₅ : step h s₄ (.run .ok) = some u := step_applying .note rfl rfl
  have hnoted : exec (step h) s (List.replicate 5 (.run .ok)) = some u :=
    exec_cons.mpr ⟨s₁, h₁, exec_cons.mpr ⟨s₂, h₂, exec_cons.mpr ⟨s₃, h₃, exec_cons.mpr ⟨s₄, h₄,
      exec_cons.mpr ⟨u, h₅, rfl⟩⟩⟩⟩⟩
  have hle : (u.hw p).minFreq ≤ khz := hhw ▸ hlow
  obtain ⟨t, hexec, htpc, hthw⟩ := @exec_writes h u p todo khz rfl rfl hle
  exact ⟨t, exec_append.mpr ⟨u, hnoted, hexec⟩, htpc, hthw⟩

theorem exec_policies {todo : List ℕ} (hpc : s.pc = nextPolicy todo) (hnodup : todo.Nodup)
    (hhw : ∀ q ∈ todo, s.hw q = h.original q)
    (hreq : ∀ q ∈ todo, (requestedFrequency (h.limits q) h.override).isSome = true)
    (hlow : ∀ q ∈ todo, Low h q) :
    ∃ n t, exec (step h) s (List.replicate n (.run .ok)) = some t ∧ t.pc = .working ∧
      (∀ q ∉ todo, t.hw q = s.hw q) ∧
      ∀ q ∈ todo, ∃ khz, requestedFrequency (h.limits q) h.override = some khz ∧
        t.hw q = ⟨"performance", khz, khz⟩ := by
  induction todo generalizing s with
  | nil => exact ⟨0, s, rfl, hpc, fun _ _ => rfl, fun q hq => absurd hq (by simp)⟩
  | cons p todo ih =>
    obtain ⟨hp, hnodup'⟩ := List.nodup_cons.mp hnodup
    obtain ⟨khz, hkhz⟩ := Option.isSome_iff_exists.mp (hreq p List.mem_cons_self)
    obtain ⟨u, hexec, hupc, huhw⟩ := exec_policy hpc (hhw p List.mem_cons_self) hkhz
      (hlow p List.mem_cons_self khz hkhz)
    have hkeep : ∀ q, q ≠ p → u.hw q = s.hw q := fun q hq => by simp [huhw, hq]
    obtain ⟨n, t, hrun, htpc, hother, hown⟩ := ih hupc hnodup'
      (fun q hq => by
        rw [hkeep q fun heq => hp (heq ▸ hq)]
        exact hhw q (List.mem_cons_of_mem _ hq))
      (fun q hq => hreq q (List.mem_cons_of_mem _ hq))
      (fun q hq => hlow q (List.mem_cons_of_mem _ hq))
    refine ⟨9 + n, t, ?_, htpc, fun q hq => ?_, fun q hq => ?_⟩
    · rw [List.replicate_add]
      exact exec_append.mpr ⟨u, hexec, hrun⟩
    · rw [List.mem_cons, not_or] at hq
      rw [hother q hq.2, hkeep q hq.1]
    · rcases List.mem_cons.mp hq with rfl | hq
      · exact ⟨khz, hkhz, by rw [hother q hp, huhw, Function.update_self]⟩
      · exact hown q hq

theorem along_runs (as : List Label) (hruns : ∀ a ∈ as, ∃ o, a = .run o) :
    Along (step h) Fine s as := by
  induction as generalizing s with
  | nil => trivial
  | cons a as ih =>
    refine ⟨?_, fun t _ => ih fun a ha => hruns a (List.mem_cons_of_mem _ ha)⟩
    obtain ⟨o, rfl⟩ := hruns a List.mem_cons_self
    trivial

theorem inv_of_exec {as : List Label} (hfine : Along (step h) Fine (start h) as)
    (hrun : exec (step h) (start h) as = some s) : Inv h s :=
  invariant_along (fun hi hc hs => Inv.step hi hc hs) (inv_start h) hfine hrun

/-- **A frequency can be applied just when no policy has a higher minimum.** -/
theorem applies_iff (h : Host) : Applies h ↔ ∀ p ∈ h.policies, Low h p := by
  constructor
  · rintro ⟨n, t, hrun, hpc, -⟩
    have hinv := inv_of_exec (along_runs _ fun a ha => ⟨.ok, List.eq_of_mem_replicate ha⟩) hrun
    have hat := hinv.pc
    rw [hpc] at hat
    exact hat.2
  · intro hlow
    obtain ⟨n, t, hrun, hpc, -, hown⟩ := @exec_policies h
      { start h with locks := [none], pc := nextPolicy h.policies } h.policies rfl h.nodup
      (fun _ _ => rfl) h.inRange hlow
    refine ⟨1 + n, t, ?_, hpc, hown⟩
    rw [List.replicate_add]
    exact exec_append.mpr ⟨_, rfl, hrun⟩

/-! ### The whole run -/

/-- What holds of the policies and the locks. -/
structure GivesBack (h : Host) (s : State) : Prop where
  /-- Where `main` has ended, a policy it has written to is as it was, or there is an error for it,
  and then `main` has raised. -/
  restored : ∀ returned, s.pc = .ended returned →
    (∀ p ∈ s.wrote, s.hw p = h.original p ∨ .policy p ∈ s.errors) ∧
      (s.errors ≠ [] → returned = false)
  /-- Up to its end, `main` has the locks of the node and of what it has written to. -/
  locked : (∀ returned, s.pc ≠ .ended returned) → ∀ p ∈ s.wrote, none ∈ s.locks ∧ some p ∈ s.locks
  /-- And it has them before it writes. -/
  before : ∀ a t, step h s a = some t → t.wrote ≠ s.wrote → ∀ p ∈ t.wrote,
    none ∈ s.locks ∧ some p ∈ s.locks
  /-- An error is noted only for a fault, and only for what it strikes. -/
  errors : ∀ a t, step h s a = some t → t.errors ≠ s.errors → a ≠ .run .ok ∧
    ∃ x, t.errors = s.errors ++ [x] ∧ ∀ p, x = .policy p →
      ∃ op old left, s.pc = .restoring op p old left

/-- What an operation of the first loop leaves alone. -/
theorem apply_rest {op : Op} {s' : State} (happly : s.apply h p op = some s') :
    s'.errors = s.errors ∧ (s'.wrote = s.wrote ∨ s'.wrote = p :: s.wrote ∧ 5 ≤ op.rank) := by
  cases op with
  | request =>
    obtain ⟨khz, -, rfl⟩ := Option.map_eq_some_iff.mp happly
    exact ⟨rfl, .inl rfl⟩
  | writeMax | writeMin =>
    obtain ⟨f, -, rfl⟩ := Option.map_eq_some_iff.mp happly
    exact ⟨rfl, .inr ⟨rfl, by decide⟩⟩
  | writeGovernor =>
    obtain rfl := Option.some.inj happly
    exact ⟨rfl, .inr ⟨rfl, by decide⟩⟩
  | readBack =>
    obtain ⟨-, heq⟩ := Option.ite_none_right_eq_some.mp happly
    obtain rfl := Option.some.inj heq
    exact ⟨rfl, .inl rfl⟩
  | _ =>
    obtain rfl := Option.some.inj happly
    exact ⟨rfl, .inl rfl⟩

/-- What an attempt in the first loop leaves alone. -/
theorem tryOp_rest (op : Op) (todo : List ℕ) (o : Outcome) :
    (s.tryOp h op p todo o).errors = s.errors ∧ ((s.tryOp h op p todo o).wrote = s.wrote ∨
      (s.tryOp h op p todo o).wrote = p :: s.wrote ∧ 5 ≤ op.rank) := by
  unfold State.tryOp
  split
  · rename_i s' happly
    have hrest := apply_rest happly
    exact hrest
  · rename_i s' happly
    have hrest := apply_rest happly
    exact hrest
  · exact ⟨rfl, .inl rfl⟩

/-- What an attempt in the second loop leaves alone. -/
theorem tryUndo_rest {op : Undo} {left : List (ℕ × Freq)} (hcore : Core h s)
    (hrest : Restoring h s op p old left) (o : Outcome) :
    ((s.tryUndo h op p old left o).wrote = s.wrote ∨
      (s.tryUndo h op p old left o).wrote = p :: s.wrote) ∧
    (s.tryUndo h op p old left o).errors =
      s.errors ++ if o = .ok then [] else [.policy p] := by
  obtain ⟨s', hundo, htouch, -⟩ :=
    undo_eq_some (hcore.sane p) (hrest.old ▸ h.valid p : old.Valid (h.limits p)) hrest.progress
  have hwrote : s'.wrote = s.wrote ∨ s'.wrote = p :: s.wrote := htouch.wrote.imp And.left id
  have herrors : s'.errors = s.errors := by rw [htouch.rest]
  unfold State.tryUndo
  rw [hundo]
  cases o with
  | ok => exact ⟨hwrote, by simp [herrors]⟩
  | fault => exact ⟨.inl rfl, by simp⟩
  | late => exact ⟨hwrote, by simp⟩

/-- A step that writes has the locks. -/
theorem Inv.before (hinv : Inv h s) {a : Label} (hstep : Pinned.step h s a = some t)
    (hwrote : t.wrote ≠ s.wrote) : ∀ q ∈ t.wrote, none ∈ s.locks ∧ some q ∈ s.locks := by
  have hpc := hinv.pc
  -- what is written to is noted, and locked
  have hlocks : ∀ p, Locked s → p ∈ s.changed.map Prod.fst → t.wrote = p :: s.wrote →
      ∀ q ∈ t.wrote, none ∈ s.locks ∧ some q ∈ s.locks := by
    intro p hlocked hp heq q hq
    rw [heq] at hq
    rcases List.mem_cons.mp hq with rfl | hq
    · exact hlocked _ hp
    · exact hlocked q (hinv.core.wrote q hq)
  cases a with
  | signal sig =>
    refine absurd ?_ hwrote
    simp only [Pinned.step] at hstep
    repeat' split at hstep
    all_goals first
      | (obtain rfl := Option.some.inj hstep; rfl)
      | cases hstep
  | run o =>
    simp only [Pinned.step] at hstep
    split at hstep
    · refine absurd ?_ hwrote
      split_ifs at hstep <;> (obtain rfl := Option.some.inj hstep; rfl)
    · rename_i op p todo heq
      obtain rfl := Option.some.inj hstep
      rw [heq] at hpc
      obtain ⟨-, hsame | ⟨hcons, hrank⟩⟩ := @tryOp_rest h s p op todo o
      · exact absurd hsame hwrote
      · exact hlocks p hpc.1 (hpc.2.noted hrank) hcons
    all_goals try (refine absurd ?_ hwrote; obtain rfl := Option.some.inj hstep; rfl)
    · refine absurd ?_ hwrote
      split_ifs at hstep <;> (obtain rfl := Option.some.inj hstep; rfl)
    · rename_i op p old left heq
      obtain rfl := Option.some.inj hstep
      rw [heq] at hpc
      rcases (tryUndo_rest hinv.core hpc.2.2 o).1 with hsame | hcons
      · exact absurd hsame hwrote
      · exact hlocks p hpc.1 hpc.2.2.noted hcons
    · refine absurd ?_ hwrote
      split_ifs at hstep <;> (obtain rfl := Option.some.inj hstep; rfl)
    · cases hstep

/-- An error is noted for what a fault strikes. -/
theorem Inv.errors (hinv : Inv h s) {a : Label} (hstep : Pinned.step h s a = some t)
    (herrors : t.errors ≠ s.errors) : a ≠ .run .ok ∧ ∃ x, t.errors = s.errors ++ [x] ∧
      ∀ p, x = .policy p → ∃ op old left, s.pc = .restoring op p old left := by
  have hpc := hinv.pc
  cases a with
  | signal sig =>
    refine absurd ?_ herrors
    simp only [Pinned.step] at hstep
    repeat' split at hstep
    all_goals first
      | (obtain rfl := Option.some.inj hstep; rfl)
      | cases hstep
  | run o =>
    simp only [Pinned.step] at hstep
    split at hstep
    · refine absurd ?_ herrors
      split_ifs at hstep <;> (obtain rfl := Option.some.inj hstep; rfl)
    · rename_i op p todo heq
      obtain rfl := Option.some.inj hstep
      exact absurd (tryOp_rest op todo o).1 herrors
    all_goals try (refine absurd ?_ herrors; obtain rfl := Option.some.inj hstep; rfl)
    · refine absurd ?_ herrors
      split_ifs at hstep <;> (obtain rfl := Option.some.inj hstep; rfl)
    · -- the command or the monitor
      rename_i x left heq
      rw [heq] at hpc
      obtain rfl := Option.some.inj hstep
      by_cases ho : o = .ok
      · exact absurd (if_pos ho) herrors
      · refine ⟨fun hlabel => ho (Label.run.inj hlabel), x, if_neg ho, fun p hp => ?_⟩
        exact absurd (hp ▸ List.mem_cons_self) (hpc.2.2 p)
    · rename_i op p old left heq
      obtain rfl := Option.some.inj hstep
      rw [heq] at hpc
      have hadded := (tryUndo_rest hinv.core hpc.2.2 o).2
      by_cases ho : o = .ok
      · exact absurd (by rw [hadded, if_pos ho, List.append_nil]) herrors
      · rw [if_neg ho] at hadded
        refine ⟨fun hlabel => ho (Label.run.inj hlabel), .policy p, hadded, fun q hq => ?_⟩
        obtain rfl := Trouble.policy.inj hq
        exact ⟨op, old, left, heq⟩
    · refine absurd ?_ herrors
      split_ifs at hstep <;> (obtain rfl := Option.some.inj hstep; rfl)
    · cases hstep

/-- **When the frequency can be applied, and that it is given back.** -/
theorem frequency_given_back (h : Host) :
    (Applies h ↔ ∀ p ∈ h.policies, ∀ khz,
      requestedFrequency (h.limits p) h.override = some khz → (h.original p).minFreq ≤ khz) ∧
    ∀ as s, Along (step h) Fine (start h) as → exec (step h) (start h) as = some s →
      GivesBack h s := by
  refine ⟨applies_iff h, fun as s hfine hrun => ?_⟩
  have hinv := inv_of_exec hfine hrun
  have hpc := hinv.pc
  refine ⟨fun returned heq => ?_, fun hnot p hp => ?_, fun a t hstep hwrote => hinv.before hstep hwrote,
    fun a t hstep herrors => hinv.errors hstep herrors⟩
  · rw [heq] at hpc
    refine ⟨fun p hp => ?_, hpc.2⟩
    obtain ⟨e, he, rfl⟩ := List.mem_map.mp (hinv.core.wrote p hp)
    exact hpc.1 e he
  · have hnoted := hinv.core.wrote p hp
    have hlocked : Locked s := by
      cases heq : s.pc with
      | acquiring =>
        rw [heq] at hpc
        have hchanged : s.changed = [] := hpc
        simp [hchanged] at hnoted
      | ended returned => exact absurd heq (hnot returned)
      | handling =>
        rw [heq] at hpc
        exact hpc
      | _ =>
        rw [heq] at hpc
        exact hpc.1
    exact hlocked p hnoted

/-! ### A policy with a high minimum -/

/-- One policy, from one to three megahertz, that is kept between two and three. -/
def raised : Freq := ⟨"schedutil", 2000, 3000⟩

/-- A measurement at the frequency `khz`. -/
def single (khz : ℕ) (hrange : 1000 ≤ khz ∧ khz ≤ 3000) : Host where
  policies := [0]
  nodup := by simp
  limits := fun _ => ⟨1000, 3000⟩
  override := some khz
  inRange := fun _ _ => by simp [requestedFrequency, hrange]
  original := fun _ => raised
  valid := fun _ => ⟨by decide, by decide, by decide⟩

/-- A whole run without a fault. -/
def wholeRun : List Label := List.replicate 26 (.run .ok)

/-- At a frequency above the minimum the policy is changed, and given back. -/
theorem frequency_given_back_single :
    Applies (single 2500 (by decide)) ∧
    ∃ s, exec (step (single 2500 (by decide))) (start (single 2500 (by decide))) wholeRun = some s ∧
      s.pc = .ended true ∧ s.hw 0 = raised ∧ s.wrote ≠ [] ∧ GivesBack (single 2500 (by decide)) s := by
  obtain ⟨happlies, hruns⟩ := frequency_given_back (single 2500 (by decide))
  refine ⟨happlies.mpr fun p _ khz hkhz => ?_, _, rfl, by decide +kernel, by decide +kernel,
    by decide +kernel, hruns wholeRun _ (along_runs _ fun a ha => ⟨.ok, List.eq_of_mem_replicate ha⟩)
      rfl⟩
  have heq : 2500 = khz := Option.some.inj hkhz
  subst heq
  show 2000 ≤ 2500
  decide

/-- **A frequency below the minimum of a policy cannot be applied, and a signal at the beginning of
the `finally` clause leaves the policy changed.** -/
theorem lower_frequency_rejected :
    ¬ Applies (single 1500 (by decide)) ∧
    ∃ s, exec (step (single 2500 (by decide))) (start (single 2500 (by decide)))
        (List.replicate 11 (.run .ok) ++ [.signal .term]) = some s ∧
      s.pc = .ended false ∧ s.wrote = [0, 0, 0] ∧ s.hw 0 = ⟨"performance", 2500, 2500⟩ ∧
      s.errors = [] ∧ ¬ GivesBack (single 2500 (by decide)) s := by
  have hnot : ¬ Applies (single 1500 (by decide)) := fun happlies => by
    have hlow := (applies_iff _).mp happlies 0 (by simp [single]) 1500 (by decide)
    revert hlow
    decide
  refine ⟨hnot, _, rfl, by decide +kernel, by decide +kernel, by decide +kernel, by decide +kernel,
    fun hback => ?_⟩
  have hrestored := (hback.restored false (by decide +kernel)).1 0 (by decide +kernel)
  revert hrestored
  decide +kernel

end Pinned

end DeltaBox
