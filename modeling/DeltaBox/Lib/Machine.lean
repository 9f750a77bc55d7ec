import Mathlib.Data.List.Basic
import Mathlib.Data.Option.Basic

/-!
# Labelled machines and their runs

A *machine* is a partial step function `step : σ → α → Option σ`. Every choice the environment
makes (which thread moves, which call fails, which identifier is drawn) is part of the label, so a
run is determined by its start state and its list of labels, and a concrete run can be evaluated.

## Two ways to quantify over runs

* `exec step s as = some t` — the labels `as` are all enabled in turn and lead from `s` to `t`.
* `Along step C s as` — every step of that run meets the condition `C` in the state *before* it.

The second form is what a theorem about a restricted class of runs wants. It is a condition on the
inputs of the run, never on what the steps compute, and it composes with the first through
`invariant_along`.

## Main results

* `exec_append` — runs compose
* `invariant` — an invariant kept by every step holds after every run
* `invariant_along` — the same, when only the steps that meet `C` keep it
-/

namespace DeltaBox

namespace Machine

variable {σ α : Type*}

/-- Follow the labels from a state. `none` as soon as a label is not enabled. -/
def exec (step : σ → α → Option σ) : σ → List α → Option σ
  | s, [] => some s
  | s, a :: as => (step s a).bind fun t => exec step t as

/-- Every step of the run meets `C` in the state before it. -/
def Along (step : σ → α → Option σ) (C : σ → α → Prop) : σ → List α → Prop
  | _, [] => True
  | s, a :: as => C s a ∧ ∀ t, step s a = some t → Along step C t as

variable {step : σ → α → Option σ} {C : σ → α → Prop} {s t : σ} {a : α} {as bs : List α}

@[simp] theorem exec_nil : exec step s [] = some t ↔ s = t := by simp [exec]

@[simp] theorem exec_cons :
    exec step s (a :: as) = some t ↔ ∃ u, step s a = some u ∧ exec step u as = some t := by
  simp [exec, Option.bind_eq_some_iff]

theorem exec_append :
    exec step s (as ++ bs) = some t ↔ ∃ u, exec step s as = some u ∧ exec step u bs = some t := by
  induction as generalizing s with
  | nil => simp
  | cons a as ih =>
    simp only [List.cons_append, exec_cons, ih]
    constructor
    · rintro ⟨v, hv, u, hu, ht⟩
      exact ⟨u, ⟨v, hv, hu⟩, ht⟩
    · rintro ⟨u, ⟨v, hv, hu⟩, ht⟩
      exact ⟨v, hv, u, hu, ht⟩

@[simp] theorem along_nil : Along step C s [] := trivial

@[simp] theorem along_cons :
    Along step C s (a :: as) ↔ C s a ∧ ∀ t, step s a = some t → Along step C t as := Iff.rfl

theorem along_append :
    Along step C s (as ++ bs) ↔
      Along step C s as ∧ ∀ t, exec step s as = some t → Along step C t bs := by
  induction as generalizing s with
  | nil => simp
  | cons a as ih =>
    simp only [List.cons_append, along_cons, exec_cons, ih]
    constructor
    · rintro ⟨hc, h⟩
      exact ⟨⟨hc, fun t ht => (h t ht).1⟩, fun t ⟨u, hu, ht⟩ => (h u hu).2 t ht⟩
    · rintro ⟨⟨hc, h⟩, hb⟩
      exact ⟨hc, fun t ht => ⟨h t ht, fun u hu => hb u ⟨t, ht, hu⟩⟩⟩

/-- Whether a concrete run meets a decidable condition can be evaluated. -/
instance decidableAlong [∀ s a, Decidable (C s a)] :
    ∀ (s : σ) (as : List α), Decidable (Along step C s as)
  | _, [] => isTrue trivial
  | s, a :: as =>
    match h : step s a with
    | none => decidable_of_iff (C s a) ⟨fun hc => ⟨hc, fun t ht => by simp [h] at ht⟩, And.left⟩
    | some t =>
      have := decidableAlong t as
      decidable_of_iff (C s a ∧ Along step C t as)
        ⟨fun hc => ⟨hc.1, fun u hu => Option.some.inj (h.symm.trans hu) ▸ hc.2⟩,
          fun hc => ⟨hc.1, hc.2 t h⟩⟩

/-- A weaker condition admits every run a stronger one does. -/
theorem Along.mono {D : σ → α → Prop} (hCD : ∀ s a, C s a → D s a) (h : Along step C s as) :
    Along step D s as := by
  induction as generalizing s with
  | nil => trivial
  | cons a as ih => exact ⟨hCD s a h.1, fun t ht => ih (h.2 t ht)⟩

theorem Along.and {D : σ → α → Prop} (hC : Along step C s as) (hD : Along step D s as) :
    Along step (fun s a => C s a ∧ D s a) s as := by
  induction as generalizing s with
  | nil => trivial
  | cons a as ih => exact ⟨⟨hC.1, hD.1⟩, fun t ht => ih (hC.2 t ht) (hD.2 t ht)⟩

/-- **The invariant rule for restricted runs.** It is enough that the steps which meet `C` keep
`I`. -/
theorem invariant_along {I : σ → Prop}
    (hstep : ∀ {s a t}, I s → C s a → step s a = some t → I t) (hs : I s)
    (hC : Along step C s as) (h : exec step s as = some t) : I t := by
  induction as generalizing s with
  | nil =>
    rw [exec_nil] at h
    exact h ▸ hs
  | cons a as ih =>
    obtain ⟨u, hu, ht⟩ := exec_cons.mp h
    exact ih (hstep hs hC.1 hu) (hC.2 u hu) ht

/-- **The invariant rule.** -/
theorem invariant {I : σ → Prop} (hstep : ∀ {s a t}, I s → step s a = some t → I t) (hs : I s)
    (h : exec step s as = some t) : I t := by
  have htrue : ∀ s, Along step (fun _ _ => True) s as := by
    clear h
    induction as with
    | nil => exact fun _ => trivial
    | cons a as ih => exact fun _ => ⟨trivial, fun t _ => ih t⟩
  exact invariant_along (fun hi _ => hstep hi) hs (htrue s) h

end Machine

end DeltaBox
