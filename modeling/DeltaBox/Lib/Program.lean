import Mathlib.Data.List.Basic

/-!
# Programs that change a state and may raise

An exception of the modelled language does not undo anything: the handler, or the caller, sees the
state as the raising code left it. So a program over a state `σ` with exceptions `ε` is a function
that always returns a state, next to a value or an exception.

A `Triple` has two postconditions, one for a return and one for a raise. The second is the point of
the library: it is where "a call that fails has changed nothing" is said.

## Main definitions

* `Prog` — programs, with `Prog.raise`, `Prog.read`, `Prog.update`, `Prog.require`,
  `Prog.onlyIf`, `Prog.forEach`
* `Triple` — pre- and postconditions

## Main results

* `Triple.bind` — sequencing: the raise condition of both parts is the same
* `Triple.forEach`, `Triple.forEach_done`, `Triple.forEach_range` — a loop keeps its invariant
-/

namespace DeltaBox

/-- Code that reads and writes a state and may raise. -/
def Prog (σ ε α : Type) := σ → Except ε α × σ

namespace Prog

variable {σ ε α β : Type}

instance : Monad (Prog σ ε) where
  pure a := fun s => (.ok a, s)
  bind m f := fun s =>
    match m s with
    | (.ok a, t) => f a t
    | (.error e, t) => (.error e, t)

/-- `raise e`. -/
def raise (e : ε) : Prog σ ε α := fun s => (.error e, s)

/-- A read of the state. -/
def read (f : σ → α) : Prog σ ε α := fun s => (.ok (f s), s)

/-- A write to the state. -/
def update (f : σ → σ) : Prog σ ε Unit := fun s => (.ok (), f s)

/-- `if not c: raise e`. -/
def require (c : Bool) (e : ε) : Prog σ ε Unit := if c then pure () else raise e

/-- `if c: m`. -/
def onlyIf (c : Bool) (m : Prog σ ε Unit) : Prog σ ε Unit := if c then m else pure ()

/-- `for x in xs: f(x)`. -/
def forEach (f : α → Prog σ ε Unit) : List α → Prog σ ε Unit
  | [] => pure ()
  | x :: xs => do
    f x
    forEach f xs

theorem bind_of_ok {m : Prog σ ε α} {f : α → Prog σ ε β} {s t : σ} {a : α}
    (h : m s = (.ok a, t)) : (m >>= f) s = f a t := by
  change (match m s with | (.ok a, t) => f a t | (.error e, t) => (.error e, t)) = f a t
  rw [h]

theorem bind_of_error {m : Prog σ ε α} {f : α → Prog σ ε β} {s t : σ} {e : ε}
    (h : m s = (.error e, t)) : (m >>= f) s = (.error e, t) := by
  change (match m s with | (.ok a, t) => f a t | (.error e, t) => (.error e, t)) = (.error e, t)
  rw [h]

end Prog

/-- A return meets `Q`, a raise meets `E`. -/
def Ends {σ ε α : Type} (Q : α → σ → Prop) (E : ε → σ → Prop) : Except ε α × σ → Prop
  | (.ok a, t) => Q a t
  | (.error e, t) => E e t

/-- From a state in `P`, a return of `m` ends in `Q` and a raise in `E`. -/
def Triple {σ ε α : Type} (P : σ → Prop) (m : Prog σ ε α) (Q : α → σ → Prop)
    (E : ε → σ → Prop) : Prop :=
  ∀ s, P s → Ends Q E (m s)

namespace Triple

variable {σ ε α β : Type} {P P' : σ → Prop} {Q Q' : α → σ → Prop} {R : β → σ → Prop}
  {E E' : ε → σ → Prop} {m : Prog σ ε α} {f : α → Prog σ ε β}

theorem pure {a : α} (h : ∀ s, P s → Q a s) : Triple P (Pure.pure a) Q E := h

theorem raise {e : ε} (h : ∀ s, P s → E e s) : Triple P (Prog.raise e : Prog σ ε α) Q E := h

theorem read {g : σ → α} (h : ∀ s, P s → Q (g s) s) : Triple P (Prog.read g) Q E := h

theorem update {g : σ → σ} {Q : Unit → σ → Prop} (h : ∀ s, P s → Q () (g s)) :
    Triple P (Prog.update g) Q E := h

theorem require {c : Bool} {e : ε} {Q : Unit → σ → Prop} (hc : ∀ s, P s → c = true → Q () s)
    (he : ∀ s, P s → c = false → E e s) : Triple P (Prog.require c e) Q E := by
  intro s hs
  cases c
  · exact he s hs rfl
  · exact hc s hs rfl

theorem onlyIf {c : Bool} {m : Prog σ ε Unit} {Q : Unit → σ → Prop}
    (hm : c = true → Triple P m Q E) (hs : ∀ s, P s → c = false → Q () s) :
    Triple P (Prog.onlyIf c m) Q E := by
  cases c
  · exact fun s h => hs s h rfl
  · exact hm rfl

/-- **Sequencing.** -/
theorem bind (hm : Triple P m Q E) (hf : ∀ a, Triple (Q a) (f a) R E) :
    Triple P (m >>= f) R E := by
  intro s hs
  have hms := hm s hs
  change Ends R E (match m s with | (.ok a, t) => f a t | (.error e, t) => (.error e, t))
  generalize m s = r at hms ⊢
  obtain ⟨_ | a, t⟩ := r
  · exact hms
  · exact hf a t hms

theorem mono (hP : ∀ s, P' s → P s) (hQ : ∀ a s, Q a s → Q' a s) (hE : ∀ e s, E e s → E' e s)
    (h : Triple P m Q E) : Triple P' m Q' E' := by
  intro s hs
  have hms := h s (hP s hs)
  generalize m s = r at hms ⊢
  obtain ⟨_ | a, t⟩ := r
  · exact hE _ _ hms
  · exact hQ _ _ hms

/-- Two postconditions of the same run. -/
theorem and (h : Triple P m Q E) (h' : Triple P m Q' E') :
    Triple P m (fun a s => Q a s ∧ Q' a s) fun e s => E e s ∧ E' e s := by
  intro s hs
  have hms := h s hs
  have hms' := h' s hs
  generalize m s = r at hms hms' ⊢
  obtain ⟨_ | a, t⟩ := r
  · exact ⟨hms, hms'⟩
  · exact ⟨hms, hms'⟩

/-- A weaker precondition. -/
theorem pre (hP : ∀ s, P' s → P s) (h : Triple P m Q E) : Triple P' m Q E :=
  h.mono hP (fun _ _ hq => hq) fun _ _ he => he

/-- A precondition that does not hold. -/
theorem absurd (h : ∀ s, ¬ P s) : Triple P m Q E := fun s hs => (h s hs).elim

/-- The weakest postconditions. -/
theorem top : Triple P m (fun _ _ => True) fun _ _ => True := by
  intro s _
  rcases m s with ⟨_ | a, t⟩
  · exact True.intro
  · exact True.intro

/-- A fact that does not depend on the state. -/
theorem of_pure {p : Prop} (h : p → Triple P m Q E) : Triple (fun s => p ∧ P s) m Q E :=
  fun s hs => h hs.1 s hs.2

/-- **Loops.** -/
theorem forEach {γ : Type} {I : σ → Prop} {g : γ → Prog σ ε Unit} {xs : List γ}
    (h : ∀ x ∈ xs, Triple I (g x) (fun _ => I) E) : Triple I (Prog.forEach g xs) (fun _ => I) E := by
  induction xs with
  | nil => exact Triple.pure fun _ hs => hs
  | cons x xs ih =>
    refine Triple.bind (h x List.mem_cons_self) fun _ => ?_
    exact ih fun y hy => h y (List.mem_cons_of_mem x hy)

/-- **Loops** whose invariant knows what is done. -/
theorem forEach_done {γ : Type} {I : List γ → σ → Prop} {g : γ → Prog σ ε Unit} {xs : List γ}
    (h : ∀ pre x post, xs = pre ++ x :: post → Triple (I pre) (g x) (fun _ => I (pre ++ [x])) E) :
    Triple (I []) (Prog.forEach g xs) (fun _ => I xs) E := by
  have hfrom : ∀ pre post : List γ, xs = pre ++ post →
      Triple (I pre) (Prog.forEach g post) (fun _ => I xs) E := by
    intro pre post
    induction post generalizing pre with
    | nil =>
      rintro rfl
      rw [List.append_nil]
      exact Triple.pure fun _ hs => hs
    | cons x post ih =>
      intro hxs
      refine Triple.bind (h pre x post hxs) fun _ => ih _ ?_
      rw [hxs, List.append_assoc]
      rfl
  exact hfrom [] xs rfl

/-- **Counted loops.** -/
theorem forEach_range {I : ℕ → σ → Prop} {g : ℕ → Prog σ ε Unit} {n : ℕ}
    (h : ∀ k < n, Triple (I k) (g k) (fun _ => I (k + 1)) E) :
    Triple (I 0) (Prog.forEach g (List.range n)) (fun _ => I n) E := by
  have hdone : Triple (I 0) (Prog.forEach g (List.range n))
      (fun _ => I (List.range n).length) E := by
    refine forEach_done (I := fun done => I done.length) fun pre k post hxs => ?_
    have hlen := congrArg List.length hxs
    have hget := congrArg (·[pre.length]?) hxs
    simp only [List.length_range, List.length_append, List.length_cons] at hlen
    simp only [List.getElem?_append_right (Nat.le_refl _), Nat.sub_self, List.getElem?_cons_zero,
      List.getElem?_range (show pre.length < n by omega), Option.some.injEq] at hget
    subst hget
    rw [List.length_append]
    exact h _ (by omega)
  rwa [List.length_range] at hdone

/-- What a triple says about one execution that raises. -/
theorem of_error {s t : σ} {e : ε} (h : Triple P m Q E) (hs : P s) (hm : m s = (.error e, t)) :
    E e t := by
  have := h s hs
  rwa [hm] at this

/-- And about one that returns. -/
theorem of_ok {s t : σ} {a : α} (h : Triple P m Q E) (hs : P s) (hm : m s = (.ok a, t)) :
    Q a t := by
  have := h s hs
  rwa [hm] at this

end Triple

end DeltaBox
