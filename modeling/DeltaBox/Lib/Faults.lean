import DeltaBox.Lib.Program

/-!
# Programs that may fail or be killed at any step

A system call succeeds, or it fails and has done a part of its work, or something strikes before or
after it: an exception from elsewhere, or the end of the process. The list of what happens is part of
the state, and each system call takes the next item. When the list is at its end, all goes well.

A handler catches every exception, but it does not run when the process is killed.

## Main definitions

* `Faults.sys` — a system call
* `Faults.handle` — `except BaseException`, whose handler raises again
* `Faults.On` — a property of the files

## Main results

* `Faults.triple_sys`, `Faults.triple_handle` — the rules
-/

namespace DeltaBox

namespace Faults

variable {φ ℓ ε α : Type}

/-- What happens at a system call. When it fails, `left` says which part of its work is done. -/
inductive Event (ℓ ε : Type) where
  | ok
  | fails (left : ℓ) (e : ε)
  /-- Something is raised, before it or after it. -/
  | raises (after : Bool) (e : ε)
  | killed (after : Bool)
  /-- The process is killed in the middle. -/
  | killedWithin (left : ℓ)
  deriving DecidableEq

/-- What ends a program early. -/
inductive Ended (ε : Type) where
  | error (e : ε)
  | killed
  deriving DecidableEq

/-- The files, and what happens. -/
structure World (φ ℓ ε : Type) where
  files : φ
  events : List (Event ℓ ε)

/-- A system call. `full` is what it does, and `part` what a failing one does. -/
def sys (full : φ → φ) (part : ℓ → φ → φ) : Prog (World φ ℓ ε) (Ended ε) Unit := fun w =>
  match w.events with
  | [] => (.ok (), { w with files := full w.files })
  | .ok :: es => (.ok (), ⟨full w.files, es⟩)
  | .fails left e :: es => (.error (.error e), ⟨part left w.files, es⟩)
  | .raises false e :: es => (.error (.error e), ⟨w.files, es⟩)
  | .raises true e :: es => (.error (.error e), ⟨full w.files, es⟩)
  | .killed false :: es => (.error .killed, ⟨w.files, es⟩)
  | .killed true :: es => (.error .killed, ⟨full w.files, es⟩)
  | .killedWithin left :: es => (.error .killed, ⟨part left w.files, es⟩)

/-- A system call that changes no files, or several of them. -/
def probe : Prog (World φ ℓ ε) (Ended ε) Unit := sys id fun _ => id

/-- A look at the files. -/
def look (f : φ → α) : Prog (World φ ℓ ε) (Ended ε) α := Prog.read fun w => f w.files

/-- `raise e`. -/
def throw (e : ε) : Prog (World φ ℓ ε) (Ended ε) α := Prog.raise (.error e)

/-- `if not c: raise e`. -/
def check (c : Bool) (e : ε) : Prog (World φ ℓ ε) (Ended ε) Unit := Prog.require c (.error e)

/-- `try: m`, `except BaseException as e: h(e); raise`. -/
def handle (m : Prog (World φ ℓ ε) (Ended ε) α) (h : ε → Prog (World φ ℓ ε) (Ended ε) Unit) :
    Prog (World φ ℓ ε) (Ended ε) α := fun w =>
  match m w with
  | (.ok a, w) => (.ok a, w)
  | (.error .killed, w) => (.error .killed, w)
  | (.error (.error e), w) =>
    match h e w with
    | (.ok (), w) => (.error (.error e), w)
    | (.error e', w) => (.error e', w)

/-- A property of the files. -/
def On (P : φ → Prop) (w : World φ ℓ ε) : Prop := P w.files

variable {P E : φ → Prop} {Q : α → φ → Prop}

/-- **A system call.** -/
theorem triple_sys {full : φ → φ} {part : ℓ → φ → φ} {Q : φ → Prop}
    (hfull : ∀ f, P f → Q (full f)) (hbefore : ∀ f, P f → E f) (hafter : ∀ f, P f → E (full f))
    (hpart : ∀ f left, P f → E (part left f)) :
    Triple (On P) (sys (ε := ε) full part) (fun _ => On Q) fun _ => On E := by
  rintro ⟨f, events⟩ hf
  rcases events with _ | ⟨_ | ⟨left, e⟩ | ⟨_ | _, e⟩ | ⟨_ | _⟩ | ⟨left⟩, es⟩
  · exact hfull f hf
  · exact hfull f hf
  · exact hpart f left hf
  · exact hbefore f hf
  · exact hafter f hf
  · exact hbefore f hf
  · exact hafter f hf
  · exact hpart f left hf

theorem triple_probe (h : ∀ f, P f → E f) :
    Triple (On P) (probe : Prog (World φ ℓ ε) (Ended ε) Unit) (fun _ => On P) fun _ => On E :=
  triple_sys (fun _ hf => hf) h h fun f _ hf => h f hf

/-- What is seen is what there is. -/
theorem triple_look {g : φ → α} :
    Triple (On P) (look g : Prog (World φ ℓ ε) (Ended ε) α) (fun a => On fun f => P f ∧ a = g f)
      fun _ => On E :=
  fun _ hw => ⟨hw, rfl⟩

theorem triple_throw {e : ε} (h : ∀ f, P f → E f) :
    Triple (On P) (throw e : Prog (World φ ℓ ε) (Ended ε) α) (fun a => On (Q a)) fun _ => On E :=
  fun w hw => h w.files hw

theorem triple_check {c : Bool} {e : ε} (h : ∀ f, P f → E f) :
    Triple (On P) (check c e : Prog (World φ ℓ ε) (Ended ε) Unit)
      (fun _ => On fun f => P f ∧ c = true) fun _ => On E :=
  Triple.require (fun _ hw hc => ⟨hw, hc⟩) fun w hw _ => h w.files hw

/-- When it does not matter what is checked. -/
theorem triple_check' {c : Bool} {e : ε} (h : ∀ f, P f → E f) :
    Triple (On P) (check c e : Prog (World φ ℓ ε) (Ended ε) Unit) (fun _ => On P) fun _ => On E :=
  (triple_check h).mono (fun _ hw => hw) (fun _ _ hw => hw.1) fun _ _ hw => hw

/-- **A handler.** -/
theorem triple_handle {m : Prog (World φ ℓ ε) (Ended ε) α}
    {h : ε → Prog (World φ ℓ ε) (Ended ε) Unit} {R : φ → Prop}
    (hm : Triple (On P) m (fun a => On (Q a)) fun _ => On R)
    (hh : ∀ e, Triple (On R) (h e) (fun _ => On E) fun _ => On E) (hkilled : ∀ f, R f → E f) :
    Triple (On P) (handle m h) (fun a => On (Q a)) fun _ => On E := by
  intro w hw
  have hmw := hm w hw
  unfold handle
  generalize m w = r at hmw ⊢
  obtain ⟨_ | a, w'⟩ := r
  · rename_i e
    cases e with
    | killed => exact hkilled w'.files hmw
    | error e =>
      have hhw := hh e w' hmw
      dsimp only
      generalize h e w' = r' at hhw ⊢
      obtain ⟨_ | ⟨⟩, w''⟩ := r'
      · exact hhw
      · exact hhw
  · exact hmw

end Faults

end DeltaBox
