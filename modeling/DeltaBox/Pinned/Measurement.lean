import DeltaBox.Lib.Machine
import Mathlib.Data.List.Basic
import Mathlib.Logic.Function.Basic

/-!
# Pinned measurements

`run_pinned_measurement.main` runs a command with the frequency policies of its CPUs fixed
(`ae/scripts/run_pinned_measurement.py`). Below the lock of the node it takes the lock of each
policy, notes its state, writes the maximum, the minimum and the governor, and reads them back. A
`finally` clause ignores the three signals, stops what was started, and restores the noted policies,
the last one first.

## What is modelled

* A policy as its governor and its limits. The kernel rejects a write that would make the minimum
  exceed the maximum.
* Every operation of the `try` statement as a step, which can fail, also behind its effect, and
  before which a signal can arrive. The command itself is one step.
* Signals raise where their handler is the one of `main`, and do nothing where they are ignored.

The arguments have been checked, and the manifest is left out but for the errors in it. `wrote` says
which policies have been written to.
-/

namespace DeltaBox

namespace Pinned

/-- The state of a policy: its three files. -/
structure Freq where
  governor : String
  minFreq : ℕ
  maxFreq : ℕ
  deriving DecidableEq, Repr

/-- A write of `scaling_max_freq`. -/
def Freq.writeMax (f : Freq) (khz : ℕ) : Option Freq :=
  if f.minFreq ≤ khz then some { f with maxFreq := khz } else none

/-- A write of `scaling_min_freq`. -/
def Freq.writeMin (f : Freq) (khz : ℕ) : Option Freq :=
  if khz ≤ f.maxFreq then some { f with minFreq := khz } else none

/-- A write of `scaling_governor`. -/
def Freq.writeGovernor (f : Freq) (governor : String) : Freq := { f with governor }

/-- What the hardware allows. -/
structure Limits where
  cpuinfoMin : ℕ
  cpuinfoMax : ℕ

/-- `requested_frequency`. -/
def requestedFrequency (l : Limits) : Option ℕ → Option ℕ
  | none => some l.cpuinfoMax
  | some khz => if l.cpuinfoMin ≤ khz ∧ khz ≤ l.cpuinfoMax then some khz else none

/-- A policy within its limits. -/
structure Freq.Valid (l : Limits) (f : Freq) : Prop where
  lower : l.cpuinfoMin ≤ f.minFreq
  order : f.minFreq ≤ f.maxFreq
  upper : f.maxFreq ≤ l.cpuinfoMax

/-- The policies of a measurement, as they are found. `main` has checked the requested frequency. -/
structure Host where
  policies : List ℕ
  nodup : policies.Nodup
  limits : ℕ → Limits
  override : Option ℕ
  inRange : ∀ p ∈ policies, (requestedFrequency (limits p) override).isSome = true
  original : ℕ → Freq
  valid : ∀ p, (original p).Valid (limits p)

/-- The signals that `main` handles. -/
inductive Signal where
  | term
  | int
  | hup
  deriving DecidableEq, Repr

/-- The loop over the policies, for one of them. -/
inductive Op where
  | lock
  | readOld
  | request
  | save
  /-- `changed.append`. -/
  | note
  | writeMax
  | writeMin
  | writeGovernor
  | readBack
  deriving DecidableEq, Repr

def Op.next : Op → Option Op
  | .lock => some .readOld
  | .readOld => some .request
  | .request => some .save
  | .save => some .note
  | .note => some .writeMax
  | .writeMax => some .writeMin
  | .writeMin => some .writeGovernor
  | .writeGovernor => some .readBack
  | .readBack => none

/-- `restore`, and noting what is read behind it. -/
inductive Undo where
  /-- The minimum becomes the one of the hardware. -/
  | widen
  | writeMax
  | writeMin
  | writeGovernor
  | readBack
  | record
  deriving DecidableEq, Repr

def Undo.next : Undo → Option Undo
  | .widen => some .writeMax
  | .writeMax => some .writeMin
  | .writeMin => some .writeGovernor
  | .writeGovernor => some .readBack
  | .readBack => some .record
  | .record => none

/-- What a restoration error is about. -/
inductive Trouble where
  | child
  | monitor
  | policy (p : ℕ)
  deriving DecidableEq, Repr

/-- Where `main` is. -/
inductive Pc where
  /-- `acquire_node_lock`. -/
  | acquiring
  | applying (op : Op) (p : ℕ) (todo : List ℕ)
  | working
  /-- In the `except` clause. -/
  | handling
  /-- In the `finally` clause, with the signals that are still handled. -/
  | ignoring (left : List Signal)
  | stopping (left : List Trouble)
  | restoring (op : Undo) (p : ℕ) (old : Freq) (left : List (ℕ × Freq))
  /-- The last `save`. -/
  | reporting
  | unlocking
  /-- `main` has returned, or raised. -/
  | ended (returned : Bool)
  deriving DecidableEq, Repr

/-- `main`, and the policies. -/
structure State where
  pc : Pc
  hw : ℕ → Freq
  old : Freq
  requested : ℕ
  changed : List (ℕ × Freq)
  /-- The locks it has: of the node, and of policies. -/
  locks : List (Option ℕ)
  ignored : List Signal
  /-- An exception is on its way. -/
  raising : Bool
  errors : List Trouble
  wrote : List ℕ

/-- How an operation ends. -/
inductive Outcome where
  | ok
  | fault
  /-- It has its effect, and raises. -/
  | late
  deriving DecidableEq, Repr

/-- What happens next. -/
inductive Label where
  | run (outcome : Outcome)
  | signal (signal : Signal)
  deriving DecidableEq, Repr

/-- The start of the `try` statement. -/
def start (h : Host) : State where
  pc := .acquiring
  hw := h.original
  old := ⟨"", 0, 0⟩
  requested := 0
  changed := []
  locks := []
  ignored := []
  raising := false
  errors := []
  wrote := []

/-- An exception in the `try` block. -/
def State.raise (s : State) : State := { s with pc := .handling, raising := true }

def State.write (s : State) (p : ℕ) (f : Freq) : State :=
  { s with hw := Function.update s.hw p f, wrote := p :: s.wrote }

def nextPolicy : List ℕ → Pc
  | [] => .working
  | p :: todo => .applying .lock p todo

def nextUndo : List (ℕ × Freq) → Pc
  | [] => .reporting
  | e :: left => .restoring .widen e.1 e.2 left

/-- What an operation does, if nothing goes wrong. The kernel may reject it. -/
def State.apply (h : Host) (s : State) (p : ℕ) : Op → Option State
  | .lock => some { s with locks := some p :: s.locks }
  | .readOld => some { s with old := s.hw p }
  | .request => (requestedFrequency (h.limits p) h.override).map fun khz => { s with requested := khz }
  | .save => some s
  | .note => some { s with changed := s.changed ++ [(p, s.old)] }
  | .writeMax => ((s.hw p).writeMax s.requested).map (s.write p)
  | .writeMin => ((s.hw p).writeMin s.requested).map (s.write p)
  | .writeGovernor => some (s.write p ((s.hw p).writeGovernor "performance"))
  | .readBack => if s.hw p = ⟨"performance", s.requested, s.requested⟩ then some s else none

/-- The same in `restore`. -/
def State.undo (h : Host) (s : State) (p : ℕ) (old : Freq) : Undo → Option State
  | .widen => ((s.hw p).writeMin (h.limits p).cpuinfoMin).map (s.write p)
  | .writeMax => ((s.hw p).writeMax old.maxFreq).map (s.write p)
  | .writeMin => ((s.hw p).writeMin old.minFreq).map (s.write p)
  | .writeGovernor => some (s.write p ((s.hw p).writeGovernor old.governor))
  | .readBack => if s.hw p = old then some s else none
  | .record => some s

/-- An operation of the `try` block. -/
def State.tryOp (h : Host) (s : State) (op : Op) (p : ℕ) (todo : List ℕ) (o : Outcome) : State :=
  match o, s.apply h p op with
  | .ok, some s' => { s' with pc := op.next.elim (nextPolicy todo) fun op' => .applying op' p todo }
  | .late, some s' => s'.raise
  | _, _ => s.raise

/-- An operation of the `finally` clause: an error is noted, and the next policy comes. -/
def State.tryUndo (h : Host) (s : State) (op : Undo) (p : ℕ) (old : Freq) (left : List (ℕ × Freq))
    (o : Outcome) : State :=
  match o, s.undo h p old op with
  | .ok, some s' =>
    { s' with pc := op.next.elim (nextUndo left) fun op' => .restoring op' p old left }
  | .late, some s' => { s' with errors := s.errors ++ [.policy p], pc := nextUndo left }
  | _, _ => { s with errors := s.errors ++ [.policy p], pc := nextUndo left }

/-- One step. -/
def step (h : Host) (s : State) : Label → Option State
  | .run o =>
    match s.pc with
    | .acquiring =>
      if o = .ok then some { s with locks := [none], pc := nextPolicy h.policies } else some s.raise
    | .applying op p todo => some (s.tryOp h op p todo o)
    | .working =>
      if o = .ok then some { s with pc := .ignoring [.term, .int, .hup] } else some s.raise
    | .handling => some { s with pc := .ignoring [.term, .int, .hup] }
    | .ignoring (sig :: left) => some { s with ignored := sig :: s.ignored, pc := .ignoring left }
    | .ignoring [] => some { s with pc := .stopping [.child, .monitor] }
    | .stopping (x :: left) =>
      some { s with errors := if o = .ok then s.errors else s.errors ++ [x], pc := .stopping left }
    | .stopping [] => some { s with pc := nextUndo s.changed.reverse }
    | .restoring op p old left => some (s.tryUndo h op p old left o)
    | .reporting =>
      if o = .ok then some { s with pc := .unlocking }
      else some { s with pc := .ended false, locks := [] }
    | .unlocking =>
      some { s with
        pc := .ended (o = .ok && s.errors.isEmpty && !s.raising)
        locks := [] }
    | .ended _ => none
  | .signal sig =>
    match s.pc with
    | .acquiring | .applying .. | .working => some s.raise
    | .handling => some { s with pc := .ignoring [.term, .int, .hup] }
    | .ended _ => none
    | _ => if sig ∈ s.ignored then some s else some { s with pc := .ended false, locks := [] }

end Pinned

end DeltaBox
