import DeltaBox.Completion.Strict

/-!
# What the repairs make of a response

The two repairs run one after the other over the same block: the first does not move it, because the
pattern looks no further than its first brace.

## Main results

* `Completion.repairs_action_json` — relaxed arguments come out as strict ones of the same value,
  strict arguments as they are, and the text in front of them as it is
-/

namespace DeltaBox

namespace Completion

open Json OverList

variable {cls : CharClass} {text front block : List Char}

/-! ### What each loop does to a whole text -/

/-- The loop only adds to what it has put out. -/
theorem foldl_escapeStep_out (cs : List Char) (s : EscapeState) :
    (cs.foldl escapeStep s).out =
      s.out ++ (cs.foldl escapeStep ⟨[], s.inStr, s.escape, s.changed⟩).out := by
  induction cs generalizing s with
  | nil => simp
  | cons c cs ih =>
    have hstep : ∃ new, (escapeStep s c).out = s.out ++ new ∧
        escapeStep ⟨[], s.inStr, s.escape, s.changed⟩ c = ⟨new, (escapeStep s c).inStr,
          (escapeStep s c).escape, (escapeStep s c).changed⟩ := by
      unfold escapeStep
      split_ifs <;> exact ⟨_, rfl, rfl⟩
    obtain ⟨new, hout, hfresh⟩ := hstep
    rw [List.foldl_cons, List.foldl_cons, ih, hout, hfresh, ih ⟨new, _, _, _⟩, List.append_assoc]

/-- A loop that has changed nothing has put out what it read. -/
theorem out_of_unchanged {cs : List Char} {s : EscapeState}
    (h : (cs.foldl escapeStep s).changed = false) :
    s.changed = false ∧ (cs.foldl escapeStep s).out = s.out ++ cs := by
  induction cs generalizing s with
  | nil => exact ⟨h, by simp⟩
  | cons c cs ih =>
    obtain ⟨hchanged, hout⟩ := ih (s := escapeStep s c) h
    have hstep : (escapeStep s c).changed = false →
        s.changed = false ∧ (escapeStep s c).out = s.out ++ [c] := by
      unfold escapeStep
      split_ifs <;> intro hfalse <;> first | exact ⟨hfalse, rfl⟩ | cases hfalse
    obtain ⟨hs, hone⟩ := hstep hchanged
    refine ⟨hs, ?_⟩
    rw [List.foldl_cons, hout, hone, List.append_assoc]
    rfl

/-- What the first loop puts out for a block. -/
def escaped (block : List Char) : List Char :=
  (block.foldl escapeStep ⟨[], false, false, false⟩).out

theorem escapeControls_eq (h : actionJson text = some (front, block)) :
    escapeControls text = front ++ escaped block := by
  rw [escapeControls, h]
  dsimp only
  split_ifs with hchanged
  · rfl
  · have hout := (out_of_unchanged (eq_false_of_ne_true hchanged)).2
    rw [(of_actionJson h).1, escaped, hout]
    rfl

theorem escaped_of_escapes {t' : List Char} (h : Escapes block t') : escaped block = t' := by
  obtain ⟨changed, hrun⟩ := h [] false
  rw [escaped, hrun]
  rfl

/-- The first loop leaves everything up to the first brace. -/
theorem escaped_front {w : List Char} (hw : '"' ∉ w) (r : List Char) :
    ∃ r', escaped (w ++ '{' :: r) = w ++ '{' :: r' := by
  have hfront : Escapes (w ++ ['{']) (w ++ ['{']) := escapes_of_notMem (by simp [hw])
  obtain ⟨changed, hrun⟩ := hfront [] false
  have hsplit : w ++ '{' :: r = (w ++ ['{']) ++ r := by simp
  refine ⟨(r.foldl escapeStep ⟨[], false, false, changed⟩).out, ?_⟩
  rw [escaped, hsplit, List.foldl_append, hrun, foldl_escapeStep_out, List.nil_append,
    List.append_assoc]
  rfl

theorem repairLoop_of_unchanged {cs : List Char} {prev : Option Char} {inStr escape : Bool}
    (h : (repairLoop cls 0 prev inStr escape cs).2 = false) :
    (repairLoop cls 0 prev inStr escape cs).1 = cs := by
  induction cs generalizing prev inStr escape with
  | nil => cases inStr <;> rfl
  | cons c cs ih =>
    cases inStr with
    | true =>
      rw [repairLoop] at h ⊢
      dsimp only at h ⊢
      split_ifs at h ⊢
      all_goals rw [ih h]
    | false =>
      rw [repairLoop] at h ⊢
      split_ifs at h ⊢ with hquote
      · exact congrArg _ (ih h)
      · exact congrArg _ (ih h)

/-- What the second loop puts out for a block. -/
def repaired (cls : CharClass) (block : List Char) : List Char :=
  (repairLoop cls 0 none false false block).1

theorem repairLiterals_eq (h : actionJson text = some (front, block)) :
    repairLiterals cls text = front ++ repaired cls block := by
  rw [repairLiterals, h]
  dsimp only
  split_ifs with hchanged
  · rfl
  · rw [repaired, repairLoop_of_unchanged (eq_false_of_ne_true hchanged)]
    exact (of_actionJson h).1

theorem repaired_of_repairs {t' : List Char} (h : Repairs cls block t') :
    repaired cls block = t' := by
  have hrun := h none [] ⟨fun _ => rfl, fun _ => rfl⟩
  rw [List.append_nil] at hrun
  rw [repaired, hrun]
  cases block.getLast?.or none <;> simp [repairLoop]

/-- **The block stays where it is** when the first repair has run. -/
theorem actionJson_escapeControls (h : actionJson text = some (front, block)) :
    actionJson (front ++ escaped block) = some (front, escaped block) := by
  obtain ⟨htext, -, w, r, rfl, hw⟩ := of_actionJson h
  have hquote : '"' ∉ w := fun hmem => by
    have hspace := (hw '"' hmem).1
    revert hspace
    decide
  obtain ⟨r', hr'⟩ := escaped_front hquote r
  rw [hr']
  rw [htext] at h
  exact actionJson_replace h r'

/-! ### The result -/

/-- **The repairs turn relaxed arguments into strict ones of the same value.** They leave strict
arguments alone, and the text in front of the arguments whatever these are. -/
theorem repairs_action_json (cls : CharClass) {text front block : List Char}
    (h : actionJson text = some (front, block)) :
    (∀ v, IsText relaxed block v → ∃ block',
      repairLiterals cls (escapeControls text) = front ++ block' ∧ IsText strict block' v) ∧
    (∀ v, IsText strict block v →
      escapeControls text = text ∧ repairLiterals cls text = text) ∧
    (∃ block', escapeControls text = front ++ block') ∧
    (∃ block', repairLiterals cls text = front ++ block') ∧
    ∃ block', repairLiterals cls (escapeControls text) = front ++ block' := by
  have hagain := actionJson_escapeControls h
  have htwice : repairLiterals cls (escapeControls text) =
      front ++ repaired cls (escaped block) := by
    rw [escapeControls_eq h, repairLiterals_eq hagain]
  refine ⟨fun v hv => ?_, fun v hv => ?_, ⟨_, escapeControls_eq h⟩, ⟨_, repairLiterals_eq h⟩,
    ⟨_, htwice⟩⟩
  · obtain ⟨t, hescapes, hreads, -⟩ := escapes_reads hv
    obtain ⟨t', hrepairs, hreads', -⟩ : ∃ t', Repairs cls t t' ∧ _ ∧ _ := repairs_reads hreads
    refine ⟨t', ?_, hreads'⟩
    rw [htwice, escaped_of_escapes hescapes, repaired_of_repairs hrepairs]
  · obtain ⟨t, hescapes, -, hsame⟩ := escapes_reads hv
    obtain ⟨t', hrepairs, -, hsame'⟩ : ∃ t', Repairs cls block t' ∧ _ ∧ _ := repairs_reads hv
    rw [escapeControls_eq h, repairLiterals_eq h, escaped_of_escapes hescapes,
      repaired_of_repairs hrepairs, hsame rfl, hsame' rfl, (of_actionJson h).1]
    exact ⟨rfl, rfl⟩

/-- The letters and digits of ASCII, and no others. -/
def asciiClass : CharClass where
  isalnum := Char.isAlphanum
  ascii := fun _ _ => rfl

/-- Arguments with a Python word and a bare tab. -/
def relaxedArguments : List Char :=
  ['{', '"', 'a', '\t', '"', ':', ' ', 'N', 'o', 'n', 'e', '}']

theorem relaxedArguments_isText :
    IsText relaxed relaxedArguments (.obj [([97, 9], .null)]) := by
  have hblank : IsBlank [] := fun c hc => nomatch hc
  have hspace : IsBlank [' '] := by decide
  have hkey : Body true ['a', '\t'] [97, 9] :=
    .plain (by decide) (by decide) (by decide) (.bare rfl (by decide) .nil)
  have hnone : Reads relaxed ([' '] ++ (['N', 'o', 'n', 'e'] ++ [])) (.elements [.null]) :=
    .element hspace (.word (.pyNone rfl)) hblank
  have hobj := Reads.obj (Reads.member hblank hkey hblank hnone)
  exact .element hblank hobj hblank

theorem repairs_action_json_look : ∃ block',
    repairLiterals asciiClass (escapeControls
      ("I look.\n".toList ++ (actionLine ['B', 'a', 's', 'h'] ++ relaxedArguments))) =
      "I look.\n".toList ++ actionLine ['B', 'a', 's', 'h'] ++ block' ∧
      IsText strict block' (.obj [([97, 9], .null)]) :=
  (repairs_action_json asciiClass (actionJson_of_actionLine (by decide) (.inr (by decide))
    ⟨'B', ['a', 's', 'h'], rfl, by decide, by decide⟩ _)).1 _ relaxedArguments_isText

/-- Arguments that are no object. -/
def arrayArguments : List Char := ['[', 'T', 'r', 'u', 'e', ']']

/-- The pattern asks for a brace, so an array is not repaired. -/
theorem array_not_repaired :
    IsText relaxed arrayArguments (.arr [.bool true]) ∧
    repairLiterals asciiClass (escapeControls (actionLine ['F', 'i', 'n'] ++ arrayArguments)) =
      actionLine ['F', 'i', 'n'] ++ arrayArguments ∧
    ∀ v, ¬ IsText strict arrayArguments v := by
  refine ⟨?_, by decide +kernel, fun v hv => ?_⟩
  · have hblank : IsBlank [] := fun c hc => nomatch hc
    have htrue : Reads relaxed ([] ++ (['T', 'r', 'u', 'e'] ++ [])) (.elements [.bool true]) :=
      .element hblank (.word (.pyTrue rfl)) hblank
    exact .element hblank (.arr htrue) hblank
  · -- the second loop would have left a strict text alone
    obtain ⟨t', hrepairs, -, hsame⟩ : ∃ t', Repairs asciiClass arrayArguments t' ∧ _ ∧ _ :=
      repairs_reads hv
    have hrun := repaired_of_repairs hrepairs
    rw [hsame rfl] at hrun
    revert hrun
    decide +kernel

end Completion

end DeltaBox
