import DeltaBox.Lib.Dict
import Mathlib.Data.List.Induction

/-!
# Schedules of checkpoints and restores

A schedule is read over states of any kind. A checkpoint does its operations to the current state and
saves what comes of it under its name, and a restore sets the current state to a saved one.

Where a checkpoint starts from can be told without the states: it is the name of the event before it.
That is what `replays_iff` says, and so a converter of schedules is judged by names alone. One
direction holds for all states; for the other it is enough to look at the states that are lists of
the names of the checkpoints.

## Main definitions

* `Event`, `replay` — a schedule and its reading
* `Valid` — each restore is to a checkpoint before it
* `lastId` — the name of the last event

## Main results

* `replay_valid` — a valid schedule can be replayed
* `replays_iff` — the current state is the saved one of a name, over all states, if and only if it is
  the name of the last event
-/

namespace DeltaBox

namespace Schedule

/-- A checkpoint with its operations, or a restore. -/
inductive Event (κ ε : Type*) where
  | ckpt (id : κ) (ops : ε)
  | restore (id : κ)
  deriving DecidableEq

variable {κ ε : Type*}

/-- The name of an event. -/
def Event.id : Event κ ε → κ
  | .ckpt id _ => id
  | .restore id => id

/-- The names of the checkpoints. -/
def ckptIds (es : List (Event κ ε)) : List κ :=
  es.filterMap fun
    | .ckpt id _ => some id
    | .restore _ => none

/-- The name of the last event. -/
def lastId (es : List (Event κ ε)) : Option κ := es.getLast?.map Event.id

/-- Each restore is to a checkpoint before it. -/
def Valid (es : List (Event κ ε)) : Prop :=
  ∀ pre id post, es = pre ++ .restore id :: post → id ∈ ckptIds pre

variable {es pre post : List (Event κ ε)} {id a : κ} {ops : ε}

@[simp] theorem ckptIds_append (es es' : List (Event κ ε)) :
    ckptIds (es ++ es') = ckptIds es ++ ckptIds es' := List.filterMap_append

@[simp] theorem ckptIds_ckpt (id : κ) (ops : ε) : ckptIds [.ckpt id ops] = [id] := rfl

@[simp] theorem ckptIds_restore (id : κ) : ckptIds [(.restore id : Event κ ε)] = [] := rfl

@[simp] theorem lastId_nil : lastId ([] : List (Event κ ε)) = none := rfl

@[simp] theorem lastId_concat (es : List (Event κ ε)) (e : Event κ ε) :
    lastId (es ++ [e]) = some e.id := by
  rw [lastId, List.getLast?_concat]
  rfl

/-! ### Valid schedules -/

/-- A place in a list that is longer by one is the last one, or it was there before. -/
theorem split_concat {β : Type*} {l pre post : List β} {x e : β} (h : l ++ [e] = pre ++ x :: post) :
    (pre = l ∧ x = e ∧ post = []) ∨ ∃ post', post = post' ++ [e] ∧ l = pre ++ x :: post' := by
  rcases List.eq_nil_or_concat' post with rfl | ⟨post', e', rfl⟩
  · obtain ⟨rfl, hlast⟩ := List.append_inj' h rfl
    exact .inl ⟨rfl, (List.cons.inj hlast).1.symm, rfl⟩
  · have hsplit : l ++ [e] = (pre ++ x :: post') ++ [e'] := by
      rw [h, List.append_assoc, List.cons_append]
    obtain ⟨hl, hlast⟩ := List.append_inj' hsplit rfl
    exact .inr ⟨post', by rw [(List.cons.inj hlast).1], hl⟩

theorem Valid.front (h : Valid (es ++ post)) : Valid es := by
  intro pre id rest hes
  exact h pre id (rest ++ post) (by rw [hes, List.append_assoc, List.cons_append])

theorem valid_nil : Valid ([] : List (Event κ ε)) := by
  intro pre id post h
  simp at h

/-- One more event. -/
theorem valid_concat {e : Event κ ε} :
    Valid (es ++ [e]) ↔ Valid es ∧ ∀ id, e = .restore id → id ∈ ckptIds es := by
  constructor
  · intro h
    exact ⟨h.front, fun id he => h es id [] (by rw [he])⟩
  · rintro ⟨hes, he⟩ pre id post hsplit
    rcases split_concat hsplit with ⟨rfl, hid, -⟩ | ⟨post', -, hes'⟩
    · exact he id hid.symm
    · exact hes pre id post' hes'

/-! ### Replaying -/

/-- The current state and the saved ones. -/
structure Memory (κ S : Type*) where
  current : S
  saved : Dict κ S

variable {S : Type*} [DecidableEq κ]

/-- One event. What a checkpoint's operations do may depend on which checkpoint it is. -/
def replayOne (effect : κ → ε → S → S) (m : Memory κ S) : Event κ ε → Option (Memory κ S)
  | .ckpt id ops =>
    some ⟨effect id ops m.current, m.saved.set id (effect id ops m.current)⟩
  | .restore id => (m.saved.find? id).map fun s => ⟨s, m.saved⟩

/-- The events one after the other. It is none when a restore finds nothing. -/
def replay (effect : κ → ε → S → S) : Memory κ S → List (Event κ ε) → Option (Memory κ S)
  | m, [] => some m
  | m, e :: es => (replayOne effect m e).bind fun m => replay effect m es

variable {effect : κ → ε → S → S} {m m' : Memory κ S}

theorem replay_append (es es' : List (Event κ ε)) :
    replay effect m (es ++ es') = (replay effect m es).bind fun m => replay effect m es' := by
  induction es generalizing m with
  | nil => rfl
  | cons e es ih =>
    rw [List.cons_append, replay, replay]
    cases replayOne effect m e with
    | none => rfl
    | some m => exact ih

theorem replay_concat (es : List (Event κ ε)) (e : Event κ ε) :
    replay effect m (es ++ [e]) = (replay effect m es).bind fun m => replayOne effect m e := by
  rw [replay_append]
  congr 1
  funext m
  rw [replay]
  cases replayOne effect m e <;> rfl

/-- What is saved has the name of a checkpoint, and each checkpoint is saved. -/
theorem replay_saved (h : replay effect m es = some m') (hm : m.saved = .empty) (k : κ) :
    k ∈ ckptIds es ↔ ∃ s, m'.saved.find? k = some s := by
  induction es using List.reverseRecOn generalizing m' with
  | nil =>
    obtain rfl := Option.some.inj h
    simp [hm, ckptIds]
  | append_singleton es e ih =>
    rw [replay_concat] at h
    obtain ⟨u, hu, hm'⟩ := Option.bind_eq_some_iff.mp h
    have hk := ih hu
    cases e with
    | ckpt id ops =>
      obtain rfl := Option.some.inj hm'
      simp only [ckptIds_append, ckptIds_ckpt, List.mem_append, List.mem_singleton, hk,
        Dict.find?_set]
      by_cases heq : k = id
      · simp [heq]
      · simp [heq]
    | restore id =>
      obtain ⟨s, -, rfl⟩ := Option.map_eq_some_iff.mp hm'
      simp only [ckptIds_append, ckptIds_restore, List.append_nil, hk]

/-- **A valid schedule can be replayed.** -/
theorem replay_valid (h : Valid es) (hm : m.saved = .empty) :
    ∃ m', replay effect m es = some m' := by
  induction es using List.reverseRecOn with
  | nil => exact ⟨m, rfl⟩
  | append_singleton es e ih =>
    obtain ⟨hes, he⟩ := valid_concat.mp h
    obtain ⟨u, hu⟩ := ih hes
    rw [replay_concat, hu]
    cases e with
    | ckpt id ops => exact ⟨_, rfl⟩
    | restore id =>
      obtain ⟨s, hs⟩ := (replay_saved hu hm id).mp (he id rfl)
      exact ⟨⟨s, u.saved⟩, by rw [Option.bind_some, replayOne, hs]; rfl⟩

/-- The current state is saved under the name of the last event. -/
theorem replay_last (h : replay effect m es = some m') (hlast : lastId es = some a) :
    m'.saved.find? a = some m'.current := by
  rcases List.eq_nil_or_concat' es with rfl | ⟨es, e, rfl⟩
  · cases hlast
  · obtain rfl : e.id = a := by simpa using hlast
    rw [replay_concat] at h
    obtain ⟨u, -, hm'⟩ := Option.bind_eq_some_iff.mp h
    cases e with
    | ckpt id ops =>
      obtain rfl := Option.some.inj hm'
      exact Dict.find?_set_self ..
    | restore id =>
      obtain ⟨s, hs, rfl⟩ := Option.map_eq_some_iff.mp hm'
      exact hs

/-- What is saved under a name changes at a checkpoint of this name only. -/
theorem replay_frame (h : replay effect m es = some m') (ha : a ∉ ckptIds es) :
    m'.saved.find? a = m.saved.find? a := by
  induction es using List.reverseRecOn generalizing m' with
  | nil =>
    obtain rfl := Option.some.inj h
    rfl
  | append_singleton es e ih =>
    rw [replay_concat] at h
    obtain ⟨u, hu, hm'⟩ := Option.bind_eq_some_iff.mp h
    rw [ckptIds_append, List.mem_append, not_or] at ha
    rw [← ih hu ha.1]
    cases e with
    | ckpt id ops =>
      obtain rfl := Option.some.inj hm'
      have hne : a ≠ id := fun heq => ha.2 (heq ▸ List.mem_cons_self)
      dsimp only
      rw [Dict.find?_set, if_neg hne]
    | restore id =>
      obtain ⟨s, -, rfl⟩ := Option.map_eq_some_iff.mp hm'
      rfl

/-- When the names are distinct, what is saved under one is what its checkpoint has left. -/
theorem replay_own {d d' : List (Event κ ε)} (hnd : (ckptIds (d ++ .ckpt a ops :: d')).Nodup)
    (h : replay effect m (d ++ .ckpt a ops :: d') = some m') :
    ∃ u, replay effect m (d ++ [.ckpt a ops]) = some u ∧ m'.saved.find? a = some u.current := by
  rw [List.append_cons] at h hnd
  rw [replay_append] at h
  obtain ⟨u, hu, hm'⟩ := Option.bind_eq_some_iff.mp h
  rw [ckptIds_append] at hnd
  have hin : a ∈ ckptIds (d ++ [.ckpt a ops]) := by
    rw [ckptIds_append]
    exact List.mem_append_right _ List.mem_cons_self
  refine ⟨u, hu, ?_⟩
  rw [replay_frame hm' fun hnot => List.disjoint_of_nodup_append hnd hin hnot]
  exact replay_last hu (lastId_concat ..)

/-! ### Names as states -/

/-- The state is the list of the checkpoints that have led to it. -/
def history (id : κ) (_ : ε) (s : List κ) : List κ := s ++ [id]

/-- A saved state ends with its own name. -/
theorem history_saved {m' : Memory κ (List κ)}
    (h : replay (history (ε := ε)) ⟨[], .empty⟩ es = some m') {s : List κ}
    (hs : m'.saved.find? a = some s) : s.getLast? = some a := by
  induction es using List.reverseRecOn generalizing m' s with
  | nil =>
    obtain rfl := Option.some.inj h
    cases hs
  | append_singleton es e ih =>
    rw [replay_concat] at h
    obtain ⟨u, hu, hm'⟩ := Option.bind_eq_some_iff.mp h
    cases e with
    | ckpt id ops =>
      obtain rfl := Option.some.inj hm'
      dsimp only at hs
      rw [Dict.find?_set] at hs
      split_ifs at hs with heq
      · rw [← Option.some.inj hs, heq]
        exact List.getLast?_concat
      · exact ih hu hs
    | restore id =>
      obtain ⟨s', -, rfl⟩ := Option.map_eq_some_iff.mp hm'
      exact ih hu hs

/-- **Names tell the states.** Before an event of a valid schedule, the current state is the one that
is saved under a name, whatever the states are, if and only if the event before has this name. -/
theorem replays_iff {κ ε : Type} [DecidableEq κ] {pre : List (Event κ ε)} (h : Valid pre)
    {a : κ} :
    (∀ (T : Type) (effect : κ → ε → T → T) (start : T), ∃ m,
      replay effect ⟨start, .empty⟩ pre = some m ∧ m.saved.find? a = some m.current) ↔
      lastId pre = some a := by
  constructor
  · intro hall
    obtain ⟨m, hm, hsaved⟩ := hall (List κ) history []
    cases hlast : lastId pre with
    | none =>
      obtain rfl : pre = [] := by simpa [lastId] using hlast
      obtain rfl := Option.some.inj hm
      cases hsaved
    | some b =>
      have hb := history_saved hm (replay_last hm hlast)
      rw [history_saved hm hsaved] at hb
      exact hb.symm
  · intro hlast T effect start
    have hm : ∃ m, replay effect ⟨start, .empty⟩ pre = some m := replay_valid h rfl
    obtain ⟨m, hm⟩ := hm
    exact ⟨m, hm, replay_last hm hlast⟩

end Schedule

end DeltaBox
