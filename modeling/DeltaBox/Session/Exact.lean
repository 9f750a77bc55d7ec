import DeltaBox.Session.Teardown
import Mathlib.Data.List.Nodup

/-!
# What a teardown kills

The word with the index 5 is the session if the name of the command has no blank in it. Otherwise it
is another field, or a part of the name, so that a process of the session may be missed, and one of
another session may be killed.

## Main results

* `teardown_iff` — when exactly the processes of the session are found
* `blanks_mislead` — a name with one blank is missed, and one with two is killed for its parent
-/

namespace DeltaBox

namespace Session

open Text

variable (digits : Digits)

/-! ### What is read -/

/-- The words of the name, in its parentheses. -/
def Process.nameWords (p : Process) : List (List Char) := words ('(' :: (p.comm ++ [')']))

/-- Whether the word with the index 5 says the session. A blank in the name moves the fields: with two
words the process group is read, with three the parent, with four the state, and with more a word of
the name. -/
def Process.ReadsOwn (sid : ℕ) (p : Process) : Prop :=
  match p.nameWords with
  | [] | [_] => True
  | [_, _] => p.pgrp = sid ↔ p.session = sid
  | [_, _, _] => p.ppid = sid ↔ p.session = sid
  | [_, _, _, _] => p.session ≠ sid
  | _ :: _ :: _ :: _ :: word :: _ => int digits word = some (sid : ℤ) ↔ p.session = sid

variable {digits} {p : Process} {sid : ℕ}

theorem words_append_blank (as bs : List Char) : words (as ++ ' ' :: bs) = words as ++ words bs := by
  rw [words, List.splitOnP_append_cons as bs (by decide), List.filter_append]
  rfl

theorem words_toDigits (n : ℕ) : words (Nat.toDigits 10 n) = [Nat.toDigits 10 n] :=
  words_singleton Nat.toDigits_ne_nil fun _ hc => isSpace_of_mem_toDigits (by decide) (by decide) hc

theorem words_letter {c : Char} (h : c.isAlpha = true) : words [c] = [[c]] := by
  refine words_singleton (by simp) fun d hd => ?_
  rw [List.mem_singleton.mp hd]
  have hrange : (65 ≤ c.toNat ∧ c.toNat ≤ 90) ∨ (97 ≤ c.toNat ∧ c.toNat ≤ 122) := by
    change (decide (65 ≤ c.val ∧ c.val ≤ 90) || (decide (97 ≤ c.val) && decide (c.val ≤ 122))) = true
      at h
    simp only [Bool.or_eq_true, Bool.and_eq_true, decide_eq_true_eq, UInt32.le_iff_toNat_le] at h
    exact h
  simp only [isSpace, isBreak, List.mem_cons, List.not_mem_nil, or_false, Bool.or_eq_false_iff,
    decide_eq_false_iff_not, Bool.and_eq_false_iff]
  omega

/-- The words of a line. -/
theorem words_stat : ∃ rest, words p.stat = Nat.toDigits 10 p.pid :: (p.nameWords ++
    [p.state] :: Nat.toDigits 10 p.ppid :: Nat.toDigits 10 p.pgrp :: Nat.toDigits 10 p.session ::
      rest) := by
  refine ⟨words ([' '].intercalate p.more ++ ['\n']), ?_⟩
  have hstate : p.state :: ' ' :: (Nat.toDigits 10 p.ppid ++ ' ' :: (Nat.toDigits 10 p.pgrp ++ ' ' ::
      (Nat.toDigits 10 p.session ++ ' ' :: ([' '].intercalate p.more ++ ['\n'])))) =
      [p.state] ++ ' ' :: (Nat.toDigits 10 p.ppid ++ ' ' :: (Nat.toDigits 10 p.pgrp ++ ' ' ::
        (Nat.toDigits 10 p.session ++ ' ' :: ([' '].intercalate p.more ++ ['\n'])))) := rfl
  rw [Process.stat, hstate, words_append_blank, words_append_blank, words_append_blank,
    words_append_blank, words_append_blank, words_append_blank, words_toDigits, words_toDigits,
    words_toDigits, words_toDigits, words_letter p.letter]
  rfl

/-- The name has a word: the one that begins with the parenthesis. -/
theorem nameWords_ne_nil : p.nameWords ≠ [] := by
  obtain ⟨first, rest, hsplit⟩ :=
    List.exists_cons_of_ne_nil (List.splitOnP_ne_nil isSpace (p.comm ++ [')']))
  have hpar : isSpace '(' = false := by decide
  rw [Process.nameWords, words, List.splitOnP_cons_eq_if_modifyHead, hpar, hsplit]
  simp

/-- The scan takes a process for its session if the name does not mislead it. -/
theorem matchesSid_iff : (matchesSid digits sid p = true ↔ p.session = sid) ↔ p.ReadsOwn digits sid := by
  obtain ⟨rest, hwords⟩ := words_stat (p := p)
  have hread : ∀ n : ℕ, int digits (Nat.toDigits 10 n) = some (sid : ℤ) ↔ n = sid := fun n => by
    rw [int_toDigits, Option.some_inj, Int.ofNat_inj]
  have hletter : int digits [p.state] = none := int_letter p.letter
  rw [matchesSid, Process.ReadsOwn, hwords]
  rcases hname : p.nameWords with _ | ⟨a, _ | ⟨b, _ | ⟨c, _ | ⟨d, _ | ⟨e, more⟩⟩⟩⟩⟩
  · exact absurd hname nameWords_ne_nil
  · simp [hread]
  · simp [hread]
  · simp [hread]
  · simp [hletter]
  · simp

/-! ### The scans -/

/-- A pid stands for its process. -/
theorem mem_findSessionPids {t : Table} (hp : p ∈ t.procs) :
    p.pid ∈ findSessionPids digits sid t ↔ matchesSid digits sid p = true := by
  constructor
  · intro h
    obtain ⟨q, hq, hpid⟩ := List.mem_map.mp h
    obtain ⟨hmem, hmatch⟩ := List.mem_filter.mp hq
    rwa [← List.inj_on_of_nodup_map t.nodup hmem hp hpid]
  · intro h
    exact List.mem_map_of_mem (List.mem_filter.mpr ⟨hp, h⟩)

/-- Both copies of the scan find the same. -/
theorem restoreScan_eq (t : Table) : restoreScan digits sid t = findSessionPids digits sid t := by
  rw [restoreScan, findSessionPids, ← List.filterMap_eq_map, List.filterMap_filter]
  refine List.filterMap_congr fun q _ => ?_
  rw [matchesSid]
  cases hword : (words q.stat)[5]? with
  | none => simp
  | some word =>
    obtain ⟨hlen, -⟩ := List.getElem?_eq_some_iff.mp hword
    simp [hlen]

theorem restoreWait_eq (ts : List Table) :
    restoreWait digits sid ts = waitSessionEmpty digits sid ts := by
  induction ts with
  | nil => rfl
  | cons t ts ih =>
    rw [restoreWait, waitSessionEmpty, ih, restoreScan_eq]
    simp only [Bool.not_eq_eq_eq_not, Bool.not_false, List.isEmpty_iff]

/-- The group of the root. -/
theorem mem_killGroup {root : ℕ} {t : Table} (hp : p ∈ t.procs) :
    p.pid ∈ killGroup root t ↔ ∃ r ∈ t.procs, r.pid = root ∧ p.pgrp = r.pgrp := by
  rw [killGroup]
  cases hfind : t.procs.find? (·.pid = root) with
  | none =>
    have hnone := List.find?_eq_none.mp hfind
    simp only [List.not_mem_nil, false_iff]
    rintro ⟨r, hr, hpid, -⟩
    exact absurd (decide_eq_true hpid) (hnone r hr)
  | some r =>
    have hr := List.mem_of_find?_eq_some hfind
    have hpid : r.pid = root := by simpa using List.find?_some hfind
    constructor
    · intro h
      obtain ⟨q, hq, heq⟩ := List.mem_map.mp h
      obtain ⟨hmem, hgroup⟩ := List.mem_filter.mp hq
      obtain rfl := List.inj_on_of_nodup_map t.nodup hmem hp heq
      exact ⟨r, hr, hpid, of_decide_eq_true hgroup⟩
    · rintro ⟨r', hr', hpid', hgroup⟩
      obtain rfl := List.inj_on_of_nodup_map t.nodup hr' hr (hpid'.trans hpid.symm)
      exact List.mem_map_of_mem (List.mem_filter.mpr ⟨hp, decide_eq_true hgroup⟩)

/-! ### Teardowns -/

/-- The scan of one table is exact: what `kill_session_tree` and the copy in `restore` signal are the
processes of the session, and a round of `wait_session_empty` signals these or there are none. -/
structure Exact (digits : Digits) (root : ℕ) (t : Table) : Prop where
  kill : ∀ before, ∀ p ∈ t.procs,
    p.pid ∈ (killSessionTree digits root before t).2 ↔ p.session = root
  restore : ∀ before ts, ∀ p ∈ t.procs,
    p.pid ∈ (restoreKill digits root before t ts).1.2 ↔ p.session = root
  wait : (waitSessionEmpty digits root [t]).2 = true ↔ ∀ p ∈ t.procs, p.session ≠ root

/-- The rounds signal nothing but processes of the session, and they are over early only when there
is none left. -/
def WaitExact (root : ℕ) (ts : List Table) (r : List (List ℕ) × Bool) : Prop :=
  ∃ done rest, ts = done ++ rest ∧
    r.1.length = done.length ∧
    (∀ round ∈ done.zip r.1, ∀ p ∈ round.1.procs, p.pid ∈ round.2 ↔ p.session = root) ∧
    (r.2 = true → ∃ t after, rest = t :: after ∧ ∀ p ∈ t.procs, p.session ≠ root) ∧
    (r.2 = false → rest = [])

theorem findSessionPids_eq_nil {root : ℕ} {t : Table}
    (h : ∀ p ∈ t.procs, (p.pid ∈ findSessionPids digits root t ↔ p.session = root)) :
    findSessionPids digits root t = [] ↔ ∀ p ∈ t.procs, p.session ≠ root := by
  constructor
  · intro hnil p hp hsession
    have hmem := (h p hp).mpr hsession
    rw [hnil] at hmem
    cases hmem
  · intro hnone
    rw [List.eq_nil_iff_forall_not_mem]
    intro pid hpid
    obtain ⟨p, hp, rfl⟩ := List.mem_map.mp hpid
    have hmem := (List.mem_filter.mp hp).1
    exact hnone p hmem ((h p hmem).mp hpid)

theorem waitExact_of_scan {root : ℕ} {ts : List Table}
    (h : ∀ t ∈ ts, ∀ p ∈ t.procs, (p.pid ∈ findSessionPids digits root t ↔ p.session = root)) :
    WaitExact root ts (waitSessionEmpty digits root ts) := by
  induction ts with
  | nil => exact ⟨[], [], rfl, rfl, fun round hround => (by cases hround), fun h => (by cases h),
      fun _ => rfl⟩
  | cons t ts ih =>
    have ht := h t List.mem_cons_self
    rw [waitSessionEmpty]
    split_ifs with hnil
    · refine ⟨[], t :: ts, rfl, rfl, fun round hround => (by cases hround), fun _ => ?_, fun h => ?_⟩
      · exact ⟨t, ts, rfl, (findSessionPids_eq_nil ht).mp hnil⟩
      · cases h
    · obtain ⟨done, rest, rfl, hlen, hrounds, hearly, hlate⟩ :=
        ih fun u hu => h u (List.mem_cons_of_mem t hu)
      refine ⟨t :: done, rest, rfl, congrArg (· + 1) hlen, fun round hround => ?_, hearly, hlate⟩
      rcases List.mem_cons.mp hround with rfl | hround
      · exact ht
      · exact hrounds round hround

/-- **When a teardown hits exactly the session.** The group that is killed is the one of the root. For
a table the scans are exact if and only if every name leaves the session, or what is read instead, to
say the same, and in this case the waiting is exact over all rounds, in both copies. -/
theorem teardown_iff (digits : Digits) (root : ℕ) (t : Table) :
    (∀ p ∈ t.procs, p.pid ∈ (killSessionTree digits root t t).1 ↔
      ∃ r ∈ t.procs, r.pid = root ∧ p.pgrp = r.pgrp) ∧
    (Exact digits root t ↔ ∀ p ∈ t.procs, p.ReadsOwn digits root) ∧
    ∀ before ts, (∀ u ∈ ts, ∀ p ∈ u.procs, p.ReadsOwn digits root) →
      WaitExact root ts (waitSessionEmpty digits root ts) ∧
        WaitExact root ts (restoreKill digits root before t ts).2 := by
  have hscan : ∀ {u : Table}, (∀ p ∈ u.procs, p.ReadsOwn digits root) →
      ∀ p ∈ u.procs, (p.pid ∈ findSessionPids digits root u ↔ p.session = root) :=
    fun h p hp => (mem_findSessionPids hp).trans (matchesSid_iff.mpr (h p hp))
  refine ⟨fun p hp => mem_killGroup hp, ⟨fun h p hp => ?_, fun h => ?_⟩, fun before ts h => ?_⟩
  · exact matchesSid_iff.mp ((mem_findSessionPids hp).symm.trans (h.kill t p hp))
  · refine ⟨fun _ => hscan h, fun _ _ p hp => ?_, ?_⟩
    · show p.pid ∈ restoreScan digits root t ↔ _
      rw [restoreScan_eq]
      exact hscan h p hp
    · rw [← findSessionPids_eq_nil (hscan h), waitSessionEmpty]
      split_ifs with hnil
      · exact iff_of_true rfl hnil
      · exact iff_of_false (by simp [waitSessionEmpty]) hnil
  · have hwait := waitExact_of_scan fun u hu => hscan (h u hu)
    refine ⟨hwait, ?_⟩
    rw [restoreKill, restoreWait_eq]
    exact hwait

/-- The agent, with its own session and group. -/
def agent : Process := ⟨7, "agent".toList, 'S', 1, 7, 7, [], rfl⟩

/-- One of its session, in a group of its own. -/
def tmux : Process := ⟨60, "tmux: server".toList, 'S', 1, 60, 7, [], rfl⟩

/-- A child that has begun a session of its own. -/
def devServer : Process := ⟨50, "my dev server".toList, 'S', 7, 50, 50, [], rfl⟩

/-- The process of the session is not killed and the other one is, and nobody waits for what is
left. -/
theorem blanks_mislead :
    killSessionTree asciiDigits 7 ⟨[agent, tmux, devServer], by decide⟩
        ⟨[agent, tmux, devServer], by decide⟩ = ([7], [7, 50]) ∧
      waitSessionEmpty asciiDigits 7 [⟨[tmux], by decide⟩] = ([], true) ∧
      tmux.session = 7 ∧ devServer.session ≠ 7 ∧ devServer.pgrp ≠ 7 := by
  refine ⟨?_, ?_, ?_⟩ <;> decide +kernel

end Session

end DeltaBox
