import Mathlib.Data.List.Nodup
import Mathlib.Logic.Function.Basic

/-!
# Insertion-ordered dictionaries

The dictionaries of the modelled language: a key occurs once, iteration follows first insertion,
overwriting a key keeps its position, and a key that is removed and inserted again moves to the
end. Uniqueness of keys is a field of the structure, so no lemma has to assume it.

## Main definitions

* `Dict.find?`, `Dict.set`, `Dict.erase`, `Dict.keep`

## Main results

* `Dict.find?_eq_some_iff` — a lookup is membership of the pair
* `Dict.find?_set`, `Dict.find?_erase`, `Dict.find?_keep` — lookups after an update
* `Dict.perm_erase`, `Dict.entries_keep_drop` — what an update leaves
* `Dict.map_set`, `Dict.map_erase`, `Dict.map_update` — updates of a dictionary of references
-/

namespace DeltaBox

/-- A dictionary: its pairs in iteration order, with distinct keys. -/
structure Dict (κ α : Type*) where
  /-- The pairs, oldest key first. -/
  entries : List (κ × α)
  /-- No key occurs twice. -/
  nodup : (entries.map Prod.fst).Nodup

namespace Dict

variable {κ α : Type*}

/-- The empty dictionary. -/
def empty : Dict κ α := ⟨[], List.nodup_nil⟩

/-- The keys in iteration order. -/
def keys (d : Dict κ α) : List κ := d.entries.map Prod.fst

/-- The values in iteration order. -/
def values (d : Dict κ α) : List α := d.entries.map Prod.snd

@[ext] theorem ext {d e : Dict κ α} (h : d.entries = e.entries) : d = e := by
  cases d
  cases e
  simpa using h

variable [DecidableEq κ]

/-- `d.get(k)`. -/
def find? (d : Dict κ α) (k : κ) : Option α := d.entries.lookup k

/-- A lookup succeeds with `v` exactly when the pair is in the dictionary. -/
theorem find?_eq_some_iff {d : Dict κ α} {k : κ} {v : α} :
    d.find? k = some v ↔ (k, v) ∈ d.entries := by
  obtain ⟨l, hl⟩ := d
  simp only [find?]
  induction l with
  | nil => simp
  | cons p l ih =>
    obtain ⟨k', v'⟩ := p
    simp only [List.map_cons, List.nodup_cons] at hl
    by_cases hk : k = k'
    · subst hk
      have hnot : (k, v) ∉ l := fun h => hl.1 (List.mem_map_of_mem (f := Prod.fst) h)
      simp [hnot, eq_comm]
    · have hbeq : (k == k') = false := by simpa using hk
      simp [List.lookup_cons, hbeq, hk, ih hl.2]

theorem mem_keys_iff {d : Dict κ α} {k : κ} : k ∈ d.keys ↔ ∃ v, d.find? k = some v := by
  simp [keys, find?_eq_some_iff]

theorem find?_eq_none_iff {d : Dict κ α} {k : κ} : d.find? k = none ↔ k ∉ d.keys := by
  rw [mem_keys_iff]
  cases d.find? k <;> simp

theorem mem_values_iff {d : Dict κ α} {v : α} : v ∈ d.values ↔ ∃ k, d.find? k = some v := by
  simp [values, find?_eq_some_iff]

/-- A dictionary with one key. -/
theorem entries_eq_singleton {d : Dict κ α} {k : κ} {v : α} (h : d.find? k = some v)
    (hkeys : ∀ k' ∈ d.keys, k' = k) : d.entries = [(k, v)] := by
  have hmem := find?_eq_some_iff.mp h
  have hnd := d.nodup
  match hd : d.entries with
  | [] =>
    rw [hd] at hmem
    cases hmem
  | [e] =>
    rw [hd] at hmem
    rw [List.mem_singleton.mp hmem]
  | e :: e' :: l =>
    have hall : ∀ x ∈ d.entries, x.1 = k := fun x hx => hkeys _ (List.mem_map_of_mem hx)
    rw [hd] at hnd hall
    have heq : e.1 = e'.1 := (hall e (by simp)).trans (hall e' (by simp)).symm
    simp [heq] at hnd

@[simp] theorem find?_empty (k : κ) : (empty : Dict κ α).find? k = none := rfl

/-! ### Updates -/

private theorem keys_overwrite (l : List (κ × α)) (k : κ) (v : α) :
    (l.map fun p => if p.1 = k then (p.1, v) else p).map Prod.fst = l.map Prod.fst := by
  rw [List.map_map]
  refine List.map_congr_left fun p _ => ?_
  by_cases hp : p.1 = k <;> simp [hp]

/-- `d[k] = v`: in place when the key exists, at the end otherwise. -/
def set (d : Dict κ α) (k : κ) (v : α) : Dict κ α :=
  if h : k ∈ d.entries.map Prod.fst then
    ⟨d.entries.map fun p => if p.1 = k then (p.1, v) else p, by
      rw [keys_overwrite]; exact d.nodup⟩
  else
    ⟨d.entries ++ [(k, v)], by
      rw [List.map_append, List.map_cons, List.map_nil]
      exact d.nodup.append (List.nodup_singleton k) (by simpa using h)⟩

/-- The pairs whose key passes a test, in the same order. -/
def keep (d : Dict κ α) (p : κ → Bool) : Dict κ α :=
  ⟨d.entries.filter fun e => p e.1, d.nodup.sublist (List.filter_sublist.map _)⟩

/-- `d.pop(k, None)`. -/
def erase (d : Dict κ α) (k : κ) : Dict κ α := d.keep fun k' => k' ≠ k

/-- A new key makes the dictionary longer. -/
theorem length_set_of_find?_eq_none {d : Dict κ α} {k : κ} (h : d.find? k = none) (v : α) :
    (d.set k v).entries.length = d.entries.length + 1 := by
  have hk : k ∉ d.entries.map Prod.fst := find?_eq_none_iff.mp h
  rw [set, dif_neg hk]
  simp

/-- **Lookup after an assignment.** -/
theorem find?_set (d : Dict κ α) (k : κ) (v : α) (k' : κ) :
    (d.set k v).find? k' = if k' = k then some v else d.find? k' := by
  refine Option.ext fun w => ?_
  rw [find?_eq_some_iff, set]
  split_ifs with hk hk' hk'
  · subst hk'
    simp only [List.mem_map, Option.some.injEq]
    obtain ⟨p, hp, hpk⟩ := List.mem_map.mp hk
    constructor
    · rintro ⟨q, -, hq⟩
      by_cases hqk : q.1 = k'
      · simp_all
      · rw [if_neg hqk] at hq
        exact absurd (by rw [hq]) hqk
    · rintro rfl
      exact ⟨p, hp, by simp [hpk]⟩
  · rw [find?_eq_some_iff]
    simp only [List.mem_map]
    constructor
    · rintro ⟨q, hq, h⟩
      by_cases hqk : q.1 = k
      · rw [if_pos hqk, Prod.mk.injEq] at h
        exact absurd (h.1.symm.trans hqk) hk'
      · rw [if_neg hqk] at h
        exact h ▸ hq
    · intro h
      exact ⟨_, h, by simp [hk']⟩
  · subst hk'
    have hnot : (k', w) ∉ d.entries := fun h => hk (List.mem_map_of_mem (f := Prod.fst) h)
    simp [hnot, eq_comm]
  · rw [find?_eq_some_iff]
    simp [hk']

@[simp] theorem find?_set_self (d : Dict κ α) (k : κ) (v : α) : (d.set k v).find? k = some v := by
  rw [find?_set, if_pos rfl]

theorem find?_set_of_ne (d : Dict κ α) {k k' : κ} (v : α) (h : k' ≠ k) :
    (d.set k v).find? k' = d.find? k' := by
  rw [find?_set, if_neg h]

/-- **Lookup after a filter on the keys.** -/
theorem find?_keep (d : Dict κ α) (p : κ → Bool) (k : κ) :
    (d.keep p).find? k = if p k then d.find? k else none := by
  refine Option.ext fun w => ?_
  rw [find?_eq_some_iff, keep]
  split_ifs with hp
  · simp [find?_eq_some_iff, hp]
  · simp [hp]

theorem find?_erase (d : Dict κ α) (k k' : κ) :
    (d.erase k).find? k' = if k' = k then none else d.find? k' := by
  rw [erase, find?_keep]
  by_cases h : k' = k <;> simp [h]

@[simp] theorem find?_erase_self (d : Dict κ α) (k : κ) : (d.erase k).find? k = none := by
  rw [find?_erase, if_pos rfl]

theorem find?_erase_of_ne (d : Dict κ α) {k k' : κ} (h : k' ≠ k) :
    (d.erase k).find? k' = d.find? k' := by
  rw [find?_erase, if_neg h]

/-! ### The pairs after an update -/

/-- A new key goes to the end. -/
theorem entries_set_of_none {d : Dict κ α} {k : κ} (v : α) (h : d.find? k = none) :
    (d.set k v).entries = d.entries ++ [(k, v)] := by
  have hk : k ∉ d.entries.map Prod.fst := find?_eq_none_iff.mp h
  rw [set, dif_neg hk]

/-- A key that is removed takes one pair with it. -/
theorem perm_erase {d : Dict κ α} {k : κ} {v : α} (h : d.find? k = some v) :
    d.entries.Perm ((k, v) :: (d.erase k).entries) := by
  obtain ⟨as, bs, hsplit⟩ := List.append_of_mem (find?_eq_some_iff.mp h)
  have hnodup := d.nodup
  rw [hsplit, List.map_append, List.map_cons, List.nodup_middle, List.nodup_cons] at hnodup
  have hne : ∀ p ∈ as ++ bs, p.1 ≠ k := by
    intro p hp heq
    have hmem : p.1 ∈ (as ++ bs).map Prod.fst := List.mem_map_of_mem hp
    rw [heq, List.map_append] at hmem
    exact hnodup.1 hmem
  have herase : (d.erase k).entries = as ++ bs := by
    change d.entries.filter (fun e => decide (e.1 ≠ k)) = as ++ bs
    rw [hsplit, List.filter_append, List.filter_cons_of_neg (by simp), ← List.filter_append,
      List.filter_eq_self]
    exact fun p hp => decide_eq_true (hne p hp)
  rw [hsplit, herase]
  exact List.perm_middle

theorem entries_erase_sublist (d : Dict κ α) (k : κ) : (d.erase k).entries.Sublist d.entries :=
  List.filter_sublist

/-- Dropping the keys of the oldest pairs leaves the others. -/
theorem entries_keep_drop (d : Dict κ α) (n : ℕ) :
    (d.keep fun k => k ∉ (d.entries.take n).map Prod.fst).entries = d.entries.drop n := by
  have hnodup := d.nodup
  rw [← List.take_append_drop n d.entries, List.map_append, List.nodup_append] at hnodup
  have hsplit : (d.keep fun k => k ∉ (d.entries.take n).map Prod.fst).entries =
      (d.entries.take n ++ d.entries.drop n).filter
        fun e => decide (e.1 ∉ (d.entries.take n).map Prod.fst) := by
    rw [List.take_append_drop]
    rfl
  rw [hsplit, List.filter_append, List.filter_eq_nil_iff.mpr, List.filter_eq_self.mpr,
    List.nil_append]
  · intro p hp
    refine decide_eq_true fun hmem => ?_
    exact hnodup.2.2 _ hmem _ (List.mem_map_of_mem hp) rfl
  · intro p hp
    rw [decide_eq_true_eq, not_not]
    exact List.mem_map_of_mem hp

/-! ### Mapping the values -/

/-- The same keys with other values. -/
def map {β : Type*} (f : α → β) (d : Dict κ α) : Dict κ β :=
  ⟨d.entries.map fun p => (p.1, f p.2), by
    rw [List.map_map]
    exact d.nodup⟩

theorem find?_map {β : Type*} (f : α → β) (d : Dict κ α) (k : κ) :
    (d.map f).find? k = (d.find? k).map f := by
  refine Option.ext fun w => ?_
  rw [find?_eq_some_iff, Option.map_eq_some_iff]
  simp only [map, List.mem_map, Prod.mk.injEq]
  constructor
  · rintro ⟨⟨k', v⟩, hmem, rfl, rfl⟩
    exact ⟨v, find?_eq_some_iff.mpr hmem, rfl⟩
  · rintro ⟨v, hv, rfl⟩
    exact ⟨(k, v), find?_eq_some_iff.mp hv, rfl, rfl⟩

/-- Only the values of the keys matter. -/
theorem map_congr {β : Type*} {f g : α → β} {d : Dict κ α}
    (h : ∀ k v, d.find? k = some v → f v = g v) : d.map f = d.map g := by
  refine Dict.ext (List.map_congr_left fun p hp => ?_)
  rw [h p.1 p.2 (find?_eq_some_iff.mpr hp)]

omit [DecidableEq κ] in
@[simp] theorem map_empty {β : Type*} (f : α → β) : (empty : Dict κ α).map f = empty := rfl

theorem map_set {β : Type*} (f : α → β) (d : Dict κ α) (k : κ) (v : α) :
    (d.set k v).map f = (d.map f).set k (f v) := by
  have hkeys : (d.map f).entries.map Prod.fst = d.entries.map Prod.fst := by
    simp [map]
  refine Dict.ext ?_
  by_cases hk : k ∈ d.entries.map Prod.fst
  · rw [set, dif_pos hk, set, dif_pos (hkeys ▸ hk)]
    simp only [map, List.map_map]
    refine List.map_congr_left fun p _ => ?_
    by_cases hp : p.1 = k <;> simp [hp]
  · rw [set, dif_neg hk, set, dif_neg (hkeys ▸ hk)]
    simp [map]

theorem map_erase {β : Type*} (f : α → β) (d : Dict κ α) (k : κ) :
    (d.erase k).map f = (d.map f).erase k := by
  refine Dict.ext ?_
  simp only [erase, keep, map, List.filter_map]
  rfl

/-- An old key keeps its place. -/
theorem entries_set_of_mem {d : Dict κ α} {k : κ} (v : α) (h : k ∈ d.entries.map Prod.fst) :
    (d.set k v).entries = d.entries.map fun p => if p.1 = k then (p.1, v) else p := by
  rw [set, dif_pos h]

/-- The later assignment counts. -/
theorem set_set (d : Dict κ α) (k : κ) (v w : α) : (d.set k v).set k w = d.set k w := by
  have hk' : k ∈ (d.set k v).entries.map Prod.fst :=
    mem_keys_iff.mpr ⟨v, find?_set_self d k v⟩
  refine Dict.ext ?_
  rw [entries_set_of_mem w hk']
  by_cases hk : k ∈ d.entries.map Prod.fst
  · rw [entries_set_of_mem v hk, entries_set_of_mem w hk, List.map_map]
    refine List.map_congr_left fun p _ => ?_
    by_cases hp : p.1 = k <;> simp [hp]
  · have hnone : d.find? k = none := find?_eq_none_iff.mpr hk
    rw [entries_set_of_none v hnone, entries_set_of_none w hnone, List.map_append]
    have hkeep : d.entries.map (fun p => if p.1 = k then (p.1, w) else p) = d.entries := by
      conv_rhs => rw [← List.map_id' d.entries]
      refine List.map_congr_left fun p hp => if_neg ?_
      rintro rfl
      exact hk (List.mem_map_of_mem hp)
    rw [hkeep]
    simp

/-- Changing what one value stands for is an assignment, if only one key has it. -/
theorem map_update {β : Type*} [DecidableEq α] (f : α → β) {d : Dict κ α} {k : κ} {v : α}
    (hk : d.find? k = some v) (honly : ∀ k', d.find? k' = some v → k' = k) (w : β) :
    d.map (Function.update f v w) = (d.map f).set k w := by
  have hmem : k ∈ (d.map f).entries.map Prod.fst := by
    have := List.mem_map_of_mem (f := Prod.fst) (find?_eq_some_iff.mp hk)
    simpa [map] using this
  refine Dict.ext ?_
  rw [entries_set_of_mem w hmem]
  simp only [map, List.map_map]
  refine List.map_congr_left fun p hp => ?_
  by_cases hpv : p.2 = v
  · have hpk : p.1 = k := honly p.1 (find?_eq_some_iff.mpr (hpv ▸ hp))
    simp [hpv, hpk]
  · have hpk : p.1 ≠ k := by
      intro hpk
      have hfind := find?_eq_some_iff.mpr (show (p.1, p.2) ∈ d.entries from hp)
      rw [hpk, hk] at hfind
      exact hpv (Option.some.inj hfind).symm
    simp [hpk, Function.update_of_ne hpv]

end Dict

end DeltaBox
