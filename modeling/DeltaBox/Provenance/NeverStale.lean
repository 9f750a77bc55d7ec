import DeltaBox.Provenance.Cache

/-!
# A digest of the cache is not stale

A change of a file, or of what its name stands for, behind the time at which hashing began leaves a
change time that is at most a second older than that. So a file whose change time is more than a
second older has not changed since, and whoever finds it with the same `stat` finds the bytes that
were hashed.

What is found is what the call looked at. A write between the look and the return is not noticed.

## Main definitions

* `FileStep` — what a step does to the files
* `Trusty` — an entry is right about every file that looks like it
* `Inv` — the invariant

## Main results

* `cache_never_stale` — a digest of the cache is the one of the bytes the call looked at
* `changed_behind_look` — a write behind the look
-/

namespace DeltaBox

namespace Provenance

variable {sha256 : List UInt8 → String} {s t : World}

/-! ### What a step does to the files -/

/-- A file that a name stands for is as it was, or has a new change time. -/
structure FileStep (s t : World) : Prop where
  now : s.now ≤ t.now
  file : ∀ path file, t.names path = some file →
    (s.names path = some file ∧ t.files file = s.files file) ∨
      s.now ≤ (t.files file).ctimeNs + racyStatNs

theorem FileStep.of_same (hnow : t.now = s.now) (hfiles : t.files = s.files)
    (hnames : t.names = s.names) : FileStep s t where
  now := hnow ▸ le_rfl
  file := fun _ _ h => .inl ⟨hnames ▸ h, hfiles ▸ rfl⟩

theorem FileStep.setCall (i : ℕ) (c : Call) : FileStep s (s.setCall i c) := .of_same rfl rfl rfl

theorem FileStep.leave (i : ℕ) (c : Call) : FileStep s (s.leave i c) := .of_same rfl rfl rfl

/-! ### What is known of the files -/

/-- What holds of a file that still looks like `before`, where its change time is old enough. -/
def While (s : World) (path : String) (started : ℤ) (before : Signature) (P : ℕ → Inode → Prop) :
    Prop :=
  before.ctimeNs + racyStatNs < started → ∀ file, s.names path = some file →
    statOf path (s.files file) = before → P file (s.files file)

/-- **A file that still looks like it has not changed.** -/
theorem While.step {path : String} {started : ℤ} {before : Signature} {P : ℕ → Inode → Prop}
    (h : While s path started before P) (hstarted : started ≤ s.now) (hstep : FileStep s t) :
    While t path started before P := by
  intro hold file hname hstat
  rcases hstep.file path file hname with ⟨hname', hfile⟩ | hstamp
  · rw [hfile] at hstat ⊢
    exact h hold file hname' hstat
  · have hctime : (t.files file).ctimeNs = before.ctimeNs := hstat ▸ rfl
    omega

/-- An entry is right about every file that looks like it. -/
structure Trusty (sha256 : List UInt8 → String) (s : World) (path : String) (started : ℤ)
    (r : Record) : Prop where
  past : started ≤ s.now
  identity : r.identity.path = path
  digest : While s path started r.identity fun _ f => sha256 f.content = r.sha256

theorem Trusty.step {path : String} {started : ℤ} {r : Record}
    (h : Trusty sha256 s path started r) (hstep : FileStep s t) :
    Trusty sha256 t path started r where
  past := h.past.trans hstep.now
  identity := h.identity
  digest := h.digest.step h.past hstep

/-! ### What is known of a call -/

/-- A call that has the lock. -/
def Call.holding : Call → Bool
  | .locked _ | .loaded .. | .looked .. | .started .. | .checked .. | .reading .. | .hashed ..
  | .recorded .. => true
  | _ => false

/-- The cache as a call has read it. -/
def Call.records? : Call → Option Records
  | .loaded _ records => some records
  | .looked _ records _ _ => some records
  | .started _ records _ => some records
  | .checked _ records _ _ => some records
  | .reading _ records _ _ _ _ => some records
  | .hashed _ records _ _ _ => some records
  | .recorded _ records _ _ => some records
  | _ => none

/-- What a call knows of its file. -/
def Good (sha256 : List UInt8 → String) (s : World) : Call → Prop
  | .looked path records identity seen => identity.path = path ∧
      ∀ entry, records.find? path = some entry → entry.digest.identity = identity →
        identity.ctimeNs + racyStatNs < entry.hashStartedNs → entry.digest.sha256 = sha256 seen
  | .started _ _ started => started ≤ s.now
  | .checked path _ started before => started ≤ s.now ∧ before.path = path
  | .reading path _ started before file bytes => started ≤ s.now ∧ before.path = path ∧
      While s path started before fun file' f => file' = file ∧ bytes <+: f.content
  | .hashed path _ started before bytes => started ≤ s.now ∧ before.path = path ∧
      While s path started before fun _ f => f.content = bytes
  | .recorded path _ started record => Trusty sha256 s path started record
  | .reused path record seen => record.identity.path = path ∧ record.sha256 = sha256 seen
  | _ => True

theorem Good.step {c : Call} (h : Good sha256 s c) (hstep : FileStep s t) : Good sha256 t c := by
  cases c with
  | started path records started => exact le_trans h hstep.now
  | checked path records started before => exact ⟨h.1.trans hstep.now, h.2⟩
  | reading path records started before file bytes =>
    exact ⟨h.1.trans hstep.now, h.2.1, h.2.2.step h.1 hstep⟩
  | hashed path records started before bytes =>
    exact ⟨h.1.trans hstep.now, h.2.1, h.2.2.step h.1 hstep⟩
  | recorded path records started record => exact Trusty.step h hstep
  | _ => exact h

/-- The invariant. -/
structure Inv (sha256 : List UInt8 → String) (s : World) : Prop where
  /-- One call has the lock. -/
  lock : ∀ i, (s.calls i).holding = true → s.lock = some i
  /-- The cache is as the call has read it. -/
  records : ∀ i r, (s.calls i).records? = some r → s.records = r
  cache : ∀ path entry, s.records.find? path = some entry →
    Trusty sha256 s path entry.hashStartedNs entry.digest
  calls : ∀ i, Good sha256 s (s.calls i)

theorem holding_of_records {c : Call} {r : Records} (h : c.records? = some r) :
    c.holding = true := by
  cases c with
  | loaded | looked | started | checked | reading | hashed | recorded => rfl
  | _ => cases h

/-- The files change, and no call does anything. -/
theorem Inv.files (h : Inv sha256 s) (hstep : FileStep s t) (hcalls : t.calls = s.calls)
    (hlock : t.lock = s.lock) (hcache : t.cache = s.cache) : Inv sha256 t := by
  have hrecords : t.records = s.records := by rw [World.records, World.records, hcache]
  exact {
    lock := fun i hi => hlock ▸ h.lock i (hcalls ▸ hi)
    records := fun i r hr => hrecords ▸ h.records i r (hcalls ▸ hr)
    cache := fun path entry he => (h.cache path entry (hrecords ▸ he)).step hstep
    calls := fun i => hcalls ▸ (h.calls i).step hstep }

/-- A call goes on. -/
theorem Inv.setCall (h : Inv sha256 s) {i : ℕ} {c : Call}
    (hlock : c.holding = true → s.lock = some i)
    (hrecords : ∀ r, c.records? = some r → s.records = r) (hgood : Good sha256 s c) :
    Inv sha256 (s.setCall i c) where
  lock := by
    intro j hj
    by_cases hji : j = i
    · subst hji
      rw [World.setCall] at hj
      exact hlock (by simpa using hj)
    · exact h.lock j (by simpa [World.setCall, hji] using hj)
  records := by
    intro j r hr
    by_cases hji : j = i
    · subst hji
      exact hrecords r (by simpa [World.setCall] using hr)
    · exact h.records j r (by simpa [World.setCall, hji] using hr)
  cache := fun path entry he => (h.cache path entry he).step (.setCall i c)
  calls := by
    intro j
    refine Good.step ?_ (.setCall i c)
    by_cases hji : j = i
    · subst hji
      simpa [World.setCall] using hgood
    · simpa [World.setCall, hji] using h.calls j

/-- A call that has the lock goes on with the cache that it has read. -/
theorem Inv.advance (h : Inv sha256 s) {i : ℕ} {c c' : Call} (hcall : s.calls i = c)
    (hheld : c.holding = true) (hsame : c'.records? = c.records?) (hgood : Good sha256 s c') :
    Inv sha256 (s.setCall i c') :=
  h.setCall (fun _ => h.lock i (hcall ▸ hheld)) (fun r hr => h.records i r (by rw [hcall, ← hsame, hr]))
    hgood

/-- A call returns. -/
theorem Inv.leave (h : Inv sha256 s) {i : ℕ} {c : Call} (hlock : c.holding = false)
    (hgood : Good sha256 s c) : Inv sha256 (s.leave i c) where
  lock := by
    intro j hj
    by_cases hji : j = i
    · subst hji
      simp [World.leave, hlock] at hj
    · have hheld := h.lock j (by simpa [World.leave, hji] using hj)
      simp [World.leave, hheld, hji]
  records := by
    intro j r hr
    by_cases hji : j = i
    · subst hji
      have hheld := holding_of_records hr
      simp [World.leave, hlock] at hheld
    · exact h.records j r (by simpa [World.leave, hji] using hr)
  cache := fun path entry he => (h.cache path entry he).step (.leave i c)
  calls := by
    intro j
    refine Good.step ?_ (.leave i c)
    by_cases hji : j = i
    · subst hji
      simpa [World.leave] using hgood
    · simpa [World.leave, hji] using h.calls j

/-! ### The steps -/

/-- A file is written. -/
theorem fileStep_write {file : ℕ} {inode : Inode} (h : s.Stamp (s.files file).ctimeNs inode.ctimeNs) :
    FileStep s { s with files := Function.update s.files file inode } where
  now := le_rfl
  file := by
    intro path file' hname
    by_cases hfile : file' = file
    · subst hfile
      exact .inr (by simpa using h.1)
    · exact .inl ⟨hname, by simp [hfile]⟩

/-- A name gets a file. -/
theorem fileStep_replace {path : String} {file : ℕ} {ctimeNs : ℤ}
    (h : s.Stamp (s.files file).ctimeNs ctimeNs) :
    FileStep s { s with
      files := Function.update s.files file { s.files file with ctimeNs }
      names := Function.update s.names path (some file) } where
  now := le_rfl
  file := by
    intro path' file' hname
    by_cases hfile : file' = file
    · subst hfile
      exact .inr (by simpa using h.1)
    · refine .inl ⟨?_, by simp [hfile]⟩
      by_cases hpath : path' = path
      · subst hpath
        simp only [Function.update_self, Option.some.injEq] at hname
        exact absurd hname.symm hfile
      · simpa [hpath] using hname

theorem fileStep_unlink (path : String) :
    FileStep s { s with names := Function.update s.names path none } where
  now := le_rfl
  file := by
    intro path' file hname
    by_cases hpath : path' = path
    · subst hpath
      simp at hname
    · exact .inl ⟨by simpa [hpath] using hname, rfl⟩

/-- What the first look of a call finds. -/
theorem looked_good (h : Inv sha256 s) {path : String} {identity : Signature} {seen : List UInt8}
    (hsig : s.signature path = some identity) (hseen : s.bytes path = some seen) :
    Good sha256 s (.looked path s.records identity seen) := by
  obtain ⟨file, hname, hid⟩ := Option.map_eq_some_iff.mp hsig
  obtain ⟨file', hname', hbytes⟩ := Option.map_eq_some_iff.mp hseen
  obtain rfl := Option.some.inj (hname.symm.trans hname')
  refine ⟨hid ▸ rfl, fun entry he hsame hold => ?_⟩
  have htrusty := h.cache path entry he
  rw [← hbytes]
  exact (htrusty.digest (hsame ▸ hold) file hname (hid.trans hsame.symm)).symm

/-- **Every step keeps the invariant.** -/
theorem Inv.step (h : Inv sha256 s) {a : Label} (hstep : step sha256 s a = some t) :
    Inv sha256 t := by
  cases a with
  | tick now =>
    obtain ⟨hnow, rfl⟩ : s.now ≤ now ∧ { s with now } = t := by
      simpa [Provenance.step] using hstep
    exact h.files ⟨hnow, fun _ _ hname => .inl ⟨hname, rfl⟩⟩ rfl rfl rfl
  | write file inode =>
    obtain ⟨hstamp, heq⟩ := Option.ite_none_right_eq_some.mp hstep
    obtain rfl := Option.some.inj heq
    exact h.files (fileStep_write hstamp) rfl rfl rfl
  | replace path file ctimeNs =>
    obtain ⟨hstamp, heq⟩ := Option.ite_none_right_eq_some.mp hstep
    obtain rfl := Option.some.inj heq
    exact h.files (fileStep_replace hstamp) rfl rfl rfl
  | unlink path =>
    obtain rfl := Option.some.inj hstep
    exact h.files (fileStep_unlink path) rfl rfl rfl
  | call i path =>
    cases hcall : s.calls i with
    | fresh =>
      simp only [Provenance.step, hcall, Option.some.injEq] at hstep
      subst hstep
      exact h.setCall (by nofun) (by nofun) trivial
    | _ => simp [Provenance.step, hcall] at hstep
  | acquire i =>
    cases hcall : s.calls i with
    | waiting path =>
      simp only [Provenance.step, hcall] at hstep
      obtain ⟨hfree, heq⟩ := Option.ite_none_right_eq_some.mp hstep
      obtain rfl := Option.some.inj heq
      -- nobody has the lock
      have hnone : ∀ j, (s.calls j).holding = false := by
        intro j
        by_contra hheld
        rw [h.lock j (by simpa using hheld)] at hfree
        cases hfree
      have hset : Inv sha256 { s with lock := some i } := {
        lock := fun j hj => absurd hj (by simp [hnone j])
        records := h.records
        cache := fun path entry he => (h.cache path entry he).step (.of_same rfl rfl rfl)
        calls := fun j => (h.calls j).step (.of_same rfl rfl rfl) }
      exact hset.setCall (fun _ => rfl) (by nofun) trivial
    | _ => simp [Provenance.step, hcall] at hstep
  | load i =>
    cases hcall : s.calls i with
    | locked path =>
      simp only [Provenance.step, hcall, Option.some.injEq] at hstep
      subst hstep
      exact h.setCall (fun _ => h.lock i (by rw [hcall]; rfl)) (fun r hr => Option.some.inj hr)
        trivial
    | _ => simp [Provenance.step, hcall] at hstep
  | look i =>
    cases hcall : s.calls i with
    | loaded path records =>
      simp only [Provenance.step, hcall] at hstep
      have hrecords : s.records = records := h.records i records (by rw [hcall]; rfl)
      split at hstep
      · rename_i identity seen hsig hseen
        obtain rfl := Option.some.inj hstep
        refine h.advance hcall rfl rfl ?_
        exact hrecords ▸ looked_good h hsig hseen
      · obtain rfl := Option.some.inj hstep
        exact h.leave rfl trivial
    | _ => simp [Provenance.step, hcall] at hstep
  | compare i =>
    cases hcall : s.calls i with
    | looked path records identity seen =>
      simp only [Provenance.step, hcall] at hstep
      have hgood := h.calls i
      rw [hcall] at hgood
      obtain ⟨hpath, hentry⟩ := hgood
      split at hstep
      · rename_i entry hfind
        obtain rfl := Option.some.inj hstep
        obtain ⟨hfind, husable⟩ := Option.filter_eq_some_iff.mp hfind
        simp only [usable, Bool.and_eq_true, decide_eq_true_eq] at husable
        obtain ⟨⟨⟨⟨-, hold⟩, -⟩, hsame⟩, -⟩ := husable
        refine h.leave rfl ⟨hsame ▸ hpath, ?_⟩
        have hctime := le_max_right identity.mtimeNs identity.ctimeNs
        exact hentry entry (hpath ▸ hfind) hsame (by omega)
      · obtain rfl := Option.some.inj hstep
        exact h.advance hcall rfl rfl (le_refl s.now)
    | _ => simp [Provenance.step, hcall] at hstep
  | check i =>
    cases hcall : s.calls i with
    | started path records started =>
      simp only [Provenance.step, hcall] at hstep
      have hgood := h.calls i
      rw [hcall] at hgood
      split at hstep
      · rename_i before hsig
        obtain rfl := Option.some.inj hstep
        obtain ⟨file, -, hid⟩ := Option.map_eq_some_iff.mp hsig
        exact h.advance hcall rfl rfl ⟨hgood, hid ▸ rfl⟩
      · obtain rfl := Option.some.inj hstep
        exact h.leave rfl trivial
    | _ => simp [Provenance.step, hcall] at hstep
  | openFile i =>
    cases hcall : s.calls i with
    | checked path records started before =>
      simp only [Provenance.step, hcall] at hstep
      have hgood := h.calls i
      rw [hcall] at hgood
      split at hstep
      · rename_i file hname
        obtain rfl := Option.some.inj hstep
        refine h.advance hcall rfl rfl ⟨hgood.1, hgood.2, fun _ file' hname' _ => ⟨?_, List.nil_prefix⟩⟩
        exact Option.some.inj (hname'.symm.trans hname)
      · obtain rfl := Option.some.inj hstep
        exact h.leave rfl trivial
    | _ => simp [Provenance.step, hcall] at hstep
  | read i n =>
    cases hcall : s.calls i with
    | reading path records started before file bytes =>
      simp only [Provenance.step, hcall, Option.some.injEq] at hstep
      subst hstep
      have hgood := h.calls i
      rw [hcall] at hgood
      obtain ⟨hstarted, hpath, hwhile⟩ := hgood
      refine h.advance hcall rfl rfl ⟨hstarted, hpath, fun hold file' hname hstat => ?_⟩
      obtain ⟨rfl, rest, hrest⟩ := hwhile hold file' hname hstat
      refine ⟨rfl, ?_⟩
      rw [← hrest, List.drop_left]
      exact (List.prefix_append_right_inj bytes).mpr (List.take_prefix n rest)
    | _ => simp [Provenance.step, hcall] at hstep
  | eof i =>
    cases hcall : s.calls i with
    | reading path records started before file bytes =>
      simp only [Provenance.step, hcall] at hstep
      obtain ⟨hend, heq⟩ := Option.ite_none_right_eq_some.mp hstep
      obtain rfl := Option.some.inj heq
      have hgood := h.calls i
      rw [hcall] at hgood
      obtain ⟨hstarted, hpath, hwhile⟩ := hgood
      refine h.advance hcall rfl rfl ⟨hstarted, hpath, fun hold file' hname hstat => ?_⟩
      obtain ⟨rfl, hread⟩ := hwhile hold file' hname hstat
      exact (hread.eq_of_length_le hend).symm
    | _ => simp [Provenance.step, hcall] at hstep
  | recheck i =>
    cases hcall : s.calls i with
    | hashed path records started before bytes =>
      simp only [Provenance.step, hcall] at hstep
      have hgood := h.calls i
      rw [hcall] at hgood
      obtain ⟨hstarted, hpath, hwhile⟩ := hgood
      split_ifs at hstep
      · obtain rfl := Option.some.inj hstep
        refine h.advance hcall rfl rfl ⟨hstarted, hpath, fun hold file hname hstat => ?_⟩
        exact congrArg sha256 (hwhile hold file hname hstat)
      · obtain rfl := Option.some.inj hstep
        exact h.leave rfl trivial
    | _ => simp [Provenance.step, hcall] at hstep
  | save i =>
    cases hcall : s.calls i with
    | recorded path records started record =>
      simp only [Provenance.step, hcall, Option.some.injEq] at hstep
      subst hstep
      have hgood : Trusty sha256 s path started record := by
        have := h.calls i
        rwa [hcall] at this
      have hheld : s.lock = some i := h.lock i (by rw [hcall]; rfl)
      have hrecords : s.records = records := h.records i records (by rw [hcall]; rfl)
      have hleave : Inv sha256 (s.leave i (.computed record)) := h.leave rfl trivial
      exact {
        lock := hleave.lock
        records := fun j r hr => by
          -- whoever has read the cache has the lock
          have hlock := hleave.lock j (holding_of_records hr)
          simp [World.leave, hheld] at hlock
        cache := fun path' entry he => by
          have he' : (records.set path ⟨cacheVersion, started, record⟩).find? path' = some entry := he
          rw [Dict.find?_set] at he'
          split_ifs at he' with heq
          · obtain rfl := Option.some.inj he'
            subst heq
            exact hgood.step (.of_same rfl rfl rfl)
          · exact (h.cache path' entry (hrecords ▸ he')).step (.of_same rfl rfl rfl)
        calls := fun j => (hleave.calls j).step (.of_same rfl rfl rfl) }
    | _ => simp [Provenance.step, hcall] at hstep
  | die i =>
    simp only [Provenance.step] at hstep
    split at hstep
    · cases hstep
    · obtain rfl := Option.some.inj hstep
      exact h.leave rfl trivial

theorem inv_start (now : ℤ) (files : ℕ → Inode) (names : String → Option ℕ) :
    Inv sha256 (start now files names) where
  lock := by
    intro i hi
    cases hi
  records := by
    intro i r hr
    cases hr
  cache := by
    intro path entry he
    simp [start, World.records] at he
  calls := fun _ => trivial

/-- Only a call that saves writes the cache file. -/
theorem cache_of_step {a : Label} (ha : ∀ i, a ≠ .save i) (hstep : step sha256 s a = some t) :
    t.cache = s.cache := by
  cases a with
  | save i => exact absurd rfl (ha i)
  | _ =>
    simp only [step] at hstep
    repeat' split at hstep
    all_goals first
      | (obtain rfl := Option.some.inj hstep; rfl)
      | cases hstep

/-- A step changes the cache for one name at most: the one of a call that saves. -/
theorem find?_of_step (h : Inv sha256 s) {a : Label} (hstep : step sha256 s a = some t)
    {path : String} (hchange : t.records.find? path ≠ s.records.find? path) :
    ∃ i records started record, a = .save i ∧
      s.calls i = .recorded path records started record := by
  cases a with
  | save i =>
    cases hcall : s.calls i with
    | recorded path' records started record =>
      simp only [step, hcall, Option.some.injEq] at hstep
      subst hstep
      have hrecords : s.records = records := h.records i records (by rw [hcall]; rfl)
      by_cases hpath : path = path'
      · subst hpath
        exact ⟨i, records, started, record, rfl, hcall⟩
      · refine absurd ?_ hchange
        rw [hrecords]
        exact Dict.find?_set_of_ne records _ hpath
    | _ => simp [step, hcall] at hstep
  | _ =>
    have hcache := cache_of_step (by nofun) hstep
    exact absurd (by rw [World.records, World.records, hcache]) hchange

/-- What a look sees is what the file holds. -/
theorem of_look {i : ℕ} (hstep : step sha256 s (.look i) = some t) {path : String}
    {records : Records} {identity : Signature} {seen : List UInt8}
    (hcall : t.calls i = .looked path records identity seen) : s.bytes path = some seen := by
  simp only [step] at hstep
  split at hstep
  · split at hstep
    · rename_i hseen
      obtain rfl := Option.some.inj hstep
      simp only [World.setCall, Function.update_self, Call.looked.injEq] at hcall
      obtain ⟨rfl, -, -, rfl⟩ := hcall
      exact hseen
    · obtain rfl := Option.some.inj hstep
      simp [World.leave] at hcall
  · cases hstep

/-- **A digest of the cache is the digest of the bytes that the file held when the call looked at
it, and no call touches the entry of another file.** -/
theorem cache_never_stale {now : ℤ} {files : ℕ → Inode} {names : String → Option ℕ}
    {as : List Label} (hrun : Machine.exec (step sha256) (start now files names) as = some s) :
    (∀ i path record seen, s.calls i = .reused path record seen →
      record.identity.path = path ∧ record.sha256 = sha256 seen) ∧
    (∀ i t path records identity seen, step sha256 s (.look i) = some t →
      t.calls i = .looked path records identity seen → s.bytes path = some seen) ∧
    ∀ a t path, step sha256 s a = some t → t.records.find? path ≠ s.records.find? path →
      ∃ i records started record, a = .save i ∧
        s.calls i = .recorded path records started record := by
  have hinv : Inv sha256 s := Machine.invariant (fun hi hs => Inv.step hi hs) (inv_start _ _ _) hrun
  refine ⟨fun i path record seen hcall => ?_, fun i t path records identity seen hstep hcall => ?_,
    fun a t path hstep hchange => find?_of_step hinv hstep hchange⟩
  · have hgood := hinv.calls i
    rwa [hcall] at hgood
  · exact of_look hstep hcall

/-! ### A file of one byte -/

/-- The digests of no byte and of the byte `a`. -/
def smallDigest (bytes : List UInt8) : String :=
  if bytes = [] then "e3b0c44298fc1c149afbf4c8996fb92427ae41e4649b934ca495991b7852b855"
  else "ca978112ca1bbdcafac231b39a23dc4da786eff8147c4e72b9807785afee48bb"

/-- A file with the byte `a`, three seconds old. -/
def small : World :=
  start 3000000000 (fun _ => ⟨[97], 1, 2, 0, 0⟩) fun path => if path = "/f" then some 0 else none

/-- The file is hashed, and a second call has looked at it. -/
def hashThenLook : List Label :=
  [.call 0 "/f", .acquire 0, .load 0, .look 0, .compare 0, .check 0, .openFile 0, .read 0 1, .eof 0,
    .recheck 0, .save 0, .call 1 "/f", .acquire 1, .load 1, .look 1]

/-- What the second call returns. -/
def smallRecord : Record := ⟨⟨"/f", 1, 2, 1, 0, 0⟩, smallDigest [97]⟩

/-- The second call uses the digest of the first. -/
theorem cache_never_stale_reused :
    ∃ s, Machine.exec (step smallDigest) small (hashThenLook ++ [.compare 1]) = some s ∧
      s.calls 1 = .reused "/f" smallRecord [97] ∧ smallRecord.sha256 = smallDigest [97] := by
  obtain ⟨s, hexec, hcall⟩ : ∃ s,
      Machine.exec (step smallDigest) small (hashThenLook ++ [.compare 1]) = some s ∧
        s.calls 1 = .reused "/f" smallRecord [97] := ⟨_, rfl, rfl⟩
  exact ⟨s, hexec, hcall, ((cache_never_stale hexec).1 1 "/f" smallRecord [97] hcall).2⟩

/-- **A write behind the look is not noticed.** The call returns a digest that the file no longer
has. -/
theorem changed_behind_look : ∃ s, Machine.exec (step smallDigest) small
      (hashThenLook ++ [.write 0 ⟨[], 1, 2, 0, 3000000000⟩, .compare 1]) = some s ∧
    s.calls 1 = .reused "/f" smallRecord [97] ∧ s.bytes "/f" = some [] ∧
    smallRecord.sha256 ≠ smallDigest [] := by
  refine ⟨_, rfl, rfl, rfl, ?_⟩
  decide +kernel

end Provenance

end DeltaBox
