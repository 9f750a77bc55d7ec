import Mathlib.Algebra.Order.Ring.Nat
import Mathlib.Data.List.Basic
import Mathlib.Data.Nat.Notation
import Mathlib.Data.Option.Basic
import Mathlib.Tactic.SplitIfs

/-!
# The memory of a restored process

`process_memory_digest` (`replay/guest/trace_replay_main.py`) goes through the mappings of a process
and reads those that are readable, writable and private. One running digest takes in all of them, one
behind the other, with whatever could be read of each. A mapping that cannot be read to its end has
no digest of its own in the list of ranges.

`validate_incremental_equivalence` restores a checkpoint from its incremental image and from its full
twin, and compares the two running digests and the numbers of bytes.

## What is given

`sha256` is any function. What the kernel answers when the memory is read stands with each mapping.
The entries of `smaps` and the summary of the differences, which nothing decides on, are left out.

## Main definitions

* `processMemoryDigest`, `validateIncrementalEquivalence` — the two functions
* `Agree` — what the comparison is for

## Main results

* `equivalent_of_agree` — processes that agree have a row that is ok, if their files do
* `agree_of_equivalent` — the converse, where nothing is missing on either side
* `equivalent_iff_agree` — both
-/

namespace DeltaBox

namespace Verdict

/-- The answer to one `os.read`. -/
inductive Read where
  | bytes (chunk : List UInt8)
  /-- `OSError`. -/
  | failed
  deriving DecidableEq, Repr

/-- A line of `/proc/<pid>/maps`, and what the memory answers there. `seeks`: `os.lseek` works. -/
structure Mapping where
  start : ℕ
  stop : ℕ
  readable : Bool
  writable : Bool
  priv : Bool
  path : String
  seeks : Bool
  reads : List Read
  deriving DecidableEq, Repr

def Mapping.size (m : Mapping) : ℕ := m.stop - m.start

/-- `DELTABOX_VALIDATION_MEM_MODE`. -/
inductive Mode where
  | largeAnon
  | allRwPrivate
  | other
  deriving DecidableEq, Repr

/-- `remaining` bytes are read, up to 1 MB at a time. With whether it has ended in an `OSError`. -/
def readLoop : List Read → ℕ → List UInt8 × Bool
  | _, 0 => ([], false)
  | [], _ + 1 => ([], false)
  | .failed :: _, _ + 1 => ([], true)
  | .bytes chunk :: answers, remaining + 1 =>
    let got := chunk.take (min (2 ^ 20) (remaining + 1))
    if got = [] then ([], false)
    else
      let (rest, failed) := readLoop answers (remaining + 1 - got.length)
      (got ++ rest, failed)

/-- What is read of a mapping. -/
def Mapping.got (m : Mapping) : List UInt8 × Bool :=
  if m.seeks then readLoop m.reads m.size else ([], true)

/-- The mapping is one that the mode takes in. It is none for a mode that is not known. -/
def Mapping.digested (mode : Mode) (m : Mapping) : Option Bool :=
  if m.readable && m.writable && m.priv then
    match mode with
    | .largeAnon => some ((m.path == "" || m.path == "[heap]") && 4 * 1024 * 1024 ≤ m.size)
    | .allRwPrivate => some true
    | .other => none
  else some false

variable {δ : Type*}

/-- An entry of `ranges`. It has no digest when an `OSError` has come up. -/
structure Range (δ : Type*) where
  start : ℕ
  stop : ℕ
  path : String
  size : ℕ
  read : ℕ
  sha256 : Option δ
  deriving DecidableEq, Repr

def Mapping.range (sha256 : List UInt8 → δ) (m : Mapping) : Range δ where
  start := m.start
  stop := m.stop
  path := m.path
  size := m.size
  read := m.got.1.length
  sha256 := if m.got.2 then none else some (sha256 m.got.1)

/-- The loop over the mappings: what the running digest takes in, and the ranges. -/
def digestMaps (sha256 : List UInt8 → δ) (mode : Mode) :
    List Mapping → Option (List UInt8 × List (Range δ))
  | [] => some ([], [])
  | m :: ms =>
    match m.digested mode with
    | none => none
    | some false => digestMaps sha256 mode ms
    | some true => (digestMaps sha256 mode ms).map fun (bytes, ranges) =>
        (m.got.1 ++ bytes, m.range sha256 :: ranges)

/-- A process. `maps`: none when its mappings cannot be read. `mem`: its memory can be opened. -/
structure Process where
  maps : Option (List Mapping)
  mem : Bool
  deriving DecidableEq, Repr

/-- What `process_memory_digest` returns. -/
structure Digest (δ : Type*) where
  ok : Bool
  memSha256 : Option δ
  memBytes : Option ℕ
  ranges : List (Range δ)
  deriving DecidableEq, Repr

/-- It has failed. -/
def Digest.bad : Digest δ := ⟨false, none, none, []⟩

def processMemoryDigest (sha256 : List UInt8 → δ) (mode : Mode) (p : Process) : Digest δ :=
  match p.maps with
  | none => .bad
  | some maps =>
    if p.mem then
      match digestMaps sha256 mode maps with
      | none => .bad
      | some (bytes, ranges) =>
        let total := (ranges.map Range.read).sum
        ⟨decide (0 < total), some (sha256 bytes), some total, ranges⟩
    else .bad

/-! ### The comparison -/

/-- `replay_file_digest`. -/
structure Files (δ : Type*) where
  replayFileSha256 : δ
  replayFileBytes : ℕ
  deriving DecidableEq, Repr

/-- What comes of a restore. -/
inductive Restored (δ : Type*) where
  /-- The restore, or looking at the process, raises. -/
  | raised
  | process (p : Process) (files : Files δ)
  deriving DecidableEq, Repr

/-- What `_restore_observe` returns. -/
structure Observation (δ : Type*) where
  ok : Bool
  mem : Option (Digest δ)
  files : Option (Files δ)
  deriving DecidableEq, Repr

/-- `_restore_observe`. -/
def restoreObserve (sha256 : List UInt8 → δ) (mode : Mode) : Restored δ → Observation δ
  | .raised => ⟨false, none, none⟩
  | .process p files => ⟨true, some (processMemoryDigest sha256 mode p), some files⟩

/-- The `ok` of a row. -/
def equivalent [DecidableEq δ] (inc full : Observation δ) : Bool :=
  inc.ok && full.ok && inc.mem.any Digest.ok && full.mem.any Digest.ok &&
    inc.mem.bind Digest.memSha256 == full.mem.bind Digest.memSha256 &&
    inc.mem.bind Digest.memBytes == full.mem.bind Digest.memBytes &&
    inc.files.map Files.replayFileSha256 == full.files.map Files.replayFileSha256 &&
    inc.files.map Files.replayFileBytes == full.files.map Files.replayFileBytes

/-- A row of the validation. -/
structure ValidationRow (δ : Type*) where
  runtimeCkptId : String
  validationFullId : Option String
  ok : Bool
  incremental : Option (Observation δ)
  fullTwin : Option (Observation δ)
  deriving DecidableEq, Repr

/-- A checkpoint that is restored twice, from its own image and from that of its twin. -/
structure Twins (δ : Type*) where
  incremental : Restored δ
  fullTwin : Restored δ
  deriving DecidableEq, Repr

/-- `validate_incremental_equivalence`. The registry has the `validation_full_id` of a checkpoint. -/
def validateIncrementalEquivalence [DecidableEq δ] (sha256 : List UInt8 → δ) (mode : Mode)
    (registry : String → Option (Option String)) (twins : String → Twins δ) (ckptIds : List String) :
    List (ValidationRow δ) :=
  ckptIds.filterMap fun ckptId =>
    (registry ckptId).map fun fullId =>
      if (fullId.bind registry).isSome then
        let inc := restoreObserve sha256 mode (twins ckptId).incremental
        let full := restoreObserve sha256 mode (twins ckptId).fullTwin
        ⟨ckptId, fullId, equivalent inc full, some inc, some full⟩
      else ⟨ckptId, fullId, false, none, none⟩

/-! ### What it is for -/

/-- The contents of a mapping, if it has been read completely. -/
def Mapping.contents (mode : Mode) (m : Mapping) : Option (ℕ × ℕ × List UInt8) :=
  if m.digested mode = some true ∧ m.got.2 = false ∧ m.got.1.length = m.size then
    some (m.start, m.stop, m.got.1)
  else none

/-- The private writable mappings of a process with their addresses and bytes, if each of them has
been read completely. -/
def Restored.image (mode : Mode) : Restored δ → Option (List (ℕ × ℕ × List UInt8))
  | .raised => none
  | .process p _ =>
    p.maps.bind fun maps =>
      if p.mem then (maps.filter fun m => m.writable && m.priv).mapM (Mapping.contents mode) else none

/-- **The two processes have the same private writable mappings**, with the same bytes, and each of
them has been read completely. -/
def Agree (mode : Mode) (t : Twins δ) : Prop :=
  (t.incremental.image mode).isSome ∧ t.incremental.image mode = t.fullTwin.image mode

instance (mode : Mode) (t : Twins δ) : Decidable (Agree mode t) :=
  inferInstanceAs (Decidable (_ ∧ _))

/-! ### What the comparison shows -/

variable {sha256 : List UInt8 → δ} {mode : Mode} {m : Mapping} {ms : List Mapping} {t : Twins δ}

/-- The bytes of an image, one mapping behind the other. -/
def imageBytes (img : List (ℕ × ℕ × List UInt8)) : List UInt8 := img.flatMap fun r => r.2.2

theorem contents_eq_some {r : ℕ × ℕ × List UInt8} (hm : m.contents mode = some r) :
    m.digested mode = some true ∧ m.got.1.length = m.size ∧ r = (m.start, m.stop, m.got.1) := by
  rw [Mapping.contents] at hm
  split_ifs at hm with hcond
  exact ⟨hcond.1, hcond.2.2, (Option.some.inj hm).symm⟩

theorem digested_of_not (hm : (m.writable && m.priv) = false) : m.digested mode = some false := by
  have hnot : (m.readable && m.writable && m.priv) = false := by
    rw [Bool.and_assoc, hm, Bool.and_false]
  simp [Mapping.digested, hnot]

/-- Where every mapping has been read completely, the running digest is that of the image. -/
theorem digestMaps_of_image {img : List (ℕ × ℕ × List UInt8)}
    (himg : (ms.filter fun m => m.writable && m.priv).mapM (Mapping.contents mode) = some img) :
    ∃ ranges, digestMaps sha256 mode ms = some (imageBytes img, ranges) ∧
      (ranges.map Range.read).sum = (imageBytes img).length := by
  induction ms generalizing img with
  | nil =>
    obtain rfl := Option.some.inj himg
    exact ⟨[], rfl, rfl⟩
  | cons m ms ih =>
    rw [List.filter_cons] at himg
    split_ifs at himg with hm
    · rw [List.mapM_cons] at himg
      simp only [Option.bind_eq_bind, Option.bind_eq_some_iff, Option.pure_def] at himg
      obtain ⟨r, hr, rest, hrest, himg⟩ := himg
      obtain rfl := Option.some.inj himg
      obtain ⟨hdigested, hlength, rfl⟩ := contents_eq_some hr
      obtain ⟨ranges, hranges, hsum⟩ := ih hrest
      refine ⟨m.range sha256 :: ranges, by simp [digestMaps, hdigested, hranges, imageBytes], ?_⟩
      simp only [List.map_cons, List.sum_cons, hsum, imageBytes, List.flatMap_cons,
        List.length_append, Mapping.range]
    · obtain ⟨ranges, hranges, hsum⟩ := ih himg
      exact ⟨ranges, by simp [digestMaps, digested_of_not (by simpa using hm), hranges], hsum⟩

/-- What is observed of a process whose mappings have been read completely. -/
theorem observe_of_image {r : Restored δ} {img : List (ℕ × ℕ × List UInt8)}
    (himg : r.image mode = some img) :
    ∃ ranges files, restoreObserve sha256 mode r = ⟨true, some ⟨decide (0 < (imageBytes img).length),
      some (sha256 (imageBytes img)), some (imageBytes img).length, ranges⟩, some files⟩ := by
  cases r with
  | raised => cases himg
  | process p files =>
    obtain ⟨maps, hmaps, himg⟩ := Option.bind_eq_some_iff.mp himg
    split_ifs at himg with hmem
    obtain ⟨ranges, hranges, hsum⟩ := @digestMaps_of_image δ sha256 mode maps img himg
    refine ⟨ranges, files, ?_⟩
    simp [restoreObserve, processMemoryDigest, hmaps, hmem, hranges, hsum]

/-- Processes that agree have a row that is ok, when anything has been read and their files are the
same. -/
theorem equivalent_of_agree [DecidableEq δ] (hagree : Agree mode t)
    (hsome : ∀ img, t.incremental.image mode = some img → imageBytes img ≠ [])
    (hfiles : (restoreObserve sha256 mode t.incremental).files =
      (restoreObserve sha256 mode t.fullTwin).files) :
    equivalent (restoreObserve sha256 mode t.incremental)
      (restoreObserve sha256 mode t.fullTwin) = true := by
  obtain ⟨img, himg⟩ := Option.isSome_iff_exists.mp hagree.1
  have hpos : 0 < (imageBytes img).length := List.length_pos_iff.mpr (hsome img himg)
  obtain ⟨ranges, files, hinc⟩ := @observe_of_image δ sha256 mode _ img himg
  obtain ⟨ranges', files', hfull⟩ := @observe_of_image δ sha256 mode _ img (hagree.2 ▸ himg)
  rw [hinc, hfull] at hfiles
  obtain rfl := Option.some.inj hfiles
  simp [equivalent, hinc, hfull, hpos]

/-- Lists of pieces of the same lengths are the same when they are the same put together. -/
theorem eq_of_imageBytes_eq {img img' : List (ℕ × ℕ × List UInt8)}
    (haddresses : img.map (fun r => (r.1, r.2.1, r.2.2.length)) =
      img'.map fun r => (r.1, r.2.1, r.2.2.length))
    (hbytes : imageBytes img = imageBytes img') : img = img' := by
  induction img generalizing img' with
  | nil =>
    cases img' with
    | nil => rfl
    | cons => cases haddresses
  | cons r img ih =>
    cases img' with
    | nil => simp at haddresses
    | cons r' img' =>
      obtain ⟨a, b, bytes⟩ := r
      obtain ⟨a', b', bytes'⟩ := r'
      simp only [List.map_cons, List.cons.injEq, Prod.mk.injEq] at haddresses
      obtain ⟨⟨rfl, rfl, hlength⟩, hrest⟩ := haddresses
      obtain ⟨rfl, htail⟩ := List.append_inj hbytes hlength
      rw [ih hrest htail]

/-- Conversely, processes whose mappings have been read completely agree when their row is ok, if
they have mappings at the same places and nothing collides. -/
theorem agree_of_equivalent [DecidableEq δ] (hinj : ∀ a b, sha256 a = sha256 b → a = b)
    {img img' : List (ℕ × ℕ × List UInt8)} (hinc : t.incremental.image mode = some img)
    (hfull : t.fullTwin.image mode = some img')
    (haddresses : img.map (fun r => (r.1, r.2.1, r.2.2.length)) =
      img'.map fun r => (r.1, r.2.1, r.2.2.length))
    (hok : equivalent (restoreObserve sha256 mode t.incremental)
      (restoreObserve sha256 mode t.fullTwin) = true) : Agree mode t := by
  obtain ⟨ranges, files, hobserve⟩ := @observe_of_image δ sha256 mode _ img hinc
  obtain ⟨ranges', files', hobserve'⟩ := @observe_of_image δ sha256 mode _ img' hfull
  have hbytes : imageBytes img = imageBytes img' := by
    refine hinj _ _ ?_
    simp only [equivalent, hobserve, hobserve', Bool.and_eq_true] at hok
    simpa using hok.1.1.1.2
  rw [Agree, hinc, hfull, eq_of_imageBytes_eq haddresses hbytes]
  exact ⟨rfl, rfl⟩

/-- A process that has raised has no files to compare. -/
theorem files_of_equivalent [DecidableEq δ]
    (hok : equivalent (restoreObserve sha256 mode t.incremental)
      (restoreObserve sha256 mode t.fullTwin) = true)
    (hinc : (t.incremental.image mode).isSome) (hfull : (t.fullTwin.image mode).isSome) :
    (restoreObserve sha256 mode t.incremental).files =
      (restoreObserve sha256 mode t.fullTwin).files := by
  cases hincremental : t.incremental with
  | raised => simp [hincremental, Restored.image] at hinc
  | process p files =>
    cases htwin : t.fullTwin with
    | raised => simp [htwin, Restored.image] at hfull
    | process p' files' =>
      rw [hincremental, htwin] at hok
      simp only [equivalent, restoreObserve, Bool.and_eq_true, beq_iff_eq, Option.map_some,
        Option.some.injEq] at hok
      obtain ⟨⟨-, hsha⟩, hbytes⟩ := hok
      obtain ⟨sha, bytes⟩ := files
      obtain ⟨sha', bytes'⟩ := files'
      obtain rfl : sha = sha' := hsha
      obtain rfl : bytes = bytes' := hbytes
      rfl

/-- **Exactly when the row is ok**, where both processes have been read completely, have mappings at
the same places, and nothing collides: when something has been read, the mappings have the same bytes,
and the files are the same. -/
theorem equivalent_iff_agree [DecidableEq δ] (hinj : ∀ a b, sha256 a = sha256 b → a = b)
    {img img' : List (ℕ × ℕ × List UInt8)} (hinc : t.incremental.image mode = some img)
    (hfull : t.fullTwin.image mode = some img')
    (haddresses : img.map (fun r => (r.1, r.2.1, r.2.2.length)) =
      img'.map fun r => (r.1, r.2.1, r.2.2.length)) :
    equivalent (restoreObserve sha256 mode t.incremental)
        (restoreObserve sha256 mode t.fullTwin) = true ↔
      Agree mode t ∧ imageBytes img ≠ [] ∧
        (restoreObserve sha256 mode t.incremental).files =
          (restoreObserve sha256 mode t.fullTwin).files := by
  constructor
  · intro hok
    refine ⟨agree_of_equivalent hinj hinc hfull haddresses hok, ?_, files_of_equivalent hok
      (by rw [hinc]; rfl) (by rw [hfull]; rfl)⟩
    obtain ⟨ranges, files, hobserve⟩ := @observe_of_image δ sha256 mode _ img hinc
    intro hnil
    simp [equivalent, hobserve, hnil] at hok
  · rintro ⟨hagree, hne, hfiles⟩
    refine equivalent_of_agree hagree (fun img₁ himg₁ => ?_) hfiles
    obtain rfl := Option.some.inj (hinc.symm.trans himg₁)
    exact hne

/-- Two mappings, one of which is read in two pieces on one side, and one that is not private. -/
def twoPieces : Twins (List UInt8) where
  incremental := .process
    ⟨some [⟨0, 2, true, true, true, "", true, [.bytes [1], .bytes [2]]⟩,
      ⟨2, 4, true, true, false, "", true, []⟩, ⟨4, 5, true, true, true, "", true, [.bytes [3]]⟩], true⟩
    ⟨[7], 1⟩
  fullTwin := .process
    ⟨some [⟨0, 2, true, true, true, "", true, [.bytes [1, 2, 9]]⟩,
      ⟨4, 5, true, true, true, "", true, [.bytes [3]]⟩], true⟩ ⟨[7], 1⟩

theorem equivalent_iff_agree_twoPieces :
    equivalent (restoreObserve id .allRwPrivate twoPieces.incremental)
      (restoreObserve id .allRwPrivate twoPieces.fullTwin) = true :=
  (@equivalent_iff_agree _ id .allRwPrivate twoPieces _ (fun _ _ h => h)
    [(0, 2, [1, 2]), (4, 5, [3])] [(0, 2, [1, 2]), (4, 5, [3])] (by decide +kernel) (by decide +kernel)
    rfl).mpr ⟨by decide +kernel, by decide, rfl⟩

end Verdict

end DeltaBox
