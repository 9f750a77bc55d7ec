import DeltaBox.Prewarm.Ranges

/-!
# One pass of the prewarm worker

`CooperativePrewarm._run` (`replay/guest/cooperative_prewarm.py`) goes through the tiers, the ranges
of a tier, what is left of a range without the excluded intervals, and this in chunks. Every chunk is
populated with one `madvise`.

* The agent goes on meanwhile. It may unmap a chunk before its turn: then `ENOMEM` comes, the map
  does not cover the chunk any more, and its bytes are counted as skipped. The same error on a chunk
  that is still mapped, and every other error, ends the pass.
* Between two chunks the pass may be cancelled.

What the mappings have to be like is said with the addresses: `Listing.region` are the ordinary ones,
private, writable, of no file, without a name or with one of the ordinary names. A mapping that is
also executable has `rwxp`, and its line is passed over.

## Main results

* `touches_exactly` — a pass that is not cancelled touches the region without the excluded intervals
-/

namespace DeltaBox

namespace Prewarm

open Intervals

/-! ### The source -/

/-- The errors that matter. -/
inductive Errno where
  | enomem
  | other (code : ℕ)
  deriving DecidableEq, Repr

/-- What a pass catches. -/
inductive Raised where
  | os (e : Errno)
  /-- A line of the map that cannot be read, or the map itself. -/
  | map
  /-- From `_record` or `_own_stack`. -/
  | early (text : String)
  deriving DecidableEq, Repr

def chunkBytes : ℕ := 512 * 1024

/-- What goes on around the pass. The chunks are numbered. -/
structure Around where
  /-- The first `_record`, and `_own_stack`: the set of excluded intervals with the stack in it, in
  the order in which it is gone through, or what is raised. -/
  excluded : Except String (List Interval)
  cancelled : ℕ → Bool
  /-- What `madvise` answers for a chunk. -/
  populate : ℕ → Interval → Option Errno
  /-- The lines of the map afterwards. `none`: it cannot be read. -/
  live : ℕ → Option (List (List Char))

/-- Where a pass stands. `touched`: the chunks that `_populate` was called on, the last one first.
`turn`: their number. -/
structure State where
  pages : ℕ
  skippedBytes : ℕ
  cancelled : Bool
  tiers : List (ℕ × ℕ)
  count : ℕ
  touched : List Interval
  turn : ℕ
  deriving DecidableEq, Repr

def State.start : State := ⟨0, 0, false, [], 0, [], 0⟩

/-- A loop that is left as soon as the pass is cancelled. -/
def each {α : Type} (body : α → State → Except (Raised × State) State) :
    List α → State → Except (Raised × State) State
  | [], s => .ok s
  | x :: xs, s =>
    match body x s with
    | .error e => .error e
    | .ok s => if s.cancelled then .ok s else each body xs s

/-- `range(first, last, CHUNK_BYTES)`, and the size of each chunk. -/
def chunks (part : Interval) : List Interval :=
  (List.range ((part.2 - part.1 + chunkBytes - 1) / chunkBytes)).map fun i =>
    (part.1 + i * chunkBytes, part.1 + i * chunkBytes + min chunkBytes (part.2 - (part.1 + i * chunkBytes)))

variable (page : ℕ) (around : Around)

/-- Whether the map still covers a chunk: `live` and `still_mapped`. -/
def stillMapped (turn : ℕ) (chunk : Interval) : Option Bool := do
  let lines ← around.live turn
  let tiers ← anonymousPrivateRanges lines
  some (covers chunk.1 chunk.2 (tiers.flatMap (·.2)))

/-- The body of the innermost loop. -/
def touch (chunk : Interval) (s : State) : Except (Raised × State) State :=
  if around.cancelled s.turn then .ok { s with cancelled := true }
  else
    let size := chunk.2 - chunk.1
    let after := { s with touched := chunk :: s.touched, turn := s.turn + 1 }
    match around.populate s.turn chunk with
    | none => .ok { after with count := s.count + size / page }
    | some e =>
      match stillMapped around s.turn chunk with
      | none => .error (.map, after)
      | some mapped =>
        if e ≠ .enomem ∨ mapped = true then .error (.os e, after)
        else .ok { after with skippedBytes := s.skippedBytes + size }

/-- The loop over a range. -/
def warmRange (excluded : List Interval) (range : Interval) : State → Except (Raised × State) State :=
  each (fun part => each (touch page around) (chunks part)) (subtract range excluded)

/-- The loop over a tier. A tier that is cut short is counted too. -/
def warmTier (excluded : List Interval) (tier : ℕ × List Interval) (s : State) :
    Except (Raised × State) State :=
  match each (warmRange page around excluded) tier.2 { s with count := 0 } with
  | .error e => .error e
  | .ok s => .ok { s with pages := s.pages + s.count, tiers := s.tiers ++ [(tier.1, s.count)] }

/-- How a pass ends. -/
inductive Outcome where
  | completed
  | cancelled
  | failed (e : Raised)
  deriving DecidableEq, Repr

/-- What is reported. `complete` is `state = .completed`, and `ok` that it has not failed. -/
structure Report where
  pages : ℕ
  skippedBytes : ℕ
  tiers : List (ℕ × ℕ)
  state : Outcome
  touched : List Interval
  deriving DecidableEq, Repr

def State.report (s : State) (state : Outcome) : Report :=
  ⟨s.pages, s.skippedBytes, s.tiers, state, s.touched.reverse⟩

/-- `_run`. -/
def run (tiered : List (ℕ × List Interval)) : Report :=
  match around.excluded with
  | .error e => State.start.report (.failed (.early e))
  | .ok excluded =>
    match each (warmTier page around excluded) tiered .start with
    | .error (e, s) => s.report (.failed e)
    | .ok s => s.report (if s.cancelled then .cancelled else .completed)

/-! ### Chunks -/

/-- Chunks of a part, as far as some of them come. -/
theorem chunks_tile_upto (part : Interval) (n : ℕ) :
    Tiles ((List.range n).map fun i => (part.1 + i * chunkBytes,
        part.1 + i * chunkBytes + min chunkBytes (part.2 - (part.1 + i * chunkBytes))))
      (Finset.Ico part.1 (min part.2 (part.1 + n * chunkBytes))) := by
  induction n with
  | zero =>
    refine Tiles.nil.congr fun b => ?_
    simp only [Finset.mem_Ico, Finset.notMem_empty, iff_false]
    omega
  | succ n ih =>
    rw [List.range_succ, List.map_append, List.map_singleton, Nat.succ_mul]
    generalize n * chunkBytes = front at ih ⊢
    have hdisj : Disjoint (Finset.Ico part.1 (min part.2 (part.1 + front)))
        (span (part.1 + front, part.1 + front + min chunkBytes (part.2 - (part.1 + front)))) := by
      rw [Finset.disjoint_left]
      intro b hb hin
      simp only [Finset.mem_Ico] at hb hin
      omega
    refine (ih.append (Tiles.singleton _) hdisj).congr fun b => ?_
    simp only [Finset.mem_union, Finset.mem_Ico]
    omega

theorem chunks_tile (part : Interval) : Tiles (chunks part) (span part) := by
  refine (chunks_tile_upto part _).congr fun b => ?_
  have hdiv := Nat.div_add_mod (part.2 - part.1 + chunkBytes - 1) chunkBytes
  have hmod := Nat.mod_lt (part.2 - part.1 + chunkBytes - 1) (y := chunkBytes) (by decide)
  rw [Nat.mul_comm] at hdiv
  simp only [Finset.mem_Ico]
  omega

variable {page around}

/-- A chunk has a size, and not more than it may, and it is made of whole pages. -/
theorem of_mem_chunks {part chunk : Interval} (h : chunk ∈ chunks part) :
    chunk.1 < chunk.2 ∧ chunk.2 - chunk.1 ≤ chunkBytes := by
  obtain ⟨i, hi, rfl⟩ := List.mem_map.mp h
  rw [List.mem_range, Nat.lt_iff_add_one_le, Nat.le_div_iff_mul_le (by decide), Nat.succ_mul] at hi
  have hpos : 0 < chunkBytes := by decide
  generalize i * chunkBytes = front at hi
  dsimp only
  omega

theorem aligned_of_mem_chunks (hpage : page ∣ chunkBytes) {part chunk : Interval}
    (hpart : Aligned page part) (h : chunk ∈ chunks part) : Aligned page chunk := by
  obtain ⟨i, -, rfl⟩ := List.mem_map.mp h
  have hfirst : page ∣ part.1 + i * chunkBytes :=
    Nat.dvd_add hpart.1 (hpage.mul_left i)
  refine ⟨hfirst, Nat.dvd_add hfirst ?_⟩
  rcases min_choice chunkBytes (part.2 - (part.1 + i * chunkBytes)) with heq | heq <;> rw [heq]
  · exact hpage
  · exact Nat.dvd_sub hpart.2 hfirst

/-! ### One turn -/

/-- The chunk is not covered by the ordinary mappings of the map that is read afterwards. -/
def Unmapped (around : Around) (turn : ℕ) (chunk : Interval) : Prop :=
  ∃ ms : Listing, around.live turn = some ms.lines ∧ ∃ b ∈ span chunk, b ∉ ms.region

theorem stillMapped_of_unmapped {turn : ℕ} {chunk : Interval} (h : Unmapped around turn chunk) :
    stillMapped around turn chunk = some false := by
  obtain ⟨ms, hlive, b, hb, hout⟩ := h
  rw [Finset.mem_Ico] at hb
  have hcovers : covers chunk.1 chunk.2 (ms.ofTier 1 ++ ms.ofTier 2) = false := by
    rw [← Bool.not_eq_true, covers_iff (by omega)]
    intro hall
    obtain ⟨e, he, hin⟩ := hall b hb.1 hb.2
    exact hout (mem_union.mpr ⟨e, (ofTier_perm ms).mem_iff.mp he, hin⟩)
  rw [stillMapped, hlive]
  show (anonymousPrivateRanges ms.lines).bind _ = _
  rw [anonymousPrivateRanges_lines]
  show some (covers chunk.1 chunk.2 (List.flatMap _ _)) = _
  rw [flatMap_tiers, hcovers]

/-- Some chunks have been touched, and their bytes are counted. `bytes` is what counts them: inside
a tier the pages of the tier do too. -/
structure Adds (bytes : State → ℕ) (cs : List Interval) (s s' : State) : Prop where
  going : s'.cancelled = false
  touched : s'.touched = cs.reverse ++ s.touched
  bytes_eq : bytes s' = bytes s + (cs.map fun c => c.2 - c.1).sum

theorem Adds.trans {bytes : State → ℕ} {cs ds : List Interval} {s s' s'' : State}
    (h : Adds bytes cs s s') (h' : Adds bytes ds s' s'') : Adds bytes (cs ++ ds) s s'' where
  going := h'.going
  touched := by rw [h'.touched, h.touched, List.reverse_append, List.append_assoc]
  bytes_eq := by
    rw [h'.bytes_eq, h.bytes_eq, List.map_append, List.sum_append, Nat.add_assoc]

/-- A loop whose turns touch chunks touches all of them. -/
theorem each_adds {α : Type} {body : α → State → Except (Raised × State) State}
    {bytes : State → ℕ} {parts : α → List Interval} {xs : List α}
    (hbody : ∀ x ∈ xs, ∀ s, s.cancelled = false →
      ∃ s', body x s = .ok s' ∧ Adds bytes (parts x) s s') {s : State} (hs : s.cancelled = false) :
    ∃ s', each body xs s = .ok s' ∧ Adds bytes (xs.flatMap parts) s s' := by
  induction xs generalizing s with
  | nil => exact ⟨s, rfl, hs, rfl, rfl⟩
  | cons x xs ih =>
    obtain ⟨s', hok, hadds⟩ := hbody x List.mem_cons_self s hs
    obtain ⟨s'', hrest, hadds'⟩ := ih (fun y hy => hbody y (List.mem_cons_of_mem x hy)) hadds.going
    refine ⟨s'', ?_, hadds.trans hadds'⟩
    rw [each, hok]
    simp only [hadds.going]
    exact hrest

/-- What is counted inside a tier. -/
def State.inTier (page : ℕ) (s : State) : ℕ := (s.pages + s.count) * page + s.skippedBytes

/-- What is counted between two tiers. -/
def State.total (page : ℕ) (s : State) : ℕ := s.pages * page + s.skippedBytes

/-- Nobody cancels, and a chunk that cannot be populated has been unmapped. -/
structure Calm (around : Around) : Prop where
  cancelled : ∀ n, around.cancelled n = false
  populate : ∀ n chunk e, around.populate n chunk = some e → e = .enomem ∧ Unmapped around n chunk

/-- A chunk is populated, or skipped. -/
theorem touch_adds (h : Calm around) {chunk : Interval} (haligned : Aligned page chunk) {s : State}
    (hs : s.cancelled = false) :
    ∃ s', touch page around chunk s = .ok s' ∧ Adds (State.inTier page) [chunk] s s' := by
  have hpages : (chunk.2 - chunk.1) / page * page = chunk.2 - chunk.1 :=
    Nat.div_mul_cancel (Nat.dvd_sub haligned.2 haligned.1)
  rw [touch, if_neg (by simp [h.cancelled])]
  cases hpop : around.populate s.turn chunk with
  | none =>
    refine ⟨_, rfl, hs, rfl, ?_⟩
    simp only [State.inTier, List.map_cons, List.map_nil, List.sum_cons, List.sum_nil]
    rw [← Nat.add_assoc, Nat.add_mul, hpages]
    omega
  | some e =>
    obtain ⟨rfl, hgone⟩ := h.populate _ _ _ hpop
    simp only [stillMapped_of_unmapped hgone]
    refine ⟨_, if_neg (by simp), hs, rfl, ?_⟩
    simp only [State.inTier, List.map_cons, List.map_nil, List.sum_cons, List.sum_nil]
    omega

variable {excluded : List Interval}

/-- The chunks of what is left of a range. -/
def rangeChunks (excluded : List Interval) (range : Interval) : List Interval :=
  (subtract range excluded).flatMap chunks

theorem warmRange_adds (h : Calm around) (hpage : page ∣ chunkBytes)
    (hholes : ∀ e ∈ excluded, Aligned page e) {range : Interval} (hrange : Aligned page range)
    {s : State} (hs : s.cancelled = false) :
    ∃ s', warmRange page around excluded range s = .ok s' ∧
      Adds (State.inTier page) (rangeChunks excluded range) s s' := by
  refine each_adds (fun part hpart t ht => ?_) hs
  have haligned := aligned_of_mem_subtract hrange hholes part hpart
  have hchunks : ∀ c ∈ chunks part, ∀ u : State, u.cancelled = false →
      ∃ u', touch page around c u = .ok u' ∧ Adds (State.inTier page) [c] u u' :=
    fun c hc u hu => touch_adds h (aligned_of_mem_chunks hpage haligned hc) hu
  obtain ⟨t', hok, hadds⟩ := each_adds hchunks ht
  rw [List.flatMap_singleton'] at hadds
  exact ⟨t', hok, hadds⟩

theorem warmTier_adds (h : Calm around) (hpage : page ∣ chunkBytes)
    (hholes : ∀ e ∈ excluded, Aligned page e) {tier : ℕ × List Interval}
    (htier : ∀ e ∈ tier.2, Aligned page e) {s : State} (hs : s.cancelled = false) :
    ∃ s', warmTier page around excluded tier s = .ok s' ∧
      Adds (State.total page) (tier.2.flatMap (rangeChunks excluded)) s s' := by
  obtain ⟨s', hok, hadds⟩ := each_adds (s := { s with count := 0 })
    (fun range hrange t ht => warmRange_adds h hpage hholes (htier range hrange) ht) hs
  refine ⟨{ s' with pages := s'.pages + s'.count, tiers := s'.tiers ++ [(tier.1, s'.count)] },
    ?_, hadds.going, hadds.touched, ?_⟩
  · rw [warmTier, hok]
  · have hbytes := hadds.bytes_eq
    simp only [State.inTier, State.total, Nat.add_zero] at hbytes ⊢
    exact hbytes

/-! ### The pass -/

/-- The chunks of some ranges tile what is left of these. -/
theorem rangeChunks_tile {ranges : List Interval} {region : Finset ℕ} (h : Tiles ranges region)
    (hholes : ∀ e ∈ excluded, e.1 ≤ e.2) :
    Tiles (ranges.flatMap (rangeChunks excluded)) (region \ union excluded) := by
  have hparts := h.flatMap fun e _ => subtract_tiles e hholes
  have hpart : ∀ part ∈ ranges.flatMap fun e => subtract e excluded,
      Tiles (chunks part) (span part \ ∅) := fun part _ => by
    rw [Finset.sdiff_empty]
    exact chunks_tile part
  have hchunks := hparts.flatMap hpart
  rw [Finset.sdiff_empty, List.flatMap_assoc] at hchunks
  exact hchunks

theorem of_mem_rangeChunks {ranges : List Interval} {chunk : Interval}
    (h : chunk ∈ ranges.flatMap (rangeChunks excluded)) : chunk.2 - chunk.1 ≤ chunkBytes := by
  obtain ⟨range, -, hin⟩ := List.mem_flatMap.mp h
  obtain ⟨part, -, hchunk⟩ := List.mem_flatMap.mp hin
  exact (of_mem_chunks hchunk).2

/-- A pass that nobody cancels touches the chunks of all tiers, and counts them. -/
theorem run_calm (h : Calm around) (hexcluded : around.excluded = .ok excluded)
    (hpage : page ∣ chunkBytes) (hholes : ∀ e ∈ excluded, Aligned page e)
    {tiered : List (ℕ × List Interval)} (htiered : ∀ t ∈ tiered, ∀ e ∈ t.2, Aligned page e) :
    (run page around tiered).state = .completed ∧
      (run page around tiered).touched = (tiered.flatMap (·.2)).flatMap (rangeChunks excluded) ∧
      (run page around tiered).pages * page + (run page around tiered).skippedBytes =
        (((tiered.flatMap (·.2)).flatMap (rangeChunks excluded)).map fun c => c.2 - c.1).sum := by
  obtain ⟨s, hok, hadds⟩ := each_adds (s := State.start)
    (fun tier htier t ht => warmTier_adds h hpage hholes (htiered tier htier) ht) rfl
  rw [← List.flatMap_assoc] at hadds
  have hrun : run page around tiered = s.report .completed := by
    rw [run, hexcluded]
    simp only [hok, hadds.going, Bool.false_eq_true, if_false]
  have htouched : s.touched = ((tiered.flatMap (·.2)).flatMap (rangeChunks excluded)).reverse := by
    rw [hadds.touched]
    exact List.append_nil _
  have htotal := hadds.bytes_eq
  simp only [State.total, State.start, Nat.zero_mul, Nat.zero_add] at htotal
  rw [hrun]
  exact ⟨rfl, by rw [State.report, htouched, List.reverse_reverse], htotal⟩

/-- **What a pass touches.** The map has mappings of whole pages that do not meet, and the excluded
intervals are any ones of whole pages. If nobody cancels, and populating fails only on what has been
unmapped, then the chunks are apart, none is larger than 512 KiB, they are the ordinary private
writable mappings without the excluded intervals, and the report counts all of their bytes. What
tells unmapped chunks from others says for every interval with an address in it whether all of its
addresses are in the ranges. -/
theorem touches_exactly (page : ℕ) (hpage : page ∣ chunkBytes) (ms : Listing)
    (hms : ∀ m ∈ ms, Aligned page m.1.range) (hapart : Apart (ms.map (·.1.range)))
    (excluded : List Interval) (hholes : ∀ e ∈ excluded, e.1 ≤ e.2 ∧ Aligned page e)
    (around : Around) (hexcluded : around.excluded = .ok excluded) (hcalm : Calm around) :
    ∃ tiered, anonymousPrivateRanges ms.lines = some tiered ∧
      (run page around tiered).state = .completed ∧
      Apart (run page around tiered).touched ∧
      (∀ c ∈ (run page around tiered).touched, c.2 - c.1 ≤ chunkBytes) ∧
      union (run page around tiered).touched = ms.region \ union excluded ∧
      (run page around tiered).pages * page + (run page around tiered).skippedBytes =
        (ms.region \ union excluded).card ∧
      ∀ start stop ranges, start < stop → (covers start stop ranges = true ↔
        ∀ b, start ≤ b → b < stop → ∃ e ∈ ranges, e.1 ≤ b ∧ b < e.2) := by
  have htiered : ∀ t ∈ [(1, ms.ofTier 1), (2, ms.ofTier 2)].filter (·.2 ≠ []),
      ∀ e ∈ t.2, Aligned page e := by
    intro t ht e he
    have hmem : e ∈ ms.ofTier 1 ++ ms.ofTier 2 := by
      rw [← flatMap_tiers]
      exact List.mem_flatMap.mpr ⟨t, ht, he⟩
    obtain ⟨m, hm, rfl⟩ := List.mem_map.mp ((ofTier_perm ms).mem_iff.mp hmem)
    obtain ⟨entry, hentry, rfl⟩ := List.mem_map.mp (List.mem_filter.mp hm).1
    exact hms entry hentry
  obtain ⟨hstate, htouched, htotal⟩ := run_calm hcalm hexcluded hpage
    (fun e he => (hholes e he).2) htiered
  rw [flatMap_tiers] at htouched htotal
  have htiles := rangeChunks_tile (tiers_tile hapart) fun e he => (hholes e he).1
  refine ⟨_, anonymousPrivateRanges_lines ms, hstate, ?_, ?_, ?_, ?_, fun start stop ranges hlt =>
    covers_iff hlt ranges⟩
  · rw [htouched]
    exact htiles.apart
  · rw [htouched]
    exact fun c hc => of_mem_rangeChunks hc
  · rw [htouched]
    exact htiles.union_eq
  · rw [htotal, htiles.card]

/-- A heap, and code that is made while it runs. -/
def heapAndCode (x : Bool) : Listing :=
  [(⟨(2097152, 4194304), ⟨true, true, false, false⟩, 0, (0, 0), 0, "[heap]".toList⟩, 20),
    (⟨(8388608, 8392704), ⟨true, true, x, false⟩, 0, (0, 0), 0, []⟩, 0)]

/-- Two intervals that overlap are excluded. The first chunk is gone when its turn comes. -/
def firstGone : Around where
  excluded := .ok [(2101248, 2109440), (2105344, 2113536)]
  cancelled _ := false
  populate n chunk := if n = 0 ∧ chunk.1 < chunk.2 then some .enomem else none
  live _ := some []

theorem firstGone_calm : Calm firstGone where
  cancelled _ := rfl
  populate n chunk e h := by
    simp only [firstGone] at h
    split_ifs at h with hturn
    obtain rfl := Option.some.inj h
    refine ⟨rfl, [], rfl, chunk.1, Finset.mem_Ico.mpr ⟨le_rfl, hturn.2⟩, ?_⟩
    exact Finset.notMem_empty _

theorem touches_exactly_heap :
    ∃ tiered, anonymousPrivateRanges (heapAndCode false).lines = some tiered ∧
      (run 4096 firstGone tiered).state = .completed ∧
      Apart (run 4096 firstGone tiered).touched ∧
      (∀ c ∈ (run 4096 firstGone tiered).touched, c.2 - c.1 ≤ chunkBytes) ∧
      union (run 4096 firstGone tiered).touched = (heapAndCode false).region \
        union [(2101248, 2109440), (2105344, 2113536)] ∧
      (run 4096 firstGone tiered).pages * 4096 + (run 4096 firstGone tiered).skippedBytes =
        ((heapAndCode false).region \ union [(2101248, 2109440), (2105344, 2113536)]).card ∧
      ∀ start stop ranges, start < stop → (covers start stop ranges = true ↔
        ∀ b, start ≤ b → b < stop → ∃ e ∈ ranges, e.1 ≤ b ∧ b < e.2) := by
  have hapart : Apart ((heapAndCode false).map (·.1.range)) := by
    refine List.pairwise_pair.mpr ?_
    exact (Finset.Ico_disjoint_Ico_consecutive _ _ _).mono_right
      (Finset.Ico_subset_Ico_left (by decide))
  exact touches_exactly 4096 (by decide) (heapAndCode false) (by decide) hapart _ (by decide)
    firstGone rfl firstGone_calm

/-- A mapping that may be written and executed is private, writable and of no file, and it is not
touched. -/
theorem executable_untouched :
    (∃ m ∈ heapAndCode true, m.1.perms.w = true ∧ m.1.perms.shared = false ∧ m.1.inode = 0 ∧
      m.1.name = [] ∧ m.1.range = (8388608, 8392704)) ∧
    anonymousPrivateRanges (heapAndCode true).lines = some [(1, [(2097152, 4194304)])] ∧
    (run 4096 firstGone [(1, [(2097152, 4194304)])]).state = .completed ∧
    ∀ c ∈ (run 4096 firstGone [(1, [(2097152, 4194304)])]).touched, c.2 ≤ 8388608 := by
  refine ⟨⟨_, List.mem_cons_of_mem _ List.mem_cons_self, rfl, rfl, rfl, rfl, rfl⟩, ?_, ?_, ?_⟩
  · rw [anonymousPrivateRanges_lines]
    rfl
  · decide +kernel
  · decide +kernel

end Prewarm

end DeltaBox
