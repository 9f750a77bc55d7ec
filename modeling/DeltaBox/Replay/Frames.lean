import DeltaBox.Lib.Dumps
import DeltaBox.Replay.Agent

/-!
# Frames that are cut off

A request is written as a frame: a record separator, a JSON object and a newline (`AgentProbe._send`,
and `_write_ctrl_abort_pending_all` of the controller). The write of a frame may end anywhere, when its
time is over or a restore comes. The main loop of `agent.py` collects what it reads, cuts lines, and
takes what stands behind the last separator of a line.

A restored process has the buffer that it had; a line that it has cut is decoded by it or by nobody.

## What is given

`loads` is `json.loads` of a line that has been decoded. It reads back what `json.dumps` has written.

## Main definitions

* `Piece` — a frame that is written completely, or up to a point
* `Reader`, `read` — the main loop as far as it reads

## Main results

* `frames_resynchronise` — the objects that are decoded are those of the complete frames
-/

namespace DeltaBox

namespace Frames

open Lines Machine
open Replay (lastRecord)
open Host (Bytes nl rs block)
open Json (Value dumps Sound)

/-! ### Frames -/

/-- What is sent: an object. -/
structure Payload where
  members : List (List ℕ × Value)
  sound : Sound (.obj members)

def Payload.value (p : Payload) : Value := .obj p.members

/-- `json.dumps(payload).encode()`. -/
def Payload.text (p : Payload) : Bytes := (dumps p.value).map fun c => c.toNat.toUInt8

def Payload.frame (p : Payload) : Bytes := rs :: p.text ++ [nl]

/-- A frame, and where its write has ended if it was not complete. -/
structure Piece where
  payload : Payload
  cut : Option ℕ

def Piece.bytes (p : Piece) : Bytes :=
  match p.cut with
  | none => p.payload.frame
  | some k => p.payload.frame.dropLast.take k

/-- What is written, one piece behind the other. -/
def written (ps : List Piece) : Bytes := ps.flatMap Piece.bytes

/-- The objects of the complete frames. -/
def complete (ps : List Piece) : List Value :=
  (ps.filter fun p => p.cut = none).map fun p => p.payload.value

/-! ### The main loop -/

/-- The reader, and what is on its way to it. -/
structure Reader where
  /-- What will still be written. -/
  coming : Bytes
  fifo : Bytes
  /-- `f_in_buf`. -/
  buf : Bytes
  /-- The line that has been cut. -/
  line : Option Bytes
  /-- What has been decoded, the last at the end. -/
  decoded : List Value
  /-- How many lines were no objects. -/
  refused : ℕ

inductive Move where
  /-- So many bytes are written. -/
  | write (n : ℕ)
  /-- `os.read`, which gets so many bytes. -/
  | read (n : ℕ)
  /-- Cut a line. -/
  | split
  /-- `json.loads`. -/
  | decode
  /-- The process is killed, and another one has its memory. -/
  | restore

variable (loads : Bytes → Option Value)

/-- Decode a line: a line that is no object is logged and forgotten. -/
def Reader.take (s : Reader) (line : Bytes) : Reader :=
  match loads (lastRecord line) with
  | some (.obj ms) => { s with line := none, decoded := s.decoded ++ [.obj ms] }
  | _ => { s with line := none, refused := s.refused + 1 }

/-- One step. The loop reads only when there is no line in the buffer. -/
def read (s : Reader) : Move → Option Reader
  | .write n => some { s with coming := s.coming.drop n, fifo := s.fifo ++ s.coming.take n }
  | .read n =>
    if s.line ≠ none ∨ nl ∈ s.buf ∨ block < n then none
    else some { s with buf := s.buf ++ s.fifo.take n, fifo := s.fifo.drop n }
  | .split =>
    if s.line ≠ none then none
    else (split1 nl s.buf).map fun e => { s with line := some e.1, buf := e.2 }
  | .decode => s.line.map (s.take loads)
  | .restore => some s

/-- Nothing has been written yet. -/
def waiting (bs : Bytes) : Reader := ⟨bs, [], [], none, [], 0⟩

variable {loads} {ps : List Piece} {p : Payload} {s t : Reader}

/-! ### What a frame has in it -/

/-- No byte of the text is a separator or a newline. -/
theorem bytes_text (p : Payload) : ∀ b ∈ p.text, b ≠ rs ∧ b ≠ nl := by
  intro b hb
  obtain ⟨c, hc, rfl⟩ := List.mem_map.mp hb
  obtain ⟨hlo, hhi⟩ := Json.printable_dumps p.sound c hc
  have hval : (c.toNat.toUInt8).toNat = c.toNat := by
    rw [Nat.toUInt8_eq, UInt8.toNat_ofNat']
    omega
  constructor
  · intro heq
    have hrs : (30 : ℕ) = c.toNat := by rw [← hval, heq]; rfl
    omega
  · intro heq
    have hnl : (10 : ℕ) = c.toNat := by rw [← hval, heq]; rfl
    omega

theorem dropLast_frame (p : Payload) : p.frame.dropLast = rs :: p.text := by
  rw [Payload.frame, List.dropLast_concat]

/-- A frame that is cut off has no newline. -/
theorem nl_notMem_cut {piece : Piece} (h : piece.cut ≠ none) : nl ∉ piece.bytes := by
  obtain ⟨k, hk⟩ := Option.ne_none_iff_exists'.mp h
  intro hmem
  rw [Piece.bytes, hk, dropLast_frame] at hmem
  rcases List.mem_cons.mp (List.mem_of_mem_take hmem) with heq | hmem
  · exact absurd heq (by decide)
  · exact (bytes_text _ _ hmem).2 rfl

/-- What stands behind the last separator, where a frame follows some pieces of others. -/
theorem lastRecord_frame (front : Bytes) (p : Payload) : lastRecord (front ++ rs :: p.text) = p.text := by
  have hall : ∀ b ∈ p.text, decide (b ≠ rs) = true := fun b hb => decide_eq_true (bytes_text p b hb).1
  rw [lastRecord, List.rtakeWhile, List.reverse_append, List.reverse_cons, List.append_assoc,
    List.takeWhile_append_of_pos (by simpa using fun b hb => hall b hb)]
  simp

/-! ### The lines -/

theorem lines_eq_nil {bs : Bytes} (h : nl ∉ bs) : lines nl bs = [] := by
  induction bs with
  | nil => rfl
  | cons b bs ih =>
    rw [List.mem_cons, not_or] at h
    rw [lines, if_neg (Ne.symm h.1), ih h.2]

/-- The lines of what is written are read as the objects of the complete frames, also behind some bytes
of frames that are cut off. -/
theorem lines_written (front : Bytes) (hfront : nl ∉ front) :
    ∃ ls, lines nl (front ++ written ps) = ls ∧
      ls.map lastRecord = ((ps.filter fun p => p.cut = none).map fun p => p.payload.text) := by
  refine ⟨_, rfl, ?_⟩
  induction ps generalizing front with
  | nil =>
    simp [written, lines_eq_nil hfront]
  | cons piece ps ih =>
    rw [written, List.flatMap_cons, ← written, ← List.append_assoc]
    by_cases hcut : piece.cut = none
    · have hbytes : piece.bytes = rs :: piece.payload.text ++ [nl] := by
        rw [Piece.bytes, hcut]
        rfl
      have hline : nl ∉ front ++ rs :: piece.payload.text := by
        intro hmem
        rcases List.mem_append.mp hmem with hmem | hmem
        · exact hfront hmem
        · rcases List.mem_cons.mp hmem with heq | hmem
          · exact absurd heq (by decide)
          · exact (bytes_text _ _ hmem).2 rfl
      have hassoc : front ++ piece.bytes ++ written ps =
          (front ++ rs :: piece.payload.text) ++ nl :: ([] ++ written ps) := by
        simp [hbytes]
      rw [hassoc, lines_append hline, List.map_cons, lastRecord_frame, ih [] (by simp),
        List.filter_cons_of_pos (by simpa using hcut), List.map_cons]
    · have hmore : nl ∉ front ++ piece.bytes := by
        rw [List.mem_append, not_or]
        exact ⟨hfront, nl_notMem_cut hcut⟩
      rw [ih _ hmore, List.filter_cons_of_neg (by simpa using hcut)]

/-! ### Runs -/

/-- The lines that have been decoded, the one that has been cut, and what is left are all of it. -/
structure Reading (loads : Bytes → Option Value) (ps : List Piece) (s : Reader) : Prop where
  whole : ∃ done, (∀ l ∈ done, nl ∉ l) ∧ (∀ l ∈ s.line, nl ∉ l) ∧
    written ps = join nl (done ++ s.line.toList) ++ s.buf ++ s.fifo ++ s.coming ∧
    done.map (fun l => loads (lastRecord l)) = s.decoded.map some
  refused : s.refused = 0

theorem reading_waiting : Reading loads ps (waiting (written ps)) :=
  ⟨⟨[], by simp, by simp [waiting], rfl, rfl⟩, rfl⟩

/-- The lines of a stream that begins with complete lines. -/
theorem prefix_lines {done : List Bytes} {rest : Bytes} (hdone : ∀ l ∈ done, nl ∉ l)
    (h : written ps = join nl done ++ rest) : lines nl (written ps) = done ++ lines nl rest := by
  rw [h, lines_join hdone]

/-- What the lines of a stream are read as. -/
theorem loads_lines (hloads : ∀ p ∈ ps, p.cut = none → loads p.payload.text = some p.payload.value) :
    (lines nl (written ps)).map (fun l => loads (lastRecord l)) = (complete ps).map some := by
  obtain ⟨ls, hls, hmap⟩ := @lines_written ps [] (by simp)
  rw [List.nil_append] at hls
  have hcomp : ls.map (fun l => loads (lastRecord l)) = (ls.map lastRecord).map loads := by
    rw [List.map_map]
    rfl
  rw [hls, hcomp, hmap, complete, List.map_map, List.map_map]
  refine List.map_congr_left fun p hp => ?_
  obtain ⟨hp, hcut⟩ := List.mem_filter.mp hp
  exact hloads p hp (of_decide_eq_true hcut)

/-- **One step.** -/
theorem Reading.step (hloads : ∀ p ∈ ps, p.cut = none → loads p.payload.text = some p.payload.value)
    (h : Reading loads ps s) {m : Move} (hstep : read loads s m = some t) : Reading loads ps t := by
  obtain ⟨done, hdone, hline, hwhole, hdecoded⟩ := h.whole
  cases m with
  | write n =>
    obtain rfl := Option.some.inj hstep
    refine ⟨⟨done, hdone, hline, ?_, hdecoded⟩, h.refused⟩
    rw [hwhole]
    simp only [List.append_assoc, List.take_append_drop]
  | read n =>
    obtain ⟨hready, heq⟩ := Option.ite_none_left_eq_some.mp hstep
    obtain rfl := Option.some.inj heq
    refine ⟨⟨done, hdone, hline, ?_, hdecoded⟩, h.refused⟩
    have hfifo : s.fifo.take n ++ s.fifo.drop n = s.fifo := List.take_append_drop n _
    rw [hwhole]
    conv_lhs => rw [← hfifo]
    simp only [List.append_assoc]
  | split =>
    obtain ⟨hnone, hcut⟩ := Option.ite_none_left_eq_some.mp hstep
    obtain ⟨⟨line, rest⟩, hsplit, rfl⟩ := Option.map_eq_some_iff.mp hcut
    obtain ⟨hbuf, hnl⟩ := eq_of_split1 hsplit
    have hno : s.line = none := not_not.mp hnone
    refine ⟨⟨done, hdone, ?_, ?_, hdecoded⟩, h.refused⟩
    · intro l hl
      obtain rfl := Option.mem_some_iff.mp hl
      exact hnl
    · rw [hwhole, hno, hbuf]
      simp [join]
  | decode =>
    obtain ⟨line, hsome, rfl⟩ := Option.map_eq_some_iff.mp hstep
    have hnl : nl ∉ line := hline line hsome
    have hdone' : ∀ l ∈ done ++ [line], nl ∉ l := by
      intro l hl
      rcases List.mem_append.mp hl with hl | hl
      · exact hdone l hl
      · exact List.mem_singleton.mp hl ▸ hnl
    have hwhole' : written ps = join nl (done ++ [line]) ++ (s.buf ++ s.fifo ++ s.coming) := by
      rw [hwhole, hsome]
      simp only [Option.toList_some, List.append_assoc]
    -- the line is one of those that are written, so that it is an object
    have hmem : loads (lastRecord line) ∈ (complete ps).map some := by
      rw [← loads_lines hloads, prefix_lines hdone' hwhole']
      exact List.mem_map.mpr ⟨line, by simp, rfl⟩
    obtain ⟨v, hv, hload⟩ := List.mem_map.mp hmem
    obtain ⟨p, -, rfl⟩ := List.mem_map.mp hv
    have htake : s.take loads line =
        { s with line := none, decoded := s.decoded ++ [p.payload.value] } := by
      rw [Reader.take, ← hload]
      rfl
    rw [htake]
    refine ⟨⟨done ++ [line], hdone', by simp, ?_, ?_⟩, h.refused⟩
    · rw [hwhole']
      simp only [Option.toList_none, List.append_nil, List.append_assoc]
    · rw [List.map_append, List.map_append, hdecoded, List.map_cons, ← hload]
      rfl
  | restore =>
    obtain rfl := Option.some.inj hstep
    exact h

/-- **The objects that are decoded are those of the complete frames**, in order and each of them once.
No line is refused, and when all has been read nothing is missing. -/
theorem frames_resynchronise (loads : Bytes → Option Value) (ps : List Piece)
    (hloads : ∀ p ∈ ps, p.cut = none → loads p.payload.text = some p.payload.value) {ms : List Move}
    {t : Reader} (hrun : exec (read loads) (waiting (written ps)) ms = some t) :
    t.decoded <+: complete ps ∧ t.refused = 0 ∧
      (t.coming = [] → t.fifo = [] → t.line = none → nl ∉ t.buf → t.decoded = complete ps) := by
  have hinv := invariant (fun h hstep => Reading.step hloads h hstep) reading_waiting hrun
  obtain ⟨done, hdone, hline, hwhole, hdecoded⟩ := hinv.whole
  have hinj : Function.Injective (some : Value → Option Value) := Option.some_injective _
  have hassoc : written ps = join nl (done ++ t.line.toList) ++ (t.buf ++ t.fifo ++ t.coming) := by
    rw [hwhole]
    simp only [List.append_assoc]
  have hall : ∀ l ∈ done ++ t.line.toList, nl ∉ l := by
    intro l hl
    rcases List.mem_append.mp hl with hl | hl
    · exact hdone l hl
    · exact hline l (Option.mem_toList.mp hl)
  have hlines := congrArg (List.map fun l => loads (lastRecord l)) (prefix_lines hall hassoc)
  rw [loads_lines hloads, List.append_assoc, List.map_append, hdecoded] at hlines
  refine ⟨?_, hinv.refused, fun hcoming hfifo hnone hbuf => ?_⟩
  · obtain ⟨l, hl, heq⟩ := List.prefix_map_iff.mp ⟨_, hlines.symm⟩
    exact List.map_injective_iff.mpr hinj heq ▸ hl
  · rw [hnone, hcoming, hfifo, List.append_nil, List.append_nil, lines_eq_nil hbuf] at hlines
    refine List.map_injective_iff.mpr hinj ?_
    simpa using hlines.symm

/-- Two frames that are cut off, one of them right before its newline, and a complete one. -/
def cutFrames : List Piece :=
  [⟨⟨[], trivial⟩, some 2⟩, ⟨⟨[([105], .bool true)], trivial, trivial⟩, some 100⟩,
    ⟨⟨[], trivial⟩, none⟩]

/-- The reading of the only complete frame that they contain. -/
def loadsEmpty (line : Bytes) : Option Value := if line = [123, 125] then some (.obj []) else none

/-- A restore in the middle of the first one. -/
def cutMoves : List Move := [.write 5, .read 5, .restore, .write 100, .read 100, .split, .decode]

theorem frames_resynchronise_cut : ∃ t : Reader,
    exec (read loadsEmpty) (waiting (written cutFrames)) cutMoves = some t ∧
      t.decoded = [.obj []] := by
  have hloads : ∀ p ∈ cutFrames, p.cut = none →
      loadsEmpty p.payload.text = some p.payload.value := by
    intro p hp hcut
    simp only [cutFrames, List.mem_cons, List.not_mem_nil, or_false] at hp
    obtain rfl | rfl | rfl := hp
    · simp at hcut
    · simp at hcut
    · rfl
  obtain ⟨t, hrun, hcoming, hfifo, hline, hbuf⟩ : ∃ t : Reader,
      exec (read loadsEmpty) (waiting (written cutFrames)) cutMoves = some t ∧ t.coming = [] ∧
        t.fifo = [] ∧ t.line = none ∧ nl ∉ t.buf := ⟨_, rfl, rfl, rfl, rfl, by decide +kernel⟩
  exact ⟨t, hrun, (frames_resynchronise loadsEmpty cutFrames hloads hrun).2.2 hcoming hfifo hline hbuf⟩

end Frames

end DeltaBox
