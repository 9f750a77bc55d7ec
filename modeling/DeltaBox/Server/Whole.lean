import DeltaBox.Lib.Below
import DeltaBox.Server.Requests

/-!
# A command is run as a whole

What `do_bash` recognises it recognises by the first characters. `cd src && pytest` begins like a
`cd`, its second word is a directory, and `pytest` is never run, while the reply reports success.

A run is free of this as long as what begins like a `cd` or like an `export` with an equals sign is
one such command, in words that bash takes as they are. The kept directory stays a directory of the
repository as long as `set_cwd` and the environment of the server name absolute paths without dots,
and no command takes the directory away.

## Main definitions

* `Anchored` — the kept directory is an absolute path of a directory in the repository
* `Whole` — a command was rejected, run by bash as it is, or done as bash does it
* `Fine` — the condition on a request

## Main results

* `runs_whole` — in a run of such requests every command is whole, and every state anchored
* `compound_dropped` — a command that is not
-/

namespace DeltaBox

namespace Server

open Bash

/-! ### What is wanted -/

/-- Is a path in the repository? -/
def Below (fs : Fs) (root path : String) : Prop :=
  fs.realpath path = root ∨ Posix.startswith (fs.realpath path) (root ++ "/") = true

instance (fs : Fs) (root path : String) : Decidable (Below fs root path) :=
  inferInstanceAs (Decidable (_ ∨ _))

/-- `_cwd` is an absolute path of a directory in the repository. -/
structure Anchored (s : State) : Prop where
  isabs : Posix.isabs s.cwd = true
  isdir : s.fs.isdir s.cwd = true
  below : Below s.fs s.repoRoot s.cwd

/-- The replies that reject a command. -/
def Reply.rejected (r : Reply) : Bool :=
  r.error = some "unsafe_absolute_path" || r.error = some "cwd_escape"

/-- A text of blanks and newlines. -/
def blank (cs : List Char) : Bool := cs.all fun c => c ∈ [' ', '\t', '\n']

/-- A command string that consists of one simple command. -/
def Lone (cmd : String) (c : Shell.Simple) : Prop :=
  ∃ lead trail, blank lead = true ∧ blank trail = true ∧ cmd.toList = lead ++ c.chars ++ trail

/-- What bash makes of a `cd` is what the server keeps. -/
def CdKept (s : State) (dir : String) (d : Done) : Prop :=
  match Bash.cd s.fs s.env s.cwd dir with
  | some path => d.reply.rc = 0 ∧ d.state.cwd = path ∧ d.state.env = s.env.set "PWD" path
  | none => d.reply.rc ≠ 0 ∧ d.state.cwd = s.cwd ∧ d.state.env = s.env

/-- What bash makes of an `export` is what the server keeps. -/
def ExportKept (s : State) (args : List String) (d : Done) : Prop :=
  exports s.env args = (d.state.env, decide (d.reply.rc = 0)) ∧ d.state.cwd = s.cwd

/-- A command that is not rejected is run by bash as it is, or it is a single `cd` or `export` and
done as bash does it. -/
def Whole (s : State) (cmd : String) (d : Done) : Prop :=
  d.reply.rejected = true ∨
  (d.ran = some ⟨cmd, s.cwd, s.env.set "PWD" s.cwd⟩ ∧ d.state.cwd = s.cwd ∧ d.state.env = s.env) ∨
  (d.ran = none ∧ ∃ c, Lone cmd c ∧ c.plain = true ∧
    ((∃ dir, cdWord s.env c.words = some dir ∧ CdKept s dir d) ∨
      ∃ args, c.words = "export" :: args ∧ ExportKept s args d))

/-! ### The condition -/

/-- An absolute path without dots. -/
def Normal (path : String) : Prop := Posix.isabs path = true ∧ Posix.normpath path = path

instance (path : String) : Decidable (Normal path) := inferInstanceAs (Decidable (_ ∧ _))

/-- The path of a `cd` and the same path without its dots are the same to the file system. -/
structure PlainDir (s : State) (dir : String) : Prop where
  normal : Posix.isabs dir = true → Posix.normpath dir = dir
  dots : s.fs.isdir (Posix.normpath (Posix.join s.cwd dir)) = true →
    dotsExist s.fs (Posix.initialSlashes (Posix.join s.cwd dir)) []
      (Posix.split (Posix.join s.cwd dir)) = true
  isdir : s.fs.isdir (Posix.join s.cwd dir) = true →
    s.fs.isdir (Posix.normpath (Posix.join s.cwd dir)) = true

/-- A command string that is one plain command, with nothing that stripping cuts off. -/
structure Plain (cmd : String) (c : Shell.Simple) : Prop where
  lone : Lone cmd c
  plain : c.plain = true
  strip : Text.strip c.chars = c.chars

/-- A plain `cd`. -/
def PlainCd (s : State) (cmd : String) : Prop :=
  ∃ c dir, Plain cmd c ∧ cdWord s.env c.words = some dir ∧ s.env.find? "CDPATH" = none ∧
    PlainDir s dir

/-- A plain `export` of variables that bash lets be set. -/
def PlainExport (cmd : String) : Prop :=
  ∃ c args, Plain cmd c ∧ c.words = "export" :: args ∧ args.all exportable = true ∧
    args.all noNul = true

/-- The kept directory stays where it is. -/
def Stays (s : State) (after : Fs) : Prop :=
  after.isdir s.cwd = true ∧ Below after s.repoRoot s.cwd

/-- The condition on a request. -/
def Fine (s : State) : Request → Prop
  | .bash cmd _ after =>
    unsafeText.any (contains cmd) = true ∨
    if startsCd (Text.strip cmd.toList) then PlainCd s cmd
    else if startsExport (Text.strip cmd.toList) then PlainExport cmd
    else noNul cmd = true ∧ Stays s after
  | .python _ after => Stays s after
  | .files after => Stays s after
  | .setCwd path => Normal path
  | .setEnv key value => '=' ∉ key.toList ∧ noNul key = true ∧ noNul value = true

/-- A process can be started with these variables. -/
def EnvOk (env : Dict String String) : Prop :=
  ∀ k v, env.find? k = some v → '=' ∉ k.toList ∧ noNul k = true ∧ noNul v = true

/-- The server is started in a directory with an absolute path without dots. -/
structure Started (made : Fs) (initialCwd : String) (environ : Dict String String) : Prop where
  normal : Normal initialCwd
  /-- `os.makedirs` has not raised. -/
  isdir : made.isdir initialCwd = true
  root : noNul (made.realpath initialCwd) = true
  environ : EnvOk environ

/-! ### The texts -/

theorem isSpace_of_blank {cs : List Char} (h : blank cs = true) :
    ∀ c ∈ cs, Text.isSpace c = true := by
  intro c hc
  have : c ∈ [' ', '\t', '\n'] := by simpa using List.all_eq_true.mp h c hc
  simp only [List.mem_cons, List.not_mem_nil, or_false] at this
  rcases this with rfl | rfl | rfl <;> decide

/-- Nothing but the command is left when it is stripped. -/
theorem Plain.strip_eq {cmd : String} {c : Shell.Simple} (h : Plain cmd c) :
    Text.strip cmd.toList = c.chars := by
  obtain ⟨lead, trail, hlead, htrail, hcmd⟩ := h.lone
  rw [hcmd, Text.strip_between (isSpace_of_blank hlead) (isSpace_of_blank htrail), h.strip]

/-- The words behind a leading `export`. -/
theorem shlexSplit_tail {tail : List Char} {args : List String}
    (h : Shell.shlexSplit ('e' :: 'x' :: 'p' :: 'o' :: 'r' :: 't' :: ' ' :: tail) =
      some ("export" :: args)) :
    Shell.shlexSplit tail = some args := by
  have hcut : Shell.shlexSplit ('e' :: 'x' :: 'p' :: 'o' :: 'r' :: 't' :: ' ' :: tail) =
      (Shell.shlexSplit tail).map ("export" :: ·) := by
    simp [Shell.shlexSplit, Shell.shlexLoop]
  rw [hcut] at h
  obtain ⟨l, hl, heq⟩ := Option.map_eq_some_iff.mp h
  rw [hl, (List.cons.inj heq).2]

/-! ### The invariant -/

/-- What the runs keep. -/
structure Inv (s : State) : Prop extends Anchored s where
  norm : Posix.normpath s.cwd = s.cwd
  env : EnvOk s.env

variable {s : State}

@[simp] theorem anchor_cwd : s.anchor.cwd = s.cwd := by
  unfold State.anchor
  split <;> rfl

@[simp] theorem anchor_env : s.anchor.env = s.env := by
  unfold State.anchor
  split <;> rfl

@[simp] theorem anchor_fs : s.anchor.fs = s.fs := by
  unfold State.anchor
  split <;> rfl

@[simp] theorem anchor_repoRoot : s.anchor.repoRoot = s.repoRoot := by
  unfold State.anchor
  split <;> rfl

theorem join_of_isabs {dir path : String} (h : Posix.isabs path = true) :
    Posix.join dir path = path := by
  rw [Posix.join, if_pos h]

theorem isdir_eq {path : String} (h : Posix.isabs path = true) :
    s.isdir path = s.fs.isdir path := by
  rw [State.isdir, join_of_isabs h]

theorem insideRepo_iff {path : String} (h : Posix.isabs path = true) :
    s.insideRepo path = true ↔ Below s.fs s.repoRoot path := by
  simp [State.insideRepo, State.realpath, join_of_isabs h, Below]

theorem EnvOk.set {env : Dict String String} (h : EnvOk env) {k v : String}
    (hk : '=' ∉ k.toList) (hk' : noNul k = true) (hv : noNul v = true) : EnvOk (env.set k v) := by
  intro k' v' hfind
  rw [Dict.find?_set] at hfind
  split_ifs at hfind with heq
  · obtain rfl := Option.some.inj hfind
    exact heq ▸ ⟨hk, hk', hv⟩
  · exact h k' v' hfind

theorem EnvOk.setPwd {env : Dict String String} (h : EnvOk env) {v : String}
    (hv : noNul v = true) : EnvOk (env.set "PWD" v) := h.set (by decide) (by decide) hv

theorem Inv.noNul_cwd (h : Inv s) : noNul s.cwd = true := s.fs.noNul_of_isdir _ h.isdir

theorem Inv.of_same (h : Inv s) {t : State} (hcwd : t.cwd = s.cwd) (henv : t.env = s.env)
    (hroot : t.repoRoot = s.repoRoot) (hdir : t.fs.isdir s.cwd = true)
    (hbelow : Below t.fs s.repoRoot s.cwd) : Inv t where
  isabs := hcwd ▸ h.isabs
  isdir := by rw [hcwd]; exact hdir
  below := by rw [hcwd, hroot]; exact hbelow
  norm := by rw [hcwd]; exact h.norm
  env := henv ▸ h.env

theorem Inv.anchor (h : Inv s) : Inv s.anchor :=
  h.of_same anchor_cwd anchor_env anchor_repoRoot (by simpa using h.isdir) (by simpa using h.below)

theorem Inv.setEnv (h : Inv s) {env : Dict String String} (henv : EnvOk env) :
    Inv { s with env := env } where
  isabs := h.isabs
  isdir := h.isdir
  below := h.below
  norm := h.norm
  env := henv

/-- Another directory is kept. -/
theorem Inv.move (h : Inv s) {path : String} (hnormal : Normal path)
    (hdir : s.fs.isdir path = true) (hbelow : Below s.fs s.repoRoot path) :
    Inv { s with cwd := path, env := s.env.set "PWD" path } where
  isabs := hnormal.1
  isdir := hdir
  below := hbelow
  norm := hnormal.2
  env := h.env.setPwd (s.fs.noNul_of_isdir _ hdir)

/-! ### A leading `cd` -/

theorem cdTarget_eq {words : List String} {dir : String} (hdir : cdWord s.env words = some dir)
    {stripped : List Char} (hsplit : Shell.shlexSplit stripped = some words) :
    cdTarget s stripped = dir := by
  rw [cdTarget, hsplit, Option.getD_some]
  unfold cdWord at hdir
  split at hdir
  · obtain ⟨hhome, -⟩ := Option.filter_eq_some_iff.mp hdir
    simp [hhome]
  · split_ifs at hdir
    exact Option.some.inj hdir
  · cases hdir

/-- The directory that the server looks at is the one that bash looks at. -/
theorem target_eq {dir : String} (hnormal : Posix.isabs dir = true → Posix.normpath dir = dir) :
    (if Posix.isabs dir = true then dir else Posix.normpath (Posix.join s.cwd dir)) =
      Posix.normpath (Posix.join s.cwd dir) := by
  split_ifs with habs
  · rw [join_of_isabs habs, hnormal habs]
  · rfl

theorem normal_target (h : Posix.isabs s.cwd = true) (dir : String) :
    Normal (Posix.normpath (Posix.join s.cwd dir)) := by
  have hjoin : Posix.normpath (Posix.join s.cwd dir) = Posix.abspath s.cwd dir := by
    rw [Posix.abspath]
    split_ifs with habs
    · rw [join_of_isabs habs]
    · rfl
  have habs := Posix.isabs_abspath h dir
  have htwice := Posix.abspath_abspath h dir
  rw [Posix.abspath, if_pos habs] at htwice
  rw [hjoin]
  exact ⟨habs, htwice⟩

/-- What bash makes of a plain `cd`. -/
theorem change_eq {dir : String} (h : PlainDir s dir) :
    change s.fs s.cwd dir =
      if s.fs.isdir (Posix.normpath (Posix.join s.cwd dir)) then
        some (Posix.normpath (Posix.join s.cwd dir))
      else none := by
  rw [change]
  by_cases hdir : s.fs.isdir (Posix.normpath (Posix.join s.cwd dir)) = true
  · rw [if_pos ⟨h.dots hdir, hdir⟩, if_pos hdir]
  · have hraw : ¬ s.fs.isdir (Posix.join s.cwd dir) = true := fun hraw => hdir (h.isdir hraw)
    rw [if_neg fun hboth => hdir hboth.2, if_neg hraw, if_neg hdir]

/-- The three ways a plain `cd` can go. -/
theorem doCd_cases (hinv : Inv s) {words : List String} {dir : String}
    (hdir : cdWord s.env words = some dir) {stripped : List Char}
    (hsplit : Shell.shlexSplit stripped = some words) (hplain : PlainDir s dir) :
    (change s.fs s.cwd dir = none ∧ (doCd s stripped).1 = s ∧ (doCd s stripped).2.rc = 1) ∨
    (doCd s stripped = (s, rejectedCd)) ∨
    ∃ path, change s.fs s.cwd dir = some path ∧ Normal path ∧ s.fs.isdir path = true ∧
      Below s.fs s.repoRoot path ∧
      doCd s stripped = ({ s with cwd := path, env := s.env.set "PWD" path }, ok) := by
  have hnormal := normal_target hinv.isabs dir
  rw [change_eq hplain]
  unfold doCd
  simp only [cdTarget_eq hdir hsplit, target_eq hplain.normal, isdir_eq hnormal.1]
  by_cases hisdir : s.fs.isdir (Posix.normpath (Posix.join s.cwd dir)) = true
  · rw [if_pos hisdir, if_neg (by simp [hisdir])]
    by_cases hbelow : Below s.fs s.repoRoot (Posix.normpath (Posix.join s.cwd dir))
    · have hinside := (insideRepo_iff hnormal.1).mpr hbelow
      refine .inr (.inr ⟨_, rfl, hnormal, hisdir, hbelow, ?_⟩)
      rw [if_neg (by simp [hinside])]
    · have hinside : s.insideRepo (Posix.normpath (Posix.join s.cwd dir)) = false := by
        rw [← Bool.not_eq_true, insideRepo_iff hnormal.1]
        exact hbelow
      refine .inr (.inl ?_)
      rw [if_pos (by simp [hinside])]
  · refine .inl ⟨by rw [if_neg hisdir], ?_⟩
    rw [if_pos (by simp [hisdir])]
    exact ⟨rfl, rfl⟩

/-! ### A leading `export` -/

theorem foldl_exportPiece {args : List String} (h : args.all exportable = true)
    (env : Dict String String) : args.foldl exportPiece env = args.foldl exportOne env := by
  induction args generalizing env with
  | nil => rfl
  | cons w args ih =>
    rw [List.all_cons, Bool.and_eq_true] at h
    have hone : exportPiece env w = exportOne env w := by
      rw [exportPiece, exportOne]
      simp [h.1]
    rw [List.foldl_cons, List.foldl_cons, hone, ih h.2]

/-- A name of a variable has no character that an environment cannot have. -/
theorem isName_ok {name : String} (h : isName name = true) :
    '=' ∉ name.toList ∧ noNul name = true := by
  have hall : ∀ c ∈ name.toList, (c.isAlpha || c = '_') = true ∨ (c.isAlphanum || c = '_') = true := by
    unfold isName at h
    intro c hc
    cases hlist : name.toList with
    | nil =>
      rw [hlist] at hc
      cases hc
    | cons x xs =>
      rw [hlist] at h hc
      rw [Bool.and_eq_true] at h
      rcases List.mem_cons.mp hc with rfl | hc
      · exact .inl h.1
      · exact .inr (List.all_eq_true.mp h.2 c hc)
  refine ⟨fun hmem => ?_, ?_⟩
  · rcases hall _ hmem with h | h <;> revert h <;> decide
  · rw [noNul, decide_eq_true_eq]
    intro hmem
    rcases hall _ hmem with h | h <;> revert h <;> decide

theorem mem_cutEq {w : String} {c : Char}
    (h : c ∈ (cutEq w).1.toList ∨ c ∈ (cutEq w).2.toList) : c ∈ w.toList := by
  rw [cutEq, String.toList_ofList, String.toList_ofList] at h
  rcases h with h | h
  · exact (List.takeWhile_prefix _).subset h
  · exact (List.dropWhile_suffix _).subset (List.mem_of_mem_tail h)

theorem EnvOk.exports {args : List String} (hname : args.all exportable = true)
    (hnul : args.all noNul = true) {env : Dict String String} (h : EnvOk env) :
    EnvOk (args.foldl exportOne env) := by
  induction args generalizing env with
  | nil => exact h
  | cons w args ih =>
    rw [List.all_cons, Bool.and_eq_true] at hname hnul
    refine ih hname.2 hnul.2 ?_
    unfold exportOne
    split_ifs
    · have hw := isName_ok (Bool.and_eq_true .. ▸ hname.1 : isName _ = true ∧ _).1
      refine h.set hw.1 hw.2 ?_
      have hno : '\x00' ∉ w.toList := by simpa [noNul] using hnul.1
      rw [noNul, decide_eq_true_eq]
      exact fun hmem => hno (mem_cutEq (.inr hmem))
    · exact h

/-- What a leading `export` does where the condition holds. -/
theorem doExport_eq {cmd : String} {c : Shell.Simple} {args : List String} (hplain : Plain cmd c)
    (hwords : c.words = "export" :: args) (hargs : args.all exportable = true)
    (hstarts : startsExport (Text.strip cmd.toList) = true) (raised : Reply) :
    doExport s ((Text.strip cmd.toList).drop 7) raised =
      ({ s with env := args.foldl exportOne s.env }, ok) := by
  rw [startsExport, Bool.and_eq_true, decide_eq_true_eq] at hstarts
  obtain ⟨tail, htail⟩ := hstarts.1
  have hsplit := shlexSplit_chars hplain.plain
  rw [← hplain.strip_eq, ← htail, hwords] at hsplit
  have hdrop : (Text.strip cmd.toList).drop 7 = tail := by
    rw [← htail]
    rfl
  have hargs' : Shell.shlexSplit tail = some args := shlexSplit_tail hsplit
  rw [doExport, hdrop, hargs']
  simp only [foldl_exportPiece hargs]

/-! ### One request -/

/-- **A command that meets the condition is whole.** -/
theorem doBash_whole (h : Inv s) {cmd : String} {outcome : Outcome} {after : Fs}
    (hfine : Fine s (.bash cmd outcome after)) : Whole s cmd (doBash s cmd outcome after) := by
  unfold doBash
  simp only
  by_cases hunsafe : unsafeText.any (contains cmd) = true
  · rw [if_pos hunsafe]
    exact .inl rfl
  rw [if_neg hunsafe]
  have hfine := hfine.resolve_left hunsafe
  by_cases hcd : startsCd (Text.strip cmd.toList) = true
  · rw [if_pos hcd] at hfine ⊢
    obtain ⟨c, dir, hplain, hdir, hpath, hplainDir⟩ := hfine
    have hsplit : Shell.shlexSplit (Text.strip cmd.toList) = some c.words := by
      rw [hplain.strip_eq, shlexSplit_chars hplain.plain]
    have hdir' : cdWord s.anchor.env c.words = some dir := by rw [anchor_env]; exact hdir
    have hplainDir' : PlainDir s.anchor dir :=
      ⟨hplainDir.normal, by simpa using hplainDir.dots, by simpa using hplainDir.isdir⟩
    have hchange : change s.anchor.fs s.anchor.cwd dir = change s.fs s.cwd dir := by simp
    have hbash : cd s.fs s.env s.cwd dir = change s.fs s.cwd dir := cd_of_no_cdpath hpath s.cwd dir
    rcases doCd_cases h.anchor hdir' hsplit hplainDir' with
      ⟨hnone, hstate, hrc⟩ | hreject | ⟨path, hsome, -, -, -, hdone⟩
    · refine .inr (.inr ⟨rfl, c, hplain.lone, hplain.plain, .inl ⟨dir, hdir, ?_⟩⟩)
      rw [CdKept, hbash, ← hchange, hnone]
      simp only [hstate, hrc]
      exact ⟨by decide, anchor_cwd, anchor_env⟩
    · rw [hreject]
      exact .inl rfl
    · refine .inr (.inr ⟨rfl, c, hplain.lone, hplain.plain, .inl ⟨dir, hdir, ?_⟩⟩)
      rw [CdKept, hbash, ← hchange, hsome, hdone]
      simp [ok]
  rw [if_neg hcd] at hfine ⊢
  by_cases hexport : startsExport (Text.strip cmd.toList) = true
  · rw [if_pos hexport] at hfine ⊢
    obtain ⟨c, args, hplain, hwords, hargs, -⟩ := hfine
    rw [doExport_eq hplain hwords hargs hexport]
    refine .inr (.inr ⟨rfl, c, hplain.lone, hplain.plain, .inr ⟨args, hwords, ?_⟩⟩)
    simp [ExportKept, exports, hargs, ok]
  · rw [if_neg hexport] at hfine ⊢
    have hspawn : s.anchor.spawnable cmd = true := by
      rw [State.spawnable, isdir_eq (by simpa using h.isabs)]
      simp only [anchor_cwd, anchor_fs, anchor_env, h.isdir, hfine.1, Bool.true_and,
        List.all_eq_true]
      intro e he
      obtain ⟨hname, hkey, hvalue⟩ := h.env e.1 e.2 (Dict.find?_eq_some_iff.mpr he)
      simp [hname, hkey, hvalue]
    rw [if_pos hspawn]
    exact .inr (.inl ⟨by simp, by simp, by simp⟩)

theorem Inv.doBash (h : Inv s) {cmd : String} {outcome : Outcome} {after : Fs}
    (hfine : Fine s (.bash cmd outcome after)) : Inv (doBash s cmd outcome after).state := by
  unfold Server.doBash
  simp only
  by_cases hunsafe : unsafeText.any (contains cmd) = true
  · rw [if_pos hunsafe]
    exact h.anchor
  rw [if_neg hunsafe]
  have hfine := hfine.resolve_left hunsafe
  by_cases hcd : startsCd (Text.strip cmd.toList) = true
  · rw [if_pos hcd] at hfine ⊢
    obtain ⟨c, dir, hplain, hdir, -, hplainDir⟩ := hfine
    have hsplit : Shell.shlexSplit (Text.strip cmd.toList) = some c.words := by
      rw [hplain.strip_eq, shlexSplit_chars hplain.plain]
    have hdir' : cdWord s.anchor.env c.words = some dir := by rw [anchor_env]; exact hdir
    have hplainDir' : PlainDir s.anchor dir :=
      ⟨hplainDir.normal, by simpa using hplainDir.dots, by simpa using hplainDir.isdir⟩
    rcases doCd_cases h.anchor hdir' hsplit hplainDir' with
      ⟨-, hstate, -⟩ | hreject | ⟨path, -, hnormal, hisdir, hbelow, hdone⟩
    · simp only [hstate]
      exact h.anchor
    · rw [hreject]
      exact h.anchor
    · rw [hdone]
      exact h.anchor.move hnormal hisdir hbelow
  rw [if_neg hcd] at hfine ⊢
  by_cases hexport : startsExport (Text.strip cmd.toList) = true
  · rw [if_pos hexport] at hfine ⊢
    obtain ⟨c, args, hplain, hwords, hargs, hnul⟩ := hfine
    rw [doExport_eq hplain hwords hargs hexport]
    exact h.anchor.setEnv (h.anchor.env.exports hargs hnul)
  · rw [if_neg hexport] at hfine ⊢
    split_ifs
    · exact h.of_same anchor_cwd anchor_env anchor_repoRoot hfine.2.1 hfine.2.2
    · exact h.anchor

theorem Inv.step (h : Inv s) {a : Request} (hfine : Fine s a) {t : State}
    (hstep : step s a = some t) : Inv t := by
  cases a with
  | bash cmd outcome after =>
    obtain rfl := Option.some.inj hstep
    exact h.doBash hfine
  | python dir after =>
    obtain rfl := Option.some.inj hstep
    refine Inv.anchor (h.of_same anchor_cwd anchor_env anchor_repoRoot hfine.1 hfine.2)
  | files after =>
    obtain rfl := Option.some.inj hstep
    exact h.of_same rfl rfl rfl hfine.1 hfine.2
  | setCwd path =>
    obtain rfl := Option.some.inj hstep
    have hnormal : Normal path := hfine
    unfold doSetCwd
    by_cases hdir : s.isdir path = true
    · by_cases hinside : s.insideRepo path = true
      · rw [if_neg (by simp [hdir]), if_neg (by simp [hinside])]
        exact h.move hnormal (isdir_eq hnormal.1 ▸ hdir) ((insideRepo_iff hnormal.1).mp hinside)
      · rw [if_neg (by simp [hdir]), if_pos (by simp [hinside])]
        exact h
    · rw [if_pos (by simp [hdir])]
      exact h
  | setEnv key value =>
    obtain rfl := Option.some.inj hstep
    exact h.setEnv (h.env.set hfine.1 hfine.2.1 hfine.2.2)

theorem inv_init {made : Fs} {initialCwd : String} {environ : Dict String String}
    (h : Started made initialCwd environ) (dir : String) :
    Inv (init made dir initialCwd environ) := by
  have hroot : made.realpath (Posix.join dir initialCwd) = made.realpath initialCwd := by
    rw [join_of_isabs h.normal.1]
  have hname : ∀ k ∈ ["PYTHONDONTWRITEBYTECODE", "GIT_CONFIG_COUNT", "GIT_CONFIG_KEY_0",
      "GIT_CONFIG_VALUE_0"], '=' ∉ k.toList ∧ noNul k = true := by decide +kernel
  have hset : ∀ {env : Dict String String}, EnvOk env → ∀ k ∈ ["PYTHONDONTWRITEBYTECODE",
      "GIT_CONFIG_COUNT", "GIT_CONFIG_KEY_0", "GIT_CONFIG_VALUE_0"], ∀ v, noNul v = true →
      EnvOk (env.set k v) := fun henv k hk v hv => henv.set (hname k hk).1 (hname k hk).2 hv
  have hbytecode := hset h.environ "PYTHONDONTWRITEBYTECODE" (by simp) "1" (by decide)
  have hpwd := hbytecode.setPwd (made.noNul_of_isdir _ h.isdir)
  have hcount := hset hpwd "GIT_CONFIG_COUNT" (by simp) "1" (by decide)
  have hkey := hset hcount "GIT_CONFIG_KEY_0" (by simp) "safe.directory" (by decide)
  have hvalue := hset hkey "GIT_CONFIG_VALUE_0" (by simp) _ (hroot.symm ▸ h.root)
  unfold init
  refine Inv.anchor ?_
  exact {
    isabs := h.normal.1
    isdir := h.isdir
    below := .inl hroot.symm
    norm := h.normal.2
    env := hvalue }

/-- What becomes of a request where it stands. -/
def Handled (s : State) : Request → Prop
  | .bash cmd outcome after => Whole s cmd (doBash s cmd outcome after)
  | _ => True

/-- **In a run of requests that meet the condition every command is whole, and in every state the
kept directory is an absolute path of a directory in the repository.** -/
theorem runs_whole {made : Fs} {dir initialCwd : String} {environ : Dict String String}
    (hstart : Started made initialCwd environ) {as : List Request}
    (hfine : Machine.Along step Fine (init made dir initialCwd environ) as) {t : State}
    (hrun : Machine.exec step (init made dir initialCwd environ) as = some t) :
    Anchored t ∧ ∀ a, Fine t a → Handled t a := by
  have hinv : Inv t :=
    Machine.invariant_along (fun hi hc hs => Inv.step hi hc hs) (inv_init hstart dir) hfine hrun
  refine ⟨hinv.toAnchored, fun a ha => ?_⟩
  cases a with
  | bash cmd outcome after => exact doBash_whole hinv ha
  | python dir after => trivial
  | files after => trivial
  | setCwd path => trivial
  | setEnv key value => trivial

/-! ### One command, and a compound one -/

/-- A repository with one directory in it. -/
def smallRepo : Fs where
  isdir path := path ∈ ["/repo", "/repo/src"]
  realpath path := path
  noNul_of_isdir path h := by
    have hmem : path = "/repo" ∨ path = "/repo/src" := by simpa using h
    rcases hmem with rfl | rfl <;> decide

/-- The server in it. -/
def small : State := init smallRepo "/" "/repo" Dict.empty

theorem started_small : Started smallRepo "/repo" Dict.empty where
  normal := by decide +kernel
  isdir := by decide +kernel
  root := by decide +kernel
  environ := fun k v hfind => by simp at hfind

theorem chars_cd : "cd".toList.map Shell.Part.bare ≠ [] := by decide

theorem chars_src : "src".toList.map Shell.Part.bare ≠ [] := by decide

theorem space_ok : [' '].all (fun c => c = ' ' || c = '\t') = true := rfl

/-- `cd src`. -/
def cdSrc : Shell.Simple where
  first := .word (Shell.Word.bare "cd" chars_cd rfl)
  rest := [(⟨[' '], space_ok⟩, .word (Shell.Word.bare "src" chars_src rfl))]
  ok := rfl

theorem fine_cdSrc (outcome : Outcome) (after : Fs) : Fine small (.bash "cd src" outcome after) := by
  refine .inr ?_
  rw [if_pos (by decide +kernel)]
  refine ⟨cdSrc, "src", ⟨⟨[], [], rfl, rfl, by decide +kernel⟩, by decide +kernel, by decide +kernel⟩,
    by decide +kernel, by decide +kernel, ?_⟩
  exact ⟨by decide +kernel, fun _ => by decide +kernel, fun _ => by decide +kernel⟩

/-- The server goes to the directory, and stays in the repository. -/
theorem runs_whole_cd :
    ∃ t, Machine.exec step small [.bash "cd src" (.completed "" "" 0) smallRepo] = some t ∧
      t.cwd = "/repo/src" ∧ Anchored t ∧ ∀ a, Fine t a → Handled t a := by
  have hfine : Machine.Along step Fine small
      [.bash "cd src" (.completed "" "" 0) smallRepo] := ⟨fine_cdSrc _ _, fun _ _ => trivial⟩
  refine ⟨_, rfl, by decide +kernel, ?_⟩
  exact runs_whole started_small hfine rfl

/-- A command string without blanks at its ends consists of the command alone. -/
theorem Lone.chars_eq {cmd : String} {c : Shell.Simple} (h : Lone cmd c)
    (hfirst : ∀ x ∈ cmd.toList.head?, x ∉ [' ', '\t', '\n'])
    (hlast : ∀ x ∈ cmd.toList.getLast?, x ∉ [' ', '\t', '\n']) : c.chars = cmd.toList := by
  obtain ⟨lead, trail, hlead, htrail, hcmd⟩ := h
  have hmem : ∀ {cs : List Char}, blank cs = true → ∀ x ∈ cs, x ∈ [' ', '\t', '\n'] :=
    fun hcs x hx => by simpa using List.all_eq_true.mp hcs x hx
  have hlead' : lead = [] := by
    rcases lead with _ | ⟨x, lead⟩
    · rfl
    · exact absurd (hmem hlead x List.mem_cons_self) (hfirst x (by simp [hcmd]))
  have htrail' : trail = [] := by
    rcases List.eq_nil_or_concat trail with h | ⟨init, x, h⟩
    · exact h
    · exact absurd (hmem htrail x (by simp [h])) (hlast x (by simp [hcmd, h]))
  rw [hcmd, hlead', htrail', List.nil_append, List.append_nil]

/-- **The second half of a compound command is dropped, and success is reported.** A relative
directory given to `set_cwd` is kept as it is. -/
theorem compound_dropped :
    Started smallRepo "/repo" Dict.empty ∧
    (¬ Handled small (.bash "cd src && pytest" (.completed "" "" 0) smallRepo) ∧
      (doBash small "cd src && pytest" (.completed "" "" 0) smallRepo).ran.isNone = true ∧
      (doBash small "cd src && pytest" (.completed "" "" 0) smallRepo).reply = ok) ∧
    ∃ t, Machine.exec step small [.setCwd "src"] = some t ∧ ¬ Anchored t := by
  have hran : (doBash small "cd src && pytest" (.completed "" "" 0) smallRepo).ran.isNone = true := by
    decide +kernel
  refine ⟨started_small, ⟨?_, hran, by decide +kernel⟩, _, rfl, ?_⟩
  · rintro (hreject | ⟨hran', -⟩ | ⟨-, c, hlone, hplain, hbash⟩)
    · revert hreject
      decide +kernel
    · rw [hran'] at hran
      cases hran
    · -- the command would have all four words
      have hends : "cd src && pytest".toList.head? = some 'c' ∧
          "cd src && pytest".toList.getLast? = some 't' := ⟨rfl, rfl⟩
      have hchars : c.chars = "cd src && pytest".toList := by
        refine hlone.chars_eq ?_ ?_
        · rw [hends.1]
          rintro x ⟨⟩
          decide
        · rw [hends.2]
          rintro x ⟨⟩
          decide
      have hsplit : some c.words = some ["cd", "src", "&&", "pytest"] := by
        rw [← shlexSplit_chars hplain, hchars]
        decide +kernel
      have hwords := Option.some.inj hsplit
      rcases hbash with ⟨dir, hdir, -⟩ | ⟨args, hargs, -⟩
      · rw [hwords] at hdir
        cases hdir
      · rw [hwords] at hargs
        exact absurd (List.cons.inj hargs).1 (by decide)
  · intro h
    have habs := h.isabs
    revert habs
    decide +kernel

end Server

end DeltaBox
