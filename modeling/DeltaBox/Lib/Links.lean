import DeltaBox.Lib.Below
import DeltaBox.Lib.Dict
import Mathlib.Data.List.Nodup
import Mathlib.Data.List.Perm.Subperm

/-!
# Symbolic links

Where a path leads when the system opens it, and `os.path.realpath`. The system goes from component to
component and puts the target of a link in front of what is left; a path that takes too many links
is refused. `realpath` resolves one link after the other, takes what is missing for a plain name, and
when a link leads back to itself it gives up and leaves the rest of the path as it stands.

An operation may make the missing directories of its path before it opens it. What the path itself names
may then be missing, what a link names may not.

## Main definitions

* `Fs` — a tree of files, directories and links
* `Walks` — where the system goes, and how many links it takes
* `real`, `realpath` — `os.path.realpath`

## Main results

* `Walks.append_iff` — a walk along a path is a walk along its parts
* `Walks.unique` — a path leads to one place
* `real_of_walks` — `realpath` finds the place the system goes to
* `noLinks_of_real` — what `realpath` has resolved has no links in it
* `exists_leak` — a walk below a root that leaves it takes a link that leaves it
-/

namespace DeltaBox

namespace Links

open Posix

inductive Node where
  | dir
  | file
  | link (target : String)
  deriving DecidableEq, Repr

/-- A tree. Its files are given by their names from the top. -/
structure Fs where
  nodes : Dict (List String) Node
  top : nodes.find? [] = some .dir
  parent : ∀ p c, nodes.find? (p ++ [c]) ≠ none → nodes.find? p = some .dir
  names : ∀ p, nodes.find? p ≠ none → Names p

def Fs.node (fs : Fs) (p : List String) : Option Node := fs.nodes.find? p

/-- A tree from a table of its files: the top is a directory, and above every other file is one. -/
def Fs.ofNodes (d : Dict (List String) Node) (htop : d.find? [] = some .dir)
    (hparent : ∀ e ∈ d.entries, e.1 = [] ∨ d.find? e.1.dropLast = some .dir)
    (hnames : ∀ e ∈ d.entries, Names e.1) : Fs where
  nodes := d
  top := htop
  parent p c h := by
    obtain ⟨node, hnode⟩ := Option.ne_none_iff_exists'.mp h
    have habove := hparent _ (Dict.find?_eq_some_iff.mp hnode)
    rw [List.dropLast_concat] at habove
    exact habove.resolve_left (by simp)
  names p h := by
    obtain ⟨node, hnode⟩ := Option.ne_none_iff_exists'.mp h
    exact hnames _ (Dict.find?_eq_some_iff.mp hnode)

/-- Where a walk has come to, and whether this has been made on the way. -/
structure At where
  loc : List String
  made : Bool

/-- A component that is left, and whether the path itself has it. -/
abbrev Comp := Bool × String

/-- The components of a path, and those of a link. -/
def ownComps (p : String) : List Comp := (split p).map (true, ·)

def linkComps (target : String) : List Comp := (split target).map (false, ·)

/-- Where a link begins. -/
def start (dir : List String) (p : String) : List String := if isabs p then [] else dir

/-- A component that is no name. -/
abbrev IsDot (c : String) : Prop := c = "" ∨ c = "."

def IsPlain (c : String) : Prop := c ≠ "" ∧ c ≠ "." ∧ c ≠ ".."

variable (fs : Fs) (making : Bool)

/-- A component can be looked for there. -/
def Fs.Enters (a : At) : Prop := fs.node a.loc = some .dir ∨ a.made = true

/-- The system goes from one place to another along some components, and takes so many links. With
`making` the missing directories of the path are made. -/
inductive Walks : At → List Comp → At → ℕ → Prop
  | done (a : At) : Walks a [] a 0
  | dot {a b : At} {own : Bool} {c : String} {rest : List Comp} {n : ℕ} :
    fs.Enters a → IsDot c → Walks a rest b n → Walks a ((own, c) :: rest) b n
  | up {a b : At} {own : Bool} {rest : List Comp} {n : ℕ} :
    fs.Enters a → Walks ⟨a.loc.dropLast, a.made && fs.node a.loc.dropLast = none⟩ rest b n →
      Walks a ((own, "..") :: rest) b n
  | name {a b : At} {own : Bool} {c : String} {rest : List Comp} {n : ℕ} :
    fs.Enters a → IsPlain c → (∀ target, fs.node (a.loc ++ [c]) ≠ some (.link target)) →
      Walks ⟨a.loc ++ [c], making && own && fs.node (a.loc ++ [c]) = none⟩ rest b n →
      Walks a ((own, c) :: rest) b n
  | link {a b : At} {own : Bool} {c target : String} {rest : List Comp} {n : ℕ} :
    fs.Enters a → IsPlain c → fs.node (a.loc ++ [c]) = some (.link target) →
      Walks ⟨start a.loc target, false⟩ (linkComps target ++ rest) b n →
      Walks a ((own, c) :: rest) b (n + 1)

/-! ### `realpath` -/

/-- The path of a place. -/
def render (loc : List String) : String := "/" ++ "/".intercalate loc

/-- The loop of `realpath`. The links of `stack` are being resolved; a path that is left as it stands
is an error. The fuel is the number of links that are not being resolved. -/
def real (fuel : ℕ) (stack : List (List String)) (loc : List String) :
    List String → Except String (List String)
  | [] => .ok loc
  | c :: rest =>
    if c = "" ∨ c = "." then real fuel stack loc rest
    else if c = ".." then real fuel stack loc.dropLast rest
    else
      match fs.node (loc ++ [c]) with
      | some (.link target) =>
        if loc ++ [c] ∈ stack then .error (join (render (loc ++ [c])) ("/".intercalate rest))
        else
          match fuel with
          | 0 => .error (join (render (loc ++ [c])) ("/".intercalate rest))
          | fuel + 1 =>
            match real fuel ((loc ++ [c]) :: stack) (start loc target) (split target) with
            | .error p => .error (join p ("/".intercalate rest))
            | .ok loc => real (fuel + 1) stack loc rest
      | _ => real fuel stack (loc ++ [c]) rest
termination_by comps => (fuel, comps.length)

/-- `os.path.realpath`, for a path that begins at a directory. -/
def realpath (dir : List String) (p : String) : String :=
  match real fs fs.nodes.entries.length [] (start dir p) (split p) with
  | .ok loc => render loc
  | .error q => abspath (render dir) q

/-! ### Walks -/

variable {fs making} {a b b' : At} {xs ys comps : List Comp} {n n' : ℕ} {R : List String}

/-- **A walk along a path is a walk along its parts.** -/
theorem Walks.append_iff : Walks fs making a (xs ++ ys) b n ↔
    ∃ mid k m, Walks fs making a xs mid k ∧ Walks fs making mid ys b m ∧ n = k + m := by
  constructor
  · intro h
    generalize hzs : xs ++ ys = zs at h
    induction h generalizing xs with
    | done a =>
      obtain ⟨rfl, rfl⟩ := List.append_eq_nil_iff.mp hzs
      exact ⟨a, 0, 0, .done a, .done a, rfl⟩
    | @dot a b own c rest n henters hdot hrest ih =>
      cases xs with
      | nil =>
        obtain rfl : ys = (own, c) :: rest := hzs
        exact ⟨a, 0, n, .done a, .dot henters hdot hrest, (Nat.zero_add n).symm⟩
      | cons x xs =>
        obtain ⟨rfl, rfl⟩ := List.cons.inj hzs
        obtain ⟨mid, k, m, hk, hm, rfl⟩ := ih rfl
        exact ⟨mid, k, m, .dot henters hdot hk, hm, rfl⟩
    | @up a b own rest n henters hrest ih =>
      cases xs with
      | nil =>
        obtain rfl : ys = (own, "..") :: rest := hzs
        exact ⟨a, 0, n, .done a, .up henters hrest, (Nat.zero_add n).symm⟩
      | cons x xs =>
        obtain ⟨rfl, rfl⟩ := List.cons.inj hzs
        obtain ⟨mid, k, m, hk, hm, rfl⟩ := ih rfl
        exact ⟨mid, k, m, .up henters hk, hm, rfl⟩
    | @name a b own c rest n henters hplain hlink hrest ih =>
      cases xs with
      | nil =>
        obtain rfl : ys = (own, c) :: rest := hzs
        exact ⟨a, 0, n, .done a, .name henters hplain hlink hrest, (Nat.zero_add n).symm⟩
      | cons x xs =>
        obtain ⟨rfl, rfl⟩ := List.cons.inj hzs
        obtain ⟨mid, k, m, hk, hm, rfl⟩ := ih rfl
        exact ⟨mid, k, m, .name henters hplain hlink hk, hm, rfl⟩
    | @link a b own c target rest n henters hplain hlink hrest ih =>
      cases xs with
      | nil =>
        obtain rfl : ys = (own, c) :: rest := hzs
        exact ⟨a, 0, n + 1, .done a, .link henters hplain hlink hrest, (Nat.zero_add _).symm⟩
      | cons x xs =>
        obtain ⟨rfl, rfl⟩ := List.cons.inj hzs
        obtain ⟨mid, k, m, hk, hm, rfl⟩ := @ih (linkComps target ++ xs) (List.append_assoc _ _ _)
        exact ⟨mid, k + 1, m, .link henters hplain hlink hk, hm, Nat.add_right_comm k m 1⟩
  · rintro ⟨mid, k, m, hk, hm, rfl⟩
    induction hk with
    | done a => rwa [Nat.zero_add]
    | dot henters hdot _ ih => exact .dot henters hdot (ih hm)
    | up henters _ ih => exact .up henters (ih hm)
    | name henters hplain hlink _ ih => exact .name henters hplain hlink (ih hm)
    | link henters hplain hlink _ ih =>
      rw [Nat.add_right_comm]
      refine .link henters hplain hlink ?_
      have hwalk := ih hm
      rwa [List.append_assoc] at hwalk

theorem IsPlain.not_isDot {c : String} (h : IsPlain c) : ¬ IsDot c := fun hdot =>
  hdot.elim h.1 h.2.1

theorem Walks.of_dot {own : Bool} {c : String} (h : Walks fs making a ((own, c) :: comps) b n)
    (hdot : IsDot c) : Walks fs making a comps b n := by
  cases h with
  | dot _ _ hrest => exact hrest
  | up => simp [IsDot] at hdot
  | name _ hplain => exact absurd hdot hplain.not_isDot
  | link _ hplain => exact absurd hdot hplain.not_isDot

theorem Walks.enters {comp : Comp} (h : Walks fs making a (comp :: comps) b n) : fs.Enters a := by
  cases h <;> assumption

/-- **A path leads to one place.** -/
theorem Walks.unique (h : Walks fs making a comps b n) (h' : Walks fs making a comps b' n') :
    b = b' ∧ n = n' := by
  have hdots : ¬ IsDot ".." := by simp [IsDot]
  induction h generalizing b' n' with
  | done a =>
    cases h'
    exact ⟨rfl, rfl⟩
  | dot henters hdot _ ih =>
    cases h' with
    | dot _ _ h' => exact ih h'
    | up _ h' => exact absurd hdot hdots
    | name _ hplain => exact absurd hdot hplain.not_isDot
    | link _ hplain => exact absurd hdot hplain.not_isDot
  | up henters _ ih =>
    cases h' with
    | dot _ hdot => exact absurd hdot hdots
    | up _ h' => exact ih h'
    | name _ hplain => exact absurd rfl hplain.2.2
    | link _ hplain => exact absurd rfl hplain.2.2
  | name henters hplain hlink _ ih =>
    cases h' with
    | dot _ hdot => exact absurd hdot hplain.not_isDot
    | up => exact absurd rfl hplain.2.2
    | name _ _ _ h' => exact ih h'
    | link _ _ hlink' => exact absurd hlink' (hlink _)
  | link henters hplain hlink _ ih =>
    cases h' with
    | dot _ hdot => exact absurd hdot hplain.not_isDot
    | up => exact absurd rfl hplain.2.2
    | name _ _ hlink' => exact absurd hlink (hlink' _)
    | link _ _ hlink' h' =>
      obtain rfl := Node.link.inj (Option.some.inj (hlink.symm.trans hlink'))
      obtain ⟨hb, hn⟩ := ih h'
      exact ⟨hb, congrArg (· + 1) hn⟩

/-! ### `realpath` and the system -/

section

variable {fuel : ℕ} {stack : List (List String)} {loc rest : List String} {c target : String}

theorem real_dot (h : IsDot c) :
    real fs fuel stack loc (c :: rest) = real fs fuel stack loc rest := by
  rw [real, if_pos h]

theorem real_up : real fs fuel stack loc (".." :: rest) = real fs fuel stack loc.dropLast rest := by
  rw [real, if_neg (by simp), if_pos rfl]

theorem real_name (h : IsPlain c) (hlink : ∀ target, fs.node (loc ++ [c]) ≠ some (.link target)) :
    real fs fuel stack loc (c :: rest) = real fs fuel stack (loc ++ [c]) rest := by
  rw [real, if_neg h.not_isDot, if_neg h.2.2]
  split
  · rename_i target heq
    exact absurd heq (hlink target)
  · rfl

theorem real_link (h : IsPlain c) (hlink : fs.node (loc ++ [c]) = some (.link target)) :
    real fs fuel stack loc (c :: rest) =
      if loc ++ [c] ∈ stack ∨ fuel = 0 then
        .error (join (render (loc ++ [c])) ("/".intercalate rest))
      else
        match real fs (fuel - 1) ((loc ++ [c]) :: stack) (start loc target) (split target) with
        | .error p => .error (join p ("/".intercalate rest))
        | .ok loc => real fs fuel stack loc rest := by
  rw [real, if_neg h.not_isDot, if_neg h.2.2, hlink]
  by_cases hmem : loc ++ [c] ∈ stack
  · simp only [hmem, if_true, true_or]
  · cases fuel with
    | zero => simp only [hmem, if_false, or_true, if_true]
    | succ fuel => simp only [hmem, if_false, false_or, Nat.succ_ne_zero, Nat.succ_sub_one]

end

/-- Resolving a link takes so many links. -/
def Costs (fs : Fs) (making : Bool) (p : List String) (k : ℕ) : Prop :=
  ∃ target b, fs.node p = some (.link target) ∧
    Walks fs making ⟨start p.dropLast target, false⟩ (linkComps target) b k

theorem Costs.unique {p : List String} {k k' : ℕ} (h : Costs fs making p k)
    (h' : Costs fs making p k') : k = k' := by
  obtain ⟨target, b, hlink, hwalk⟩ := h
  obtain ⟨target', b', hlink', hwalk'⟩ := h'
  obtain rfl := Node.link.inj (Option.some.inj (hlink.symm.trans hlink'))
  exact (hwalk.unique hwalk').2

/-- The links of the stack take at least so many links, are all different, and with the fuel as many as
there are. -/
structure Stacked (fs : Fs) (making : Bool) (fuel n : ℕ) (stack : List (List String)) : Prop where
  costs : ∀ p ∈ stack, ∃ k, Costs fs making p k ∧ n ≤ k
  nodup : stack.Nodup
  mem : ∀ p ∈ stack, p ∈ fs.nodes.keys
  fuel : fs.nodes.entries.length ≤ stack.length + fuel

theorem Stacked.mono {fuel : ℕ} {stack : List (List String)} (h : Stacked fs making fuel n stack)
    (hle : n' ≤ n) : Stacked fs making fuel n' stack :=
  ⟨fun p hp => (h.costs p hp).imp fun _ ⟨hk, hn⟩ => ⟨hk, hle.trans hn⟩, h.nodup, h.mem, h.fuel⟩

theorem map_snd_linkComps (target : String) : (linkComps target).map Prod.snd = split target := by
  rw [linkComps, List.map_map]
  exact List.map_id _

theorem map_snd_ownComps (p : String) : (ownComps p).map Prod.snd = split p := by
  rw [ownComps, List.map_map]
  exact List.map_id _

/-- **`realpath` finds the place the system goes to.** No link that is being resolved is met again: it
would take more links than itself. -/
theorem real_of_walks {fuel : ℕ} {stack : List (List String)} (h : Walks fs making a comps b n)
    (hstack : Stacked fs making fuel n stack) :
    real fs fuel stack a.loc (comps.map Prod.snd) = .ok b.loc := by
  induction n using Nat.strong_induction_on generalizing a comps b fuel stack with
  | _ n ihn =>
    induction comps generalizing a with
    | nil =>
      cases h
      rw [List.map_nil, real]
    | cons comp comps ih =>
      cases h with
      | dot _ hdot hrest =>
        rw [List.map_cons, real_dot hdot]
        exact ih hrest
      | up _ hrest =>
        rw [List.map_cons, real_up]
        exact ih hrest
      | name _ hplain hlink hrest =>
        rw [List.map_cons, real_name hplain hlink]
        exact ih hrest
      | @link _ _ own c target _ m _ hplain hlink hrest =>
        obtain ⟨mid, k, l, hk, hl, rfl⟩ := Walks.append_iff.mp hrest
        have hcost : Costs fs making (a.loc ++ [c]) k := by
          refine ⟨target, mid, hlink, ?_⟩
          rwa [List.dropLast_concat]
        have hkey : a.loc ++ [c] ∈ fs.nodes.keys := Dict.mem_keys_iff.mpr ⟨_, hlink⟩
        have hnew : a.loc ++ [c] ∉ stack := by
          intro hmem
          obtain ⟨k', hk', hle⟩ := hstack.costs _ hmem
          have := hcost.unique hk'
          omega
        have hnodup : ((a.loc ++ [c]) :: stack).Nodup := List.nodup_cons.mpr ⟨hnew, hstack.nodup⟩
        have hmem : ∀ p ∈ (a.loc ++ [c]) :: stack, p ∈ fs.nodes.keys :=
          fun p hp => (List.mem_cons.mp hp).elim (fun heq => heq ▸ hkey) (hstack.mem p)
        have hlen : ((a.loc ++ [c]) :: stack).length ≤ fs.nodes.entries.length := by
          have hle := (List.subperm_of_subset hnodup hmem).length_le
          rwa [Dict.keys, List.length_map] at hle
        have hfuel := hstack.fuel
        rw [List.length_cons] at hlen
        have hinner : Stacked fs making (fuel - 1) k ((a.loc ++ [c]) :: stack) := by
          refine ⟨fun p hp => ?_, hnodup, hmem, ?_⟩
          · rcases List.mem_cons.mp hp with rfl | hp
            · exact ⟨k, hcost, le_rfl⟩
            · obtain ⟨k', hk', hle⟩ := hstack.costs p hp
              exact ⟨k', hk', by omega⟩
          · rw [List.length_cons]
            omega
        have hreal := ihn k (by omega) hk hinner
        rw [map_snd_linkComps] at hreal
        have hgo : ¬ (a.loc ++ [c] ∈ stack ∨ fuel = 0) := by
          rintro (hmem' | rfl)
          · exact hnew hmem'
          · omega
        rw [List.map_cons, real_link hplain hlink, if_neg hgo, hreal]
        exact ihn l (by omega) hl (hstack.mono (by omega))

/-! ### Places without links -/

/-- No part of the way to a place is a link. -/
def NoLinks (fs : Fs) (p : List String) : Prop :=
  ∀ q, q <+: p → ∀ target, fs.node q ≠ some (.link target)

theorem noLinks_nil : NoLinks fs [] := by
  intro q hq target hlink
  obtain rfl := List.prefix_nil.mp hq
  rw [Fs.node, fs.top] at hlink
  cases hlink

theorem NoLinks.mono {p q : List String} (h : NoLinks fs p) (hq : q <+: p) : NoLinks fs q :=
  fun r hr => h r (hr.trans hq)

theorem NoLinks.concat {p : List String} {c : String} (h : NoLinks fs p)
    (hlink : ∀ target, fs.node (p ++ [c]) ≠ some (.link target)) : NoLinks fs (p ++ [c]) := by
  intro q hq
  rcases List.prefix_concat_iff.mp hq with rfl | hq
  · exact hlink
  · exact h q hq

theorem NoLinks.start {p : List String} (h : NoLinks fs p) (target : String) :
    NoLinks fs (start p target) := by
  unfold Links.start
  split_ifs
  · exact noLinks_nil
  · exact h

/-- **What `realpath` has resolved has no links in it.** -/
theorem noLinks_of_real {fuel : ℕ} {stack : List (List String)} {loc loc' rest : List String}
    (hloc : NoLinks fs loc) (h : real fs fuel stack loc rest = .ok loc') : NoLinks fs loc' := by
  fun_induction real fs fuel stack loc rest generalizing loc' with
  | case1 fuel stack loc => exact Except.ok.inj h ▸ hloc
  | case2 fuel stack loc c rest hdot ih => exact ih hloc h
  | case3 fuel stack loc rest hdot ih => exact ih (hloc.mono (List.dropLast_prefix _)) h
  | case4 => cases h
  | case5 => cases h
  | case6 => cases h
  | case7 stack loc c rest hdot hup target hlink hmem fuel loc₁ hreal ih₁ ih₂ =>
    exact ih₂ (ih₁ (hloc.start target) hreal) h
  | case8 fuel stack loc c rest hdot hup hlink ih =>
    exact ih (hloc.concat fun target heq => hlink target heq) h

/-- What `realpath` has resolved consists of names. -/
theorem names_of_real {fuel : ℕ} {stack : List (List String)} {loc loc' rest : List String}
    (hloc : Names loc) (hrest : ∀ c ∈ rest, '/' ∉ c.toList)
    (h : real fs fuel stack loc rest = .ok loc') : Names loc' := by
  fun_induction real fs fuel stack loc rest generalizing loc' with
  | case1 fuel stack loc => exact Except.ok.inj h ▸ hloc
  | case2 fuel stack loc c rest hdot ih =>
    exact ih hloc (fun x hx => hrest x (List.mem_cons_of_mem _ hx)) h
  | case3 fuel stack loc rest hdot ih =>
    exact ih (fun x hx => hloc x (List.dropLast_subset _ hx))
      (fun x hx => hrest x (List.mem_cons_of_mem _ hx)) h
  | case4 => cases h
  | case5 => cases h
  | case6 => cases h
  | case7 stack loc c rest hdot hup target hlink hmem fuel loc₁ hreal ih₁ ih₂ =>
    have hstart : Names (start loc target) := by
      unfold start
      split_ifs
      · exact fun x hx => (List.not_mem_nil hx).elim
      · exact hloc
    exact ih₂ (ih₁ hstart (fun x hx => not_mem_split hx) hreal)
      (fun x hx => hrest x (List.mem_cons_of_mem _ hx)) h
  | case8 fuel stack loc c rest hdot hup hlink ih =>
    refine ih (hloc.append fun x hx => ?_) (fun x hx => hrest x (List.mem_cons_of_mem _ hx)) h
    obtain rfl := List.mem_singleton.mp hx
    exact ⟨fun he => hdot (.inl he), fun he => hdot (.inr he), hup, hrest _ List.mem_cons_self⟩

theorem names_of_isPlain {c : String} (h : IsName c) : IsPlain c := ⟨h.1, h.2.1, h.2.2.1⟩

/-- Along names without links the system comes to the place that they name. -/
theorem Walks.of_noLinks {own : Bool} {names : List String} (hnames : Names names)
    (hlinks : NoLinks fs (a.loc ++ names)) (h : Walks fs making a (names.map (own, ·)) b n) :
    b.loc = a.loc ++ names := by
  induction names generalizing a with
  | nil =>
    cases h
    rw [List.append_nil]
  | cons c names ih =>
    have hplain := names_of_isPlain (hnames c List.mem_cons_self)
    have hrest : Names names := fun x hx => hnames x (List.mem_cons_of_mem _ hx)
    have hassoc : a.loc ++ c :: names = a.loc ++ [c] ++ names := by simp
    rw [hassoc] at hlinks ⊢
    cases h with
    | dot _ hdot => exact absurd hdot hplain.not_isDot
    | up => exact absurd rfl hplain.2.2
    | name _ _ _ hwalk => exact ih hrest hlinks hwalk
    | link _ _ hlink => exact absurd hlink (hlinks _ ⟨names, rfl⟩ _)

/-! ### Leaving a root -/

/-- A link below a root that leads outside of it. Of a walk that may take a link so often, it takes no
more than are left. -/
def Leak (fs : Fs) (R : List String) (budget : ℕ) : Prop :=
  ∃ p target b k, R <+: p ∧ p ≠ R ∧ fs.node p = some (.link target) ∧
    Walks fs false ⟨start p.dropLast target, false⟩ (linkComps target) b k ∧ k + 1 ≤ budget ∧
    ¬ R <+: b.loc

/-- What a link names is never made. -/
theorem Walks.of_link {making' : Bool} (h : Walks fs making a comps b n)
    (hown : ∀ comp ∈ comps, comp.1 = false) : Walks fs making' a comps b n := by
  induction h with
  | done a => exact .done a
  | dot henters hdot _ ih =>
    exact .dot henters hdot (ih fun comp hcomp => hown comp (List.mem_cons_of_mem _ hcomp))
  | up henters _ ih =>
    exact .up henters (ih fun comp hcomp => hown comp (List.mem_cons_of_mem _ hcomp))
  | @name a b own c rest n henters hplain hlink hrest ih =>
    obtain rfl : own = false := hown _ List.mem_cons_self
    refine .name henters hplain hlink ?_
    have hwalk := ih fun comp hcomp => hown comp (List.mem_cons_of_mem _ hcomp)
    rw [Bool.and_false, Bool.false_and] at hwalk ⊢
    exact hwalk
  | link henters hplain hlink _ ih =>
    refine .link henters hplain hlink (ih fun comp hcomp => ?_)
    rcases List.mem_append.mp hcomp with hcomp | hcomp
    · obtain ⟨c, -, rfl⟩ := List.mem_map.mp hcomp
      rfl
    · exact hown comp (List.mem_cons_of_mem _ hcomp)

theorem Walks.of_linkComps {making' : Bool} {target : String}
    (h : Walks fs making a (linkComps target) b n) : Walks fs making' a (linkComps target) b n := by
  refine h.of_link fun comp hcomp => ?_
  obtain ⟨c, -, rfl⟩ := List.mem_map.mp hcomp
  rfl

/-- **A walk below a root that leaves it takes a link that leaves it.** -/
theorem exists_leak {own : Bool} {names : List String} (hnames : Names names) (hin : R <+: a.loc)
    (h : Walks fs making a (names.map (own, ·)) b n) (hout : ¬ R <+: b.loc) :
    Leak fs R n := by
  induction names generalizing a n with
  | nil =>
    cases h
    exact absurd hin hout
  | cons c names ih =>
    have hplain := names_of_isPlain (hnames c List.mem_cons_self)
    have hrest : Names names := fun x hx => hnames x (List.mem_cons_of_mem _ hx)
    have hbelow : R <+: a.loc ++ [c] := hin.trans (List.prefix_append _ _)
    cases h with
    | dot _ hdot => exact absurd hdot hplain.not_isDot
    | up => exact absurd rfl hplain.2.2
    | name _ _ _ hwalk => exact ih hrest hbelow hwalk
    | @link _ _ _ _ target _ m _ _ hlink hwalk =>
      obtain ⟨mid, k, l, hk, hl, rfl⟩ := Walks.append_iff.mp hwalk
      by_cases hmid : R <+: mid.loc
      · obtain ⟨p, target', b', k', hp, hne, hlink', hwalk', hle, hout'⟩ := ih hrest hmid hl
        exact ⟨p, target', b', k', hp, hne, hlink', hwalk', by omega, hout'⟩
      · refine ⟨a.loc ++ [c], target, mid, k, hbelow, ?_, hlink, ?_, by omega, hmid⟩
        · intro heq
          have hlen := hin.length_le
          rw [← heq, List.length_append, List.length_singleton] at hlen
          omega
        · rw [List.dropLast_concat]
          exact hk.of_linkComps

/-- Down to a directory. -/
theorem walks_dir {own : Bool} {names : List String} (hnames : Names names)
    (hdir : fs.node (R ++ names) = some .dir) :
    Walks fs making ⟨R, false⟩ (names.map (own, ·)) ⟨R ++ names, false⟩ 0 := by
  induction names using List.reverseRecOn with
  | nil =>
    rw [List.append_nil]
    exact .done _
  | append_singleton names c ih =>
    rw [← List.append_assoc] at hdir ⊢
    have hparent : fs.node (R ++ names) = some .dir := fs.parent _ c fun hnone => by
      rw [Fs.node, hnone] at hdir
      cases hdir
    have hwalk := ih (fun x hx => hnames x (List.mem_append_left _ hx)) hparent
    rw [List.map_append]
    refine Walks.append_iff.mpr ⟨_, 0, 0, hwalk, ?_, rfl⟩
    have hplain := names_of_isPlain (hnames c (by simp))
    refine .name (.inl hparent) hplain (fun target hlink => ?_) ?_
    · rw [hdir] at hlink
      cases hlink
    · simp only [hdir, reduceCtorEq, decide_false, Bool.and_false]
      exact .done _

/-- Down to a link, and where it leads. -/
theorem walks_link {own : Bool} {names : List String} {target : String} (hnames : Names names)
    (hne : names ≠ []) (hlink : fs.node (R ++ names) = some (.link target))
    (h : Walks fs making ⟨start (R ++ names).dropLast target, false⟩ (linkComps target) b n) :
    Walks fs making ⟨R, false⟩ (names.map (own, ·)) b (n + 1) := by
  obtain ⟨front, c, rfl⟩ := List.eq_nil_or_concat names |>.resolve_left hne
  rw [List.concat_eq_append] at *
  rw [← List.append_assoc] at hlink h
  rw [List.dropLast_concat] at h
  have hparent : fs.node (R ++ front) = some .dir := fs.parent _ c fun hnone => by
    rw [Fs.node, hnone] at hlink
    cases hlink
  have hdown := @walks_dir fs making R own front
    (fun x hx => hnames x (List.mem_append_left _ hx)) hparent
  rw [List.map_append]
  refine Walks.append_iff.mpr ⟨_, 0, n + 1, hdown, ?_, (Nat.zero_add _).symm⟩
  refine .link (.inl hparent) (names_of_isPlain (hnames c (by simp))) hlink ?_
  rwa [List.map_nil, List.append_nil]

/-! ### Paths of places -/

theorem parts_render {l : List String} (h : Names l) : (split (render l)).filter (· ≠ "") = l :=
  (of_slashes_names h (.inl rfl)).2.2

theorem render_append {l m : List String} (hl : l ≠ []) (hm : m ≠ []) :
    render (l ++ m) = render l ++ "/" ++ "/".intercalate m := by
  rw [render, render, String.intercalate_append_of_ne_nil hl hm, String.append_assoc,
    String.append_assoc, String.append_assoc]

/-- A path that starts like another and a slash is below it. -/
theorem startswith_render_iff {l m : List String} (hl : Names l) (hm : Names m) (hne : l ≠ []) :
    startswith (render m) (render l ++ "/") = true ↔ ∃ rest, rest ≠ [] ∧ m = l ++ rest := by
  rw [startswith, List.isPrefixOf_iff_prefix]
  constructor
  · rintro ⟨rest, hrest⟩
    have happ : render m = render l ++ "/" ++ String.ofList rest := by
      refine String.ext ?_
      rw [← hrest]
      simp
    have hsplit := congrArg (fun s => (split s).filter (· ≠ "")) happ
    simp only [split_append_slash, List.filter_append] at hsplit
    rw [parts_render hm, parts_render hl] at hsplit
    refine ⟨_, fun hnil => ?_, hsplit⟩
    -- the two paths differ in length
    rw [hnil, List.append_nil] at hsplit
    have hlen := congrArg List.length (congrArg String.toList happ)
    rw [hsplit] at hlen
    simp at hlen
  · rintro ⟨rest, hrest, rfl⟩
    refine ⟨("/".intercalate rest).toList, ?_⟩
    rw [render_append hne hrest, ← String.toList_append]

theorem split_render (l : List String) (h : Names l) :
    split (render l) = "" :: if l = [] then [""] else l := by
  rw [render, split_slash, split_intercalate h]

/-- Opening the path of a place. -/
theorem walks_render_iff {l : List String} (h : Names l) :
    Walks fs making ⟨[], false⟩ (ownComps (render l)) b n ↔
      Walks fs making ⟨[], false⟩ (l.map (true, ·)) b n := by
  have henters : fs.Enters ⟨[], false⟩ := .inl fs.top
  have hdot : ∀ rest : List Comp, Walks fs making ⟨[], false⟩ ((true, "") :: rest) b n ↔
      Walks fs making ⟨[], false⟩ rest b n :=
    fun rest => ⟨fun h => h.of_dot (.inl rfl), .dot henters (.inl rfl)⟩
  rw [ownComps, split_render l h, List.map_cons, hdot]
  split_ifs with hnil
  · rw [hnil]
    exact hdot []
  · rfl

/-- The components of a walk are names. -/
theorem Walks.names (h : Walks fs making a comps b n) (ha : Names a.loc)
    (hcomps : ∀ comp ∈ comps, '/' ∉ comp.2.toList) : Names b.loc := by
  induction h with
  | done a => exact ha
  | dot _ _ _ ih => exact ih ha fun comp hcomp => hcomps comp (List.mem_cons_of_mem _ hcomp)
  | up _ _ ih =>
    exact ih (fun x hx => ha x (List.dropLast_subset _ hx))
      fun comp hcomp => hcomps comp (List.mem_cons_of_mem _ hcomp)
  | @name a b own c rest n _ hplain _ _ ih =>
    refine ih (ha.append fun x hx => ?_) fun comp hcomp => hcomps comp (List.mem_cons_of_mem _ hcomp)
    obtain rfl := List.mem_singleton.mp hx
    exact ⟨hplain.1, hplain.2.1, hplain.2.2, hcomps _ List.mem_cons_self⟩
  | @link a b own c target rest n _ _ _ _ ih =>
    refine ih ?_ fun comp hcomp => ?_
    · unfold start
      split_ifs
      · exact fun x hx => (List.not_mem_nil hx).elim
      · exact ha
    · rcases List.mem_append.mp hcomp with hcomp | hcomp
      · obtain ⟨c, hc, rfl⟩ := List.mem_map.mp hcomp
        exact not_mem_split hc
      · exact hcomps comp (List.mem_cons_of_mem _ hcomp)

end Links

end DeltaBox
