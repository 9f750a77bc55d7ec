import DeltaBox.Lib.Intervals
import Mathlib.Algebra.Order.BigOperators.Group.Finset
import Mathlib.Data.Finset.Lattice.Fold
import Mathlib.Order.Interval.Finset.Nat
import Mathlib.Tactic.Ring

/-!
# The RAM budget of a read-only image

A staged image is copied sparsely into memory, so that it takes the pages that have data.
`readonly_image_capacity` (`replay/memory_storage.py`) asks the file system for the extents, one
after the other: `SEEK_DATA` gives the next byte of data, `SEEK_HOLE` the end of its extent. Each
extent is rounded to whole pages, and a page that it shares with the one before is not counted
again.

* The layout is any list of extents that do not meet, inside the file. They may touch, and then the
  two queries see one.
* Each query may fail. Where the file system or the platform does not answer, the size of the file
  has to do.

## Main results

* `capacity_exact` — the result is the pages with data, or the rounded size if a query has failed
-/

namespace DeltaBox

namespace Ram

/-! ### Images -/

/-- The size of a file, and where its data is: from the first byte of each extent up to the second. -/
structure Image where
  size : ℕ
  extents : List (ℕ × ℕ)
  inside : ∀ e ∈ extents, e.2 ≤ size
  apart : extents.Pairwise fun e f => Disjoint (Finset.Ico e.1 e.2) (Finset.Ico f.1 f.2)

variable (img : Image)

/-- The byte belongs to an extent. -/
def Image.data (b : ℕ) : Bool := img.extents.any fun e => e.1 ≤ b ∧ b < e.2

/-- `SEEK_DATA`: the first byte of data from here on. -/
def Image.seekData (cursor : ℕ) : Option ℕ :=
  (List.range' cursor (img.size - cursor)).find? img.data

/-- `SEEK_HOLE`: the first byte from here on that is none. The end of the file is a hole. -/
def Image.seekHole (start : ℕ) : ℕ :=
  ((List.range' start (img.size - start)).find? fun b => !img.data b).getD img.size

/-! ### The queries -/

/-- What `lseek` raises. -/
inductive Errno where
  /-- There is no data behind the offset. -/
  | enxio
  | einval
  | enotsup
  | enosys
  | other (code : ℕ)
  deriving DecidableEq, Repr

/-- The file system does not know about extents. -/
def Errno.unsupported : Errno → Bool
  | .einval | .enotsup | .enosys => true
  | _ => false

/-- Whether a query fails on its own, by its number. -/
abbrev Failures := ℕ → Option Errno

def Image.lseekData (fails : Failures) (asked cursor : ℕ) : Except Errno ℕ :=
  match fails asked, img.seekData cursor with
  | some e, _ => .error e
  | none, some start => .ok start
  | none, none => .error .enxio

def Image.lseekHole (fails : Failures) (asked start : ℕ) : Except Errno ℕ :=
  match fails asked with
  | some e => .error e
  | none => .ok (img.seekHole start)

/-! ### The budget -/

/-- What is returned. -/
structure Capacity where
  bytes : ℕ
  method : String
  deriving DecidableEq, Repr

/-- What is raised. -/
inductive Error where
  | os (e : Errno)
  | runtime (text : String)
  deriving DecidableEq, Repr

/-- The size, rounded up to whole pages. -/
def Image.logical (page : ℕ) : ℕ := (img.size + page - 1) / page * page

def Image.logicalSize (page : ℕ) : Capacity := ⟨img.logical page, "logical-size"⟩

def extentPages (total : ℕ) : Capacity := ⟨total, "page-rounded-seek-data-extents"⟩

/-- The loop of `readonly_image_capacity`, with the number of queries so far. -/
def loop (page : ℕ) (fails : Failures) (total cursor endPage asked : ℕ) :
    Except Error Capacity × ℕ :=
  if cursor < img.size then
    match img.lseekData fails asked cursor with
    | .error e =>
      if e = .enxio then (.ok (extentPages total), asked + 1)
      else if e.unsupported then (.ok (img.logicalSize page), asked + 1)
      else (.error (.os e), asked + 1)
    | .ok start =>
      match img.lseekHole fails (asked + 1) start with
      | .error e =>
        if e.unsupported then (.ok (img.logicalSize page), asked + 2)
        else (.error (.os e), asked + 2)
      | .ok hole =>
        let stop := min img.size hole
        if cursor ≤ start ∧ start < stop ∧ stop ≤ img.size then
          let first := start / page
          let last := (stop + page - 1) / page
          loop page fails (total + (last - max first endPage) * page) stop last (asked + 2)
        else (.error (.runtime "Invalid read-only image extent map"), asked + 2)
  else (.ok (extentPages total), asked)
termination_by img.size - cursor

/-- `seeks`: the platform has `SEEK_DATA` and `SEEK_HOLE`. -/
def readonlyImageCapacity (page : ℕ) (seeks : Bool) (fails : Failures) :
    Except Error Capacity × ℕ :=
  if seeks then loop img page fails 0 0 0 0 else (.ok (img.logicalSize page), 0)

/-! ### What the queries answer -/

variable {img} {page cursor start stop b : ℕ}

theorem data_iff : img.data b = true ↔ ∃ e ∈ img.extents, e.1 ≤ b ∧ b < e.2 := by
  simp [Image.data]

theorem lt_size_of_data (h : img.data b = true) : b < img.size := by
  obtain ⟨e, he, -, hlt⟩ := data_iff.mp h
  exact hlt.trans_le (img.inside e he)

theorem seekData_eq_some (h : img.seekData cursor = some start) :
    cursor ≤ start ∧ img.data start = true ∧ ∀ b, cursor ≤ b → b < start → img.data b = false := by
  obtain ⟨hdata, hmem, hnone⟩ := List.find?_range'_eq_some.mp h
  exact ⟨(List.mem_range'_1.mp hmem).1, hdata, fun b hle hlt => by simpa using hnone b hle hlt⟩

theorem seekData_eq_none (h : img.seekData cursor = none) (hle : cursor ≤ b) :
    img.data b = false := by
  by_contra hdata
  rw [Bool.not_eq_false] at hdata
  have hlt := lt_size_of_data hdata
  have hnone := List.find?_range'_eq_none.mp h b hle (by omega)
  simp [hdata] at hnone

/-- From a byte of data on, the extent goes up to the hole. -/
theorem seekHole_spec (h : img.data start = true) :
    start < img.seekHole start ∧ img.seekHole start ≤ img.size ∧
      ∀ b, start ≤ b → b < img.seekHole start → img.data b = true := by
  have hlt := lt_size_of_data h
  rw [Image.seekHole]
  cases hfind : (List.range' start (img.size - start)).find? fun b => !img.data b with
  | none =>
    refine ⟨hlt, le_rfl, fun b hle hb => ?_⟩
    rw [Option.getD_none] at hb
    have hnone := List.find?_range'_eq_none.mp hfind b hle (by omega)
    simpa using hnone
  | some hole =>
    obtain ⟨hdata, hmem, hall⟩ := List.find?_range'_eq_some.mp hfind
    rw [List.mem_range'_1] at hmem
    rw [Option.getD_some]
    refine ⟨?_, by omega, fun b hle hb => by simpa using hall b hle hb⟩
    have hne : start ≠ hole := by
      rintro rfl
      simp [h] at hdata
    omega

/-! ### Pages -/

/-- The bytes of data in front of the cursor. -/
def Image.bytesBelow (img : Image) (cursor : ℕ) : Finset ℕ :=
  (Finset.range cursor).filter fun b => img.data b = true

/-- All of them. -/
abbrev Image.bytes (img : Image) : Finset ℕ := img.bytesBelow img.size

/-- The pages that have some of these bytes. -/
def pagesOf (page : ℕ) (bs : Finset ℕ) : Finset ℕ := bs.image (· / page)

theorem mem_pagesOf {bs : Finset ℕ} {n : ℕ} : n ∈ pagesOf page bs ↔ ∃ b ∈ bs, b / page = n := by
  simp [pagesOf]

theorem mem_bytesBelow : b ∈ img.bytesBelow cursor ↔ b < cursor ∧ img.data b = true := by
  simp [Image.bytesBelow]

theorem lt_div_iff (hpage : 0 < page) {n m : ℕ} : n < (m + page - 1) / page ↔ n * page < m := by
  rw [Nat.lt_iff_add_one_le, Nat.le_div_iff_mul_le hpage, Nat.add_mul, Nat.one_mul]
  omega

/-- The pages of an unbroken part. -/
theorem pagesOf_Ico (hpage : 0 < page) (h : start < stop) :
    pagesOf page (Finset.Ico start stop) =
      Finset.Ico (start / page) ((stop + page - 1) / page) := by
  ext n
  rw [mem_pagesOf, Finset.mem_Ico, lt_div_iff hpage]
  constructor
  · rintro ⟨b, hb, rfl⟩
    rw [Finset.mem_Ico] at hb
    exact ⟨Nat.div_le_div_right hb.1, (Nat.div_mul_le_self b page).trans_lt hb.2⟩
  · rintro ⟨hlow, hhigh⟩
    refine ⟨max start (n * page), Finset.mem_Ico.mpr ⟨le_max_left .., max_lt h hhigh⟩, ?_⟩
    have hstart : start < (n + 1) * page := (Nat.div_lt_iff_lt_mul hpage).mp (Nat.lt_succ_of_le hlow)
    rw [Nat.add_mul, Nat.one_mul] at hstart
    rw [Nat.div_eq_iff hpage]
    omega

/-- The next extent brings the bytes up to its end. -/
theorem bytesBelow_stop (hle : cursor ≤ start) (hlt : start < stop)
    (hhole : ∀ b, cursor ≤ b → b < start → img.data b = false)
    (hdata : ∀ b, start ≤ b → b < stop → img.data b = true) :
    img.bytesBelow stop = img.bytesBelow cursor ∪ Finset.Ico start stop := by
  ext b
  simp only [Finset.mem_union, mem_bytesBelow, Finset.mem_Ico]
  constructor
  · rintro ⟨hb, hbit⟩
    by_cases hfront : b < cursor
    · exact .inl ⟨hfront, hbit⟩
    · refine .inr ⟨?_, hb⟩
      by_contra hgap
      rw [hhole b (by omega) (by omega)] at hbit
      cases hbit
  · rintro (⟨hb, hbit⟩ | ⟨hb, hb'⟩)
    · exact ⟨by omega, hbit⟩
    · exact ⟨hb', hdata b hb hb'⟩

/-- Where the loop stands: behind a byte of data, with the pages of what is in front counted. -/
structure Counted (img : Image) (page total cursor endPage : ℕ) : Prop where
  total_eq : total = (pagesOf page (img.bytesBelow cursor)).card * page
  endPage_eq : endPage = (cursor + page - 1) / page
  last : cursor = 0 ∨ img.data (cursor - 1) = true

theorem counted_start (hpage : 0 < page) : Counted img page 0 0 0 where
  total_eq := by simp [Image.bytesBelow, pagesOf]
  endPage_eq := by rw [Nat.zero_add, Nat.div_eq_of_lt (by omega)]
  last := .inl rfl

/-- The first page of an extent may be counted already, and no other one. -/
theorem Counted.shared {total endPage : ℕ} (hpage : 0 < page)
    (h : Counted img page total cursor endPage) (hle : cursor ≤ start) {n : ℕ}
    (hlow : start / page ≤ n) (hhigh : n < endPage) : n ∈ pagesOf page (img.bytesBelow cursor) := by
  rw [h.endPage_eq, lt_div_iff hpage] at hhigh
  rcases h.last with hzero | hdata
  · omega
  · refine mem_pagesOf.mpr ⟨cursor - 1, mem_bytesBelow.mpr ⟨by omega, hdata⟩, ?_⟩
    have hup : cursor / page ≤ n := (Nat.div_le_div_right hle).trans hlow
    have hlt : cursor < (n + 1) * page := (Nat.div_lt_iff_lt_mul hpage).mp (Nat.lt_succ_of_le hup)
    rw [Nat.add_mul, Nat.one_mul] at hlt
    rw [Nat.div_eq_iff hpage]
    omega

/-- One turn counts the pages of an extent, but for one that is counted. -/
theorem Counted.next {total endPage : ℕ} (hpage : 0 < page)
    (h : Counted img page total cursor endPage) (hle : cursor ≤ start) (hlt : start < stop)
    (hhole : ∀ b, cursor ≤ b → b < start → img.data b = false)
    (hdata : ∀ b, start ≤ b → b < stop → img.data b = true) :
    Counted img page
      (total + ((stop + page - 1) / page - max (start / page) endPage) * page) stop
      ((stop + page - 1) / page) where
  total_eq := by
    set last := (stop + page - 1) / page
    set old := pagesOf page (img.bytesBelow cursor) with hold
    have hpages : pagesOf page (img.bytesBelow stop) =
        old ∪ Finset.Ico (max (start / page) endPage) last := by
      rw [bytesBelow_stop hle hlt hhole hdata, pagesOf, Finset.image_union, ← pagesOf, ← pagesOf,
        pagesOf_Ico hpage hlt]
      ext n
      simp only [Finset.mem_union, Finset.mem_Ico, max_le_iff]
      constructor
      · rintro (hn | ⟨hlow, hhigh⟩)
        · exact .inl hn
        · by_cases hnew : endPage ≤ n
          · exact .inr ⟨⟨hlow, hnew⟩, hhigh⟩
          · exact .inl (h.shared hpage hle hlow (by omega))
      · rintro (hn | ⟨⟨hlow, -⟩, hhigh⟩)
        · exact .inl hn
        · exact .inr ⟨hlow, hhigh⟩
    have hapart : Disjoint old (Finset.Ico (max (start / page) endPage) last) := by
      rw [Finset.disjoint_left]
      intro n hn hnew
      obtain ⟨b, hb, rfl⟩ := mem_pagesOf.mp hn
      rw [Finset.mem_Ico, max_le_iff, h.endPage_eq] at hnew
      have hbelow : b / page < (cursor + page - 1) / page :=
        (lt_div_iff hpage).mpr ((Nat.div_mul_le_self b page).trans_lt (mem_bytesBelow.mp hb).1)
      omega
    rw [hpages, Finset.card_union_of_disjoint hapart, Nat.card_Ico, h.total_eq, Nat.add_mul]
  endPage_eq := rfl
  last := .inr (hdata (stop - 1) (by omega) (by omega))

/-! ### The loop -/

/-- A query among these has failed. -/
def Asked (fails : Failures) (first last : ℕ) : Prop := ∃ k, first ≤ k ∧ k < last ∧ fails k ≠ none

theorem not_asked_self (fails : Failures) (n : ℕ) : ¬ Asked fails n n := by
  rintro ⟨k, hle, hlt, -⟩
  omega

theorem asked_step {fails : Failures} {n m : ℕ} (hnone : fails n = none) :
    Asked fails n m ↔ Asked fails (n + 1) m := by
  constructor
  · rintro ⟨k, hle, hlt, hk⟩
    have hne : n ≠ k := by
      rintro rfl
      exact hk hnone
    exact ⟨k, by omega, hlt, hk⟩
  · rintro ⟨k, hle, hlt, hk⟩
    exact ⟨k, by omega, hlt, hk⟩

/-- What comes out: the rounded size if a query has failed, and else the pages with data. -/
structure Budget (img : Image) (page : ℕ) (fails : Failures) (asked : ℕ)
    (r : Except Error Capacity × ℕ) : Prop where
  asked_le : asked ≤ r.2
  failed : Asked fails asked r.2 → r.1 = .ok (img.logicalSize page)
  exact : ¬ Asked fails asked r.2 → r.1 = .ok (extentPages ((pagesOf page img.bytes).card * page))

theorem bytesBelow_of_none (h : ∀ b, cursor ≤ b → img.data b = false) :
    img.bytesBelow cursor = img.bytes := by
  ext b
  rw [mem_bytesBelow, mem_bytesBelow]
  constructor
  · rintro ⟨-, hdata⟩
    exact ⟨lt_size_of_data hdata, hdata⟩
  · rintro ⟨-, hdata⟩
    refine ⟨?_, hdata⟩
    by_contra hle
    rw [h b (by omega)] at hdata
    cases hdata

/-- A query that fails ends the loop. -/
theorem budget_of_failure {fails : Failures} {asked : ℕ} {e : Errno} {n : ℕ}
    (hfail : fails (asked + n) = some e) : 
    Budget img page fails asked (.ok (img.logicalSize page), asked + n + 1) where
  asked_le := by omega
  failed _ := rfl
  exact h := by
    refine absurd ⟨asked + n, by omega, by omega, ?_⟩ h
    rw [hfail]
    simp

/-- Two queries that do not fail. -/
theorem Budget.two {fails : Failures} {asked : ℕ} {r : Except Error Capacity × ℕ}
    (hfirst : fails asked = none) (hsecond : fails (asked + 1) = none)
    (h : Budget img page fails (asked + 2) r) : Budget img page fails asked r := by
  have hle := h.asked_le
  have hsame : Asked fails asked r.2 ↔ Asked fails (asked + 2) r.2 := by
    rw [asked_step hfirst, asked_step hsecond]
  exact ⟨by omega, fun hfailed => h.failed (hsame.mp hfailed),
    fun hnone => h.exact fun hfailed => hnone (hsame.mpr hfailed)⟩

/-- The loop, by what is left of the file. -/
theorem loop_budget (hpage : 0 < page) {fails : Failures}
    (hfails : ∀ k e, fails k = some e → e.unsupported = true) (total cursor endPage asked : ℕ)
    (hcounted : Counted img page total cursor endPage) :
    Budget img page fails asked (loop img page fails total cursor endPage asked) := by
  induction hleft : img.size - cursor using Nat.strong_induction_on
    generalizing total cursor endPage asked with
  | _ left ih =>
    subst hleft
    rw [loop]
    by_cases hmore : cursor < img.size
    · rw [if_pos hmore, Image.lseekData]
      cases hfirst : fails asked with
      | some e =>
        have hkind := hfails asked e hfirst
        have hne : e ≠ .enxio := by
          rintro rfl
          cases hkind
        simp only [if_neg hne, hkind, if_true]
        exact budget_of_failure (n := 0) hfirst
      | none =>
        cases hdata : img.seekData cursor with
        | none =>
          simp only [if_true]
          refine ⟨Nat.le_succ _, fun hasked => ?_, fun _ => ?_⟩
          · exact absurd ((asked_step hfirst).mp hasked) (not_asked_self _ _)
          · rw [hcounted.total_eq, bytesBelow_of_none fun b hle => seekData_eq_none hdata hle]
        | some start =>
          obtain ⟨hle, hbit, hgap⟩ := seekData_eq_some hdata
          obtain ⟨hlt, hend, hrun⟩ := seekHole_spec hbit
          simp only [Image.lseekHole]
          cases hsecond : fails (asked + 1) with
          | some e =>
            simp only [hfails (asked + 1) e hsecond, if_true]
            exact budget_of_failure (n := 1) hsecond
          | none =>
            simp only [Nat.min_eq_right hend]
            rw [if_pos ⟨hle, hlt, hend⟩]
            exact (ih _ (by omega) _ _ _ _ (hcounted.next hpage hle hlt hgap hrun) rfl).two hfirst
              hsecond
    · rw [if_neg hmore]
      refine ⟨le_rfl, fun h => absurd h (not_asked_self _ _), fun _ => ?_⟩
      rw [hcounted.total_eq, bytesBelow_of_none fun b hle => ?_]
      by_contra hdata
      rw [Bool.not_eq_false] at hdata
      have hlt := lt_size_of_data hdata
      omega

/-! ### Bounds -/

/-- The extents' lengths add up to the bytes of data. -/
theorem card_bytes (img : Image) :
    img.bytes.card = (img.extents.map fun e => e.2 - e.1).sum := by
  have hunion : img.bytes = Intervals.union img.extents := by
    ext b
    rw [Intervals.mem_union, mem_bytesBelow, data_iff, and_iff_right_iff_imp]
    exact fun h => lt_size_of_data (data_iff.mpr h)
  rw [hunion, Intervals.card_union img.apart]

/-- Each page has at most as many bytes as its size. -/
theorem card_le_pages (hpage : 0 < page) (bs : Finset ℕ) :
    bs.card ≤ (pagesOf page bs).card * page := by
  have hfiber : ∀ n ∈ pagesOf page bs, (bs.filter fun b => b / page = n).card ≤ page := by
    intro n _
    calc (bs.filter fun b => b / page = n).card ≤ (Finset.Ico (n * page) (n * page + page)).card := by
          refine Finset.card_le_card fun b hb => ?_
          obtain ⟨-, rfl⟩ := Finset.mem_filter.mp hb
          rw [Finset.mem_Ico]
          exact ⟨Nat.div_mul_le_self b page, by
            have hlt := Nat.lt_div_mul_add hpage (a := b)
            omega⟩
      _ = page := by simp
  exact Finset.card_le_mul_card_image bs page hfiber |>.trans_eq (Nat.mul_comm ..)

theorem pages_le_logical (hpage : 0 < page) (img : Image) :
    (pagesOf page img.bytes).card * page ≤ img.logical page := by
  refine Nat.mul_le_mul_right page ?_
  rw [← Finset.card_range ((img.size + page - 1) / page)]
  refine Finset.card_le_card fun n hn => ?_
  obtain ⟨b, hb, rfl⟩ := mem_pagesOf.mp hn
  rw [Finset.mem_range, lt_div_iff hpage]
  exact (Nat.div_mul_le_self b page).trans_lt (mem_bytesBelow.mp hb).1

/-- **The budget is exact.** It is the size of the pages that have data, which is not less than the
extents and not more than the rounded size, and the rounded size as soon as a query fails. -/
theorem capacity_exact (img : Image) (page : ℕ) (hpage : 0 < page) (seeks : Bool) (fails : Failures)
    (hfails : ∀ k e, fails k = some e → e.unsupported = true) :
    ∃ c, (readonlyImageCapacity img page seeks fails).1 = .ok c ∧
      (c.bytes = if seeks = true ∧ ∀ k < (readonlyImageCapacity img page seeks fails).2,
        fails k = none then page * (pagesOf page img.bytes).card else img.logical page) ∧
      (img.extents.map fun e => e.2 - e.1).sum ≤ page * (pagesOf page img.bytes).card ∧
      page * (pagesOf page img.bytes).card ≤ img.logical page := by
  have hbudget : Budget img page fails 0 (loop img page fails 0 0 0 0) :=
    loop_budget hpage hfails 0 0 0 0 (counted_start hpage)
  have hlow : (img.extents.map fun e => e.2 - e.1).sum ≤ page * (pagesOf page img.bytes).card := by
    rw [← card_bytes, Nat.mul_comm]
    exact card_le_pages hpage img.bytes
  have hhigh : page * (pagesOf page img.bytes).card ≤ img.logical page := by
    rw [Nat.mul_comm]
    exact pages_le_logical hpage img
  cases seeks with
  | false =>
    refine ⟨img.logicalSize page, rfl, ?_, hlow, hhigh⟩
    rw [if_neg fun h => by cases h.1]
    rfl
  | true =>
    have hloop : readonlyImageCapacity img page true fails = loop img page fails 0 0 0 0 := rfl
    rw [hloop]
    by_cases hasked : Asked fails 0 (loop img page fails 0 0 0 0).2
    · refine ⟨_, hbudget.failed hasked, ?_, hlow, hhigh⟩
      obtain ⟨k, -, hlt, hk⟩ := hasked
      exact (if_neg fun h => hk (h.2 k hlt)).symm
    · refine ⟨_, hbudget.exact hasked, ?_, hlow, hhigh⟩
      have hnone : ∀ k < (loop img page fails 0 0 0 0).2, fails k = none := by
        intro k hlt
        by_contra hk
        exact hasked ⟨k, Nat.zero_le k, hlt, hk⟩
      rw [if_pos ⟨rfl, hnone⟩]
      exact Nat.mul_comm ..

/-- Two extents on one page, and one that touches the second. -/
def threeExtents : Image where
  size := 10000
  extents := [(100, 200), (300, 5000), (5000, 5001)]
  inside := by decide
  apart := by
    simp only [List.pairwise_cons, List.mem_cons, List.not_mem_nil, or_false]
    refine ⟨?_, ?_, ?_, .nil⟩
    · rintro f (rfl | rfl) <;> exact Finset.Ico_disjoint_Ico_consecutive .. |>.mono_right
        (Finset.Ico_subset_Ico_left (by decide))
    · rintro f rfl
      exact Finset.Ico_disjoint_Ico_consecutive ..
    · rintro f ⟨⟩

theorem capacity_exact_three : ∃ c,
    (readonlyImageCapacity threeExtents 4096 true fun _ => none).1 = .ok c ∧
      4801 ≤ 4096 * (pagesOf 4096 threeExtents.bytes).card ∧
      c.bytes = 4096 * (pagesOf 4096 threeExtents.bytes).card := by
  obtain ⟨c, hc, hbytes, hlow, -⟩ :=
    capacity_exact threeExtents 4096 (by decide) true (fun _ => none) (by simp)
  refine ⟨c, hc, hlow, ?_⟩
  rw [hbytes, if_pos ⟨rfl, fun _ _ => rfl⟩]

end Ram

end DeltaBox
