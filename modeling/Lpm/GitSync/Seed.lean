/-
What a new mirror is seeded with: `entries_to_seed`, which picks from git's listing of the
twin's ignored files the ones to clone.

One pass over the sorted names drops what lies inside the entry kept last. That alone would
not do, since sorting puts a folder ahead of what it holds but not next to it: `a-b` comes
between `a` and `a/x`. It is asking for the parent that keeps the seeds apart. What is not in
the destination yet holds nothing there, so of a folder and something inside it no more than
one is left for the pass. A path that ends in a `.` has the parent of the folder it names, and
gets past both.
-/
import Lpm.Lib.RustText
import Lpm.Lib.SortedList
import Mathlib.Data.List.Lex
import Mathlib.Data.Char
import Mathlib.Data.List.DropRight

set_option autoImplicit false

namespace Lpm.GitSync.Seed

open List
open RustText StableSort

/-- What `exists` and `is_dir` say of paths joined to the destination, which is a folder. A
folder goes by its components; whatever the way to one passes is there as well. -/
structure Dest where
  «exists» : Str → Bool
  is_dir : List Component → Bool
  here : is_dir [] = true
  on_the_way : ∀ path folder, is_dir folder = true → components path <+: folder →
    «exists» path = true

/-- `Path::parent`. -/
def parent (p : Str) : Option (List Component) :=
  match (components p).getLast? with
  | none => none
  | some .root_dir => none
  | some _ => some (components p).dropLast

def DUPLICATE_SKIP_DIRS : List String :=
  [".next", ".nuxt", ".svelte-kit", ".turbo", ".swc", ".cache", ".parcel-cache", "dist",
    "build", "out", "target", "__pycache__", ".mypy_cache", ".pytest_cache", ".gradle"]

def is_build_cache (path : Str) : Bool :=
  (path.splitOn '/').any fun part =>
    part = ".git".toList || part = ".DS_Store".toList
      || (DUPLICATE_SKIP_DIRS.map String.toList).contains part

/-- `str::trim_end_matches` for the separator. -/
def trim_end_slashes (s : Str) : Str := s.rdropWhile (· = '/')

/-- `Vec::dedup`: what repeats the one before it goes. -/
def dedup : List Str → List Str
  | a :: b :: rest => if a = b then dedup (b :: rest) else a :: dedup (b :: rest)
  | rest => rest

/-- `name.starts_with(&format!("\x7bparent\x7d/"))`. -/
def inside (name parent : Str) : Bool := (parent ++ ['/']).isPrefixOf name

/-- One turn of the pass. -/
def push (kept : List Str) (name : Str) : List Str :=
  if kept.getLast?.any (inside name) then kept else kept ++ [name]

section
variable (dest : Dest)

def parent_is_there (entry : Str) : Bool :=
  match parent entry with
  | some parent => parent.isEmpty || dest.is_dir parent
  | none => true

/-- The names of a listing that can be cloned, in its order. -/
def names (listing : Str) : List Str :=
  (((listing.splitOn '\x00').map trim_end_slashes).filter fun entry =>
    !entry.isEmpty && !is_build_cache entry).filter fun entry =>
      !dest.exists entry && parent_is_there dest entry

def entries_to_seed (listing : Str) : List Str :=
  (dedup (sortBy id (names dest listing))).foldl push []

end

/-! ## Sorted without repeats -/

theorem mem_dedup {a : Str} (l : List Str) : a ∈ dedup l ↔ a ∈ l := by
  induction l using dedup.induct with
  | case1 b rest ih =>
    rw [dedup, if_pos rfl, ih]
    simp
  | case2 b c rest hne ih => rw [dedup, if_neg hne, mem_cons, ih, mem_cons (l := c :: rest)]
  | case3 l hl => rw [dedup]; exact hl

theorem dedup_strict {l : List Str} (h : l.Pairwise (· ≤ ·)) : (dedup l).Pairwise (· < ·) := by
  induction l using dedup.induct with
  | case1 b rest ih =>
    rw [dedup, if_pos rfl]
    exact ih (pairwise_cons.mp h).2
  | case2 b c rest hne ih =>
    obtain ⟨hb, hrest⟩ := pairwise_cons.mp h
    rw [dedup, if_neg hne, pairwise_cons]
    refine ⟨?_, ih hrest⟩
    intro a ha
    -- `b` is before `c`, and `c` before all that follow
    have hbc : b < c := lt_of_le_of_ne (hb c mem_cons_self) hne
    rcases mem_cons.mp ((mem_dedup _).mp ha) with rfl | ha
    · exact hbc
    · exact lt_of_lt_of_le hbc ((pairwise_cons.mp hrest).1 a ha)
  | case3 l hl =>
    match l, hl with
    | [], _ => exact Pairwise.nil
    | [a], _ => exact pairwise_singleton _ _
    | a :: b :: rest, hl => exact absurd rfl (hl a b rest)

/-! ## What is inside what can be cloned -/

/-- The path ends in a component. -/
def Ends (name : Str) : Prop :=
  (name.splitOn '/').getLast? ≠ some [] ∧ (name.splitOn '/').getLast? ≠ some ['.']

instance (name : Str) : Decidable (Ends name) := inferInstanceAs (Decidable (_ ∧ _))

/-- A path that goes on from another, and ends in a component, has components besides. -/
theorem components_append {a r : Str} (ha : a ≠ []) (h : Ends (a ++ '/' :: r)) :
    ∃ more last, components (a ++ '/' :: r) = components a ++ (more ++ [last]) ∧
      last ≠ .root_dir := by
  have hsplit := splitOn_append_cons_self (a := '/') a r
  have hhead : (a ++ '/' :: r).head? = a.head? := head?_append_of_ne_nil _ ha
  obtain ⟨init, part, hr⟩ := (eq_nil_or_concat' _).resolve_left (splitOn_ne_nil '/' r)
  have hparts : (a.splitOn '/' ++ (init ++ [part])).head? = (a.splitOn '/').head? :=
    head?_append_of_ne_nil _ (splitOn_ne_nil _ _)
  rw [hr] at hsplit
  rw [Ends, hsplit, ← append_assoc, getLast?_concat] at h
  have hne : ¬(part = [] ∨ part = ['.']) := by
    rintro (rfl | rfl)
    · exact h.1 rfl
    · exact h.2 rfl
  simp only [components, hsplit, hhead, hparts, filterMap_append, append_assoc]
  by_cases hup : part = ['.', '.']
  · exact ⟨_, .parent_dir, by simp [hup]; rfl, by simp⟩
  · exact ⟨_, .normal part, by simp [hne, hup]; rfl, by simp⟩

/-- Of what can be cloned nothing is inside anything else. -/
theorem not_inside {dest : Dest} {listing a d : Str} (ha : a ∈ names dest listing)
    (hd : d ∈ names dest listing) (h : Ends d) : ¬inside d a := by
  intro hin
  obtain ⟨r, rfl⟩ := isPrefixOf_iff_prefix.mp hin
  simp only [names, mem_filter, Bool.and_eq_true, Bool.not_eq_true', isEmpty_eq_false_iff] at ha hd
  rw [append_assoc, singleton_append] at hd h
  obtain ⟨more, last, hcomp, hlast⟩ := components_append ha.1.2.1 h
  have hparent : parent (a ++ '/' :: r) = some (components a ++ more) := by
    unfold parent
    rw [hcomp, ← append_assoc, getLast?_concat, dropLast_concat]
    cases last with
    | root_dir => exact absurd rfl hlast
    | cur_dir => rfl
    | parent_dir => rfl
    | normal name => rfl
  have hthere := hd.2.2
  rw [parent_is_there, hparent, Bool.or_eq_true, List.isEmpty_iff] at hthere
  have hdir : dest.is_dir (components a ++ more) = true := by
    rcases hthere with hnil | hdir
    · rw [hnil]
      exact dest.here
    · exact hdir
  have hexists := dest.on_the_way a _ hdir (prefix_append _ _)
  rw [ha.2.1] at hexists
  exact absurd hexists (by decide)

/-- The pass keeps names of which none is inside another. -/
theorem foldl_push_eq (names kept : List Str) (h : ∀ a ∈ kept ++ names, ∀ n ∈ names, ¬inside n a) :
    names.foldl push kept = kept ++ names := by
  induction names generalizing kept with
  | nil => exact (append_nil _).symm
  | cons n names ih =>
    have hno : ¬kept.getLast?.any (inside n) = true := by
      rw [Option.any_eq_true]
      rintro ⟨k, hk, hin⟩
      exact h k (mem_append_left _ (mem_of_getLast? hk)) n mem_cons_self hin
    rw [foldl_cons, push, if_neg hno, ih, append_assoc, singleton_append]
    intro a ha m hm
    rw [append_assoc, singleton_append] at ha
    exact h a ha m (mem_cons_of_mem _ hm)

/-! ## Seeding -/

/-- The seeds of a listing are what they are meant to be: what can be cloned and lies in no
other seed, each once and none in another. -/
def Right (dest : Dest) (listing : Str) : Prop :=
  let out := entries_to_seed dest listing
  (∀ n, n ∈ out ↔ n ∈ names dest listing ∧ ¬∃ p ∈ out, inside n p) ∧ out.Nodup ∧
    ∀ n ∈ out, ∀ p ∈ out, ¬inside n p

/-- The seeds are right where every path ends in a component. -/
theorem seeds_right (dest : Dest) (listing : Str) (h : ∀ n ∈ names dest listing, Ends n) :
    Right dest listing := by
  have hmem : ∀ n, n ∈ dedup (sortBy id (names dest listing)) ↔ n ∈ names dest listing :=
    fun n => (mem_dedup _).trans (sortBy_perm id _).mem_iff
  have hno : ∀ n ∈ dedup (sortBy id (names dest listing)),
      ∀ p ∈ dedup (sortBy id (names dest listing)), ¬inside n p := by
    intro n hn p hp
    rw [hmem] at hn hp
    exact not_inside hp hn (h n hn)
  have hout : entries_to_seed dest listing = dedup (sortBy id (names dest listing)) :=
    foldl_push_eq _ [] fun a ha n hn => hno n hn a ha
  unfold Right
  rw [hout]
  refine ⟨?_, (dedup_strict (sortBy_pairwise id _)).nodup, hno⟩
  intro n
  rw [hmem]
  refine (and_iff_left_of_imp ?_).symm
  rintro hn ⟨p, hp, hin⟩
  exact hno n ((hmem n).mpr hn) p hp hin

/-- A destination with nothing in it. -/
def nothing_in : Dest where
  «exists» path := (components path).all fun part => !part matches .normal _
  is_dir folder := folder.all fun part => !part matches .normal _
  here := rfl
  on_the_way _ _ h hpre :=
    all_eq_true.mpr fun part hp => all_eq_true.mp h part (hpre.subset hp)

theorem seeds_right_modules :
    (∀ n ∈ names nothing_in "node_modules/\x00node_modules/.bin/\x00node_modules_2/".toList, Ends n) ∧
      Right nothing_in "node_modules/\x00node_modules/.bin/\x00node_modules_2/".toList := by
  have hnames : names nothing_in "node_modules/\x00node_modules/.bin/\x00node_modules_2/".toList
      = ["node_modules".toList, "node_modules_2".toList] := by decide +kernel
  have hends : ∀ n ∈ names nothing_in
      "node_modules/\x00node_modules/.bin/\x00node_modules_2/".toList, Ends n := by
    rw [hnames]
    decide
  exact ⟨hends, seeds_right _ _ hends⟩

/-- `vendor/.` is cloned besides `vendor`: `vendor-old` comes between. -/
theorem vendor_cloned_twice :
    ¬Right nothing_in "vendor/\x00vendor-old/\x00vendor/.".toList := by
  have hnames : names nothing_in "vendor/\x00vendor-old/\x00vendor/.".toList
      = ["vendor".toList, "vendor-old".toList, "vendor/.".toList] := by decide +kernel
  unfold Right entries_to_seed
  rw [hnames, sortBy_of_pairwise (by decide)]
  intro h
  exact h.2.2 "vendor/.".toList (by decide) "vendor".toList (by decide) (by decide)

end Lpm.GitSync.Seed
