import Mathlib.Data.List.Dedup
import Mathlib.Data.List.Infix
import PFabric.Support.Text

/-!
# Paths and directory trees

A path is what a text denotes once it is cut at its slashes: it does not matter
how many slashes stand between two components.  A tree is the set of the
directories and files that exist; programs act on it by making directories and
by writing files.
-/

namespace PFabric

open Text

/-! ## Paths -/

structure Path where
  absolute : Bool
  parts : List Text
  deriving DecidableEq

/-- The components of a path name. -/
def components (t : Text) : List Text := (split ['/'] t).filter (· ≠ [])

/-- `os.path.join` of two names. -/
def joinPath (a b : Text) : Text :=
  if b.head? = some '/' then b
  else if a = [] ∨ a.getLast? = some '/' then a ++ b
  else a ++ '/' :: b

theorem components_slash (a b : Text) :
    components (a ++ '/' :: b) = components a ++ components b := by
  rw [components, split_singleton_append, List.filter_append, components, components]

/-- A name is a text that can stand between two slashes. -/
structure IsName (t : Text) : Prop where
  ne_nil : t ≠ []
  noSlash : '/' ∉ t

theorem components_of_isName {t : Text} (h : IsName t) : components t = [t] := by
  rw [components, split_of_notMem h.noSlash]
  simp [h.ne_nil]

namespace Path

/-- The path a text denotes. -/
def ofText (t : Text) : Path := ⟨t.head? = some '/', components t⟩

def child (p : Path) (name : Text) : Path := ⟨p.absolute, p.parts ++ [name]⟩

/-- The path and all directories above it. -/
def ancestors (p : Path) : List Path := p.parts.inits.map fun parts => ⟨p.absolute, parts⟩

theorem mem_ancestors {p q : Path} :
    p ∈ q.ancestors ↔ p.absolute = q.absolute ∧ p.parts <+: q.parts := by
  rw [ancestors, List.mem_map]
  constructor
  · rintro ⟨parts, hparts, rfl⟩
    exact ⟨rfl, (List.mem_inits _ _).mp hparts⟩
  · rintro ⟨habsolute, hparts⟩
    exact ⟨p.parts, (List.mem_inits _ _).mpr hparts, by rw [← habsolute]⟩

theorem child_inj {p q : Path} {a b : Text} : p.child a = q.child b ↔ p = q ∧ a = b := by
  cases p
  cases q
  simp only [child, mk.injEq, List.append_singleton_inj, and_assoc]

/-- The name under which a path stands in a directory. -/
def nameIn (dir p : Path) : Option Text :=
  if p.absolute = dir.absolute ∧ p.parts.dropLast = dir.parts then p.parts.getLast? else none

theorem nameIn_eq_some_iff {dir p : Path} {name : Text} :
    nameIn dir p = some name ↔ p = dir.child name := by
  obtain ⟨absolute, parts⟩ := p
  simp only [nameIn, child, Option.ite_none_right_eq_some, mk.injEq, and_assoc]
  refine and_congr_right fun _ => ?_
  constructor
  · rintro ⟨hparts, hlast⟩
    obtain ⟨init, rfl⟩ := List.getLast?_eq_some_iff.mp hlast
    rw [List.dropLast_concat] at hparts
    rw [hparts]
  · rintro rfl
    exact ⟨List.dropLast_concat, List.getLast?_concat⟩

/-- A name behind a slash denotes a child. -/
theorem ofText_slash {a b : Text} (ha : a ≠ []) (hb : IsName b) :
    ofText (a ++ '/' :: b) = (ofText a).child b := by
  rw [ofText, components_slash, components_of_isName hb, List.head?_append_of_ne_nil _ ha]
  rfl

theorem ofText_joinPath {a b : Text} (ha : a ≠ []) (hb : IsName b) :
    ofText (joinPath a b) = (ofText a).child b := by
  have hhead : b.head? ≠ some '/' := fun h => hb.noSlash (List.mem_of_mem_head? h)
  rw [joinPath, if_neg hhead]
  by_cases hlast : a = [] ∨ a.getLast? = some '/'
  · rw [if_pos hlast]
    -- the slash that ends the name takes the place of the one to be put in
    obtain ⟨a, rfl⟩ := List.getLast?_eq_some_iff.mp (hlast.resolve_left ha)
    have hparts : components (a ++ ['/']) = components a := by
      rw [components_slash]
      simp [components, split, splitFrom]
    rw [ofText, List.append_assoc, List.singleton_append, components_slash, ofText, hparts,
      components_of_isName hb, ← List.singleton_append, ← List.append_assoc,
      List.head?_append_of_ne_nil _ ha]
    rfl
  · rw [if_neg hlast, ofText_slash ha hb]

end Path

/-! ## Trees -/

structure FileTree where
  dirs : List Path
  files : List Path

namespace FileTree

/-- What programs do to a tree: make a directory unless the path exists, and write
a file. -/
inductive Effect where
  | ensureDir (p : Path)
  | write (p : Path)

def apply (tree : FileTree) : Effect → FileTree
  | .ensureDir p =>
      if p ∈ tree.dirs ∨ p ∈ tree.files then tree
      else { tree with dirs := tree.dirs ++ p.ancestors }
  | .write p =>
      if p ∈ tree.dirs ∨ p ∈ tree.files then tree
      else { tree with files := tree.files ++ [p] }

def run (tree : FileTree) (effects : List Effect) : FileTree := effects.foldl apply tree

/-- `os.listdir` gives the entries of a directory in any order. -/
structure IsListing (tree : FileTree) (dir : Path) (names : List Text) : Prop where
  nodup : names.Nodup
  mem_iff : ∀ name, name ∈ names ↔ dir.child name ∈ tree.dirs ∨ dir.child name ∈ tree.files

/-- The entries of a directory, in one order. -/
def entries (tree : FileTree) (dir : Path) : List Text :=
  ((tree.dirs ++ tree.files).filterMap (Path.nameIn dir)).dedup

theorem entries_isListing (tree : FileTree) (dir : Path) :
    tree.IsListing dir (tree.entries dir) where
  nodup := List.nodup_dedup _
  mem_iff name := by
    simp only [entries, List.mem_dedup, List.mem_filterMap, Path.nameIn_eq_some_iff,
      exists_eq_right, List.mem_append]

/-- Nothing exists below a path. -/
def EmptyBelow (tree : FileTree) (dir : Path) : Prop :=
  ∀ p, p ∈ tree.dirs ∨ p ∈ tree.files → p.absolute = dir.absolute →
    dir.parts <+: p.parts → p.parts = dir.parts

theorem dirs_subset_apply (tree : FileTree) (e : Effect) : tree.dirs ⊆ (tree.apply e).dirs := by
  intro p hp
  cases e with
  | ensureDir q =>
      rw [apply]
      split
      · exact hp
      · exact List.mem_append_left _ hp
  | write q =>
      rw [apply]
      split <;> exact hp

theorem dirs_subset_run (tree : FileTree) (es : List Effect) : tree.dirs ⊆ (tree.run es).dirs := by
  induction es generalizing tree with
  | nil => exact List.Subset.refl _
  | cons e es ih => exact List.Subset.trans (dirs_subset_apply tree e) (ih (tree.apply e))

theorem mem_dirs_apply {tree : FileTree} {e : Effect} {p : Path}
    (h : p ∈ (tree.apply e).dirs) : p ∈ tree.dirs ∨ ∃ q, e = .ensureDir q ∧ p ∈ q.ancestors := by
  cases e with
  | ensureDir q =>
      rw [apply] at h
      split at h
      · exact Or.inl h
      · exact (List.mem_append.mp h).imp_right fun hp => ⟨q, rfl, hp⟩
  | write q =>
      rw [apply] at h
      split at h <;> exact Or.inl h

theorem mem_files_apply {tree : FileTree} {e : Effect} {p : Path}
    (h : p ∈ (tree.apply e).files) : p ∈ tree.files ∨ e = .write p := by
  cases e with
  | ensureDir q =>
      rw [apply] at h
      split at h <;> exact Or.inl h
  | write q =>
      rw [apply] at h
      split at h
      · exact Or.inl h
      · exact (List.mem_append.mp h).imp_right fun hp => by rw [List.mem_singleton.mp hp]

/-- A directory was there or lies above one that was made. -/
theorem mem_dirs_run {tree : FileTree} {es : List Effect} {p : Path}
    (h : p ∈ (tree.run es).dirs) : p ∈ tree.dirs ∨ ∃ q, .ensureDir q ∈ es ∧ p ∈ q.ancestors := by
  induction es generalizing tree with
  | nil => exact Or.inl h
  | cons e es ih =>
      rcases ih h with hdirs | ⟨q, hq, hp⟩
      · rcases mem_dirs_apply hdirs with hdirs | ⟨q, rfl, hp⟩
        · exact Or.inl hdirs
        · exact Or.inr ⟨q, List.mem_cons_self, hp⟩
      · exact Or.inr ⟨q, List.mem_cons_of_mem e hq, hp⟩

/-- A file was there or has been written. -/
theorem mem_files_run {tree : FileTree} {es : List Effect} {p : Path}
    (h : p ∈ (tree.run es).files) : p ∈ tree.files ∨ .write p ∈ es := by
  induction es generalizing tree with
  | nil => exact Or.inl h
  | cons e es ih =>
      rcases ih h with hfiles | hp
      · rcases mem_files_apply hfiles with hfiles | rfl
        · exact Or.inl hfiles
        · exact Or.inr List.mem_cons_self
      · exact Or.inr (List.mem_cons_of_mem e hp)

/-- A directory that is made exists from then on, if no file takes its place. -/
theorem mem_dirs_run_of_ensureDir {tree : FileTree} {es : List Effect} {p : Path}
    (hmem : .ensureDir p ∈ es) (hfile : p ∉ tree.files) (hwrite : .write p ∉ es) :
    p ∈ (tree.run es).dirs := by
  obtain ⟨before, after, rfl⟩ := List.append_of_mem hmem
  have hnot : p ∉ (tree.run before).files := fun h =>
    (mem_files_run h).elim hfile fun hp => hwrite (List.mem_append_left _ hp)
  rw [run, List.foldl_append, List.foldl_cons]
  apply dirs_subset_run
  change p ∈ ((tree.run before).apply (.ensureDir p)).dirs
  rw [apply]
  split
  case isTrue h => exact h.resolve_right hnot
  case isFalse =>
    exact List.mem_append_right _ (Path.mem_ancestors.mpr ⟨rfl, List.prefix_refl _⟩)

end FileTree
end PFabric
