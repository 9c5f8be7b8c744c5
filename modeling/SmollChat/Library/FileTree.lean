import Mathlib.Data.List.AList

/-! # A tree of files

What a process sees of a file system: directories and files at locations, a location being
the list of the names that lead to it, innermost first. Paths start at the root and may
contain `.` and `..`. Directories are not made here, but an empty one can be removed. -/

namespace FileTree

/-- A component of a path. -/
inductive Component (N : Type*) where
  /-- `.` -/
  | here
  /-- `..` -/
  | up
  | down (name : N)

inductive Node (C : Type*) where
  | dir
  | file (content : C)
  deriving DecidableEq

section Paths

variable {N : Type*}

/-- Where a component leads. The root is its own parent. -/
def Component.go : Component N → List N → List N
  | .here, c => c
  | .up, c => c.tail
  | .down name, c => name :: c

def Component.isDown : Component N → Bool
  | .down _ => true
  | _ => false

/-- The location that a path names. -/
def target (path : List (Component N)) : List N := path.foldl (fun c k => k.go c) []

/-- The locations that a path goes on from, beginning at `c`. -/
def passedFrom : List N → List (Component N) → List (List N)
  | _, [] => []
  | c, k :: ks => c :: passedFrom (k.go c) ks

def passed (path : List (Component N)) : List (List N) := passedFrom [] path

/-- The path names the location or goes on from it. -/
def uses (path : List (Component N)) : List (List N) := passed path ++ [target path]

theorem target_mem_uses (path : List (Component N)) : target path ∈ uses path := by
  simp [uses]

theorem target_ne_nil {path : List (Component N)}
    (h : path.getLast?.any Component.isDown = true) :
    target path ≠ [] := by
  rcases List.eq_nil_or_concat path with rfl | ⟨path, k, rfl⟩
  · cases h
  · cases k with
    | here | up => simp [Component.isDown] at h
    | down name => simp [target, Component.go]

end Paths

end FileTree

open FileTree in
/-- The nodes by location; every node but the root lies in a directory. -/
structure FileTree (N C : Type*) [DecidableEq N] where
  nodes : AList fun _ : List N => Node C
  root : nodes.lookup [] = some .dir
  parents : ∀ (name : N) (c : List N), (nodes.lookup (name :: c)).isSome = true →
    nodes.lookup c = some .dir

namespace FileTree

variable {N C : Type*} [DecidableEq N]

def node (t : FileTree N C) (c : List N) : Option (Node C) := t.nodes.lookup c

def isDir (t : FileTree N C) (c : List N) : Bool :=
  match t.node c with
  | some .dir => true
  | _ => false

/-- Nothing lies in the location. -/
def isEmpty (t : FileTree N C) (c : List N) : Bool :=
  t.nodes.keys.all fun k => k = [] || k.tail ≠ c

/-- Every location that the path goes on from is a directory. -/
def walks (t : FileTree N C) (path : List (Component N)) : Bool := (passed path).all t.isDir

/-- The path names a file or a directory. -/
def contains (t : FileTree N C) (path : List (Component N)) : Bool :=
  t.walks path && (t.node (target path)).isSome

variable {t t' : FileTree N C} {path p : List (Component N)} {may : List N → Bool}
  {name : N} {c d : List N} {content : C}

theorem isDir_iff : t.isDir c = true ↔ t.node c = some .dir := by
  simp only [isDir]
  split
  · rename_i h
    simp [h]
  · rename_i h
    simpa using h

theorem node_of_isEmpty (h : t.isEmpty c = true) (name : N) : t.node (name :: c) = none := by
  rw [node, AList.lookup_eq_none]
  intro hmem
  have hall := List.all_eq_true.mp h (name :: c) (AList.mem_keys.mp hmem)
  simp at hall

/-- Nodes that are seen to make up a tree. -/
def ofNodes (nodes : AList fun _ : List N => Node C) (root : nodes.lookup [] = some .dir)
    (parents : (nodes.keys.all fun c => match nodes.lookup c.tail with
      | some .dir => true
      | _ => false) = true) : FileTree N C where
  nodes := nodes
  root := root
  parents := by
    intro name c hnode
    have hmem : name :: c ∈ nodes.keys := AList.mem_keys.mp (AList.lookup_isSome.mp hnode)
    have hdir := List.all_eq_true.mp parents _ hmem
    simp only [List.tail_cons] at hdir
    split at hdir
    · assumption
    · cases hdir

/-! ## Changes -/

/-- A new file, or new content for an old one. -/
def insert (t : FileTree N C) (c : List N) (content : C) (hne : c ≠ [])
    (hdir : t.isDir c.tail = true) (hfile : t.isDir c = false) : FileTree N C where
  nodes := t.nodes.insert c (.file content)
  root := by
    rw [AList.lookup_insert_ne hne.symm]
    exact t.root
  parents := by
    intro name d hnode
    have hold : t.nodes.lookup d = some .dir := by
      by_cases hsame : name :: d = c
      · subst hsame
        exact isDir_iff.mp hdir
      · rw [AList.lookup_insert_ne hsame] at hnode
        exact t.parents name d hnode
    have hdc : d ≠ c := by
      rintro rfl
      rw [isDir_iff.mpr hold] at hfile
      cases hfile
    rw [AList.lookup_insert_ne hdc]
    exact hold

/-- Removes a file or an empty directory. -/
def erase (t : FileTree N C) (c : List N) (hne : c ≠ [])
    (hempty : t.isDir c = true → t.isEmpty c = true) : FileTree N C where
  nodes := t.nodes.erase c
  root := by
    rw [AList.lookup_erase_ne hne.symm]
    exact t.root
  parents := by
    intro name d hnode
    have hsame : name :: d ≠ c := by
      rintro rfl
      rw [AList.lookup_erase] at hnode
      cases hnode
    rw [AList.lookup_erase_ne hsame] at hnode
    have hold := t.parents name d hnode
    have hdc : d ≠ c := by
      rintro rfl
      have hnone := node_of_isEmpty (hempty (isDir_iff.mpr hold)) name
      rw [node] at hnone
      rw [hnone] at hnode
      cases hnode
    rw [AList.lookup_erase_ne hdc]
    exact hold

/-- The path names a file, or a place for one in a directory, that the process may write;
`may` says where it may change the tree. -/
def writable (t : FileTree N C) (may : List N → Bool) (path : List (Component N)) : Bool :=
  t.walks path && may (target path) && target path ≠ [] && t.isDir (target path).tail &&
    !t.isDir (target path)

theorem writable_iff : t.writable may path = true ↔ t.walks path = true ∧
    may (target path) = true ∧ target path ≠ [] ∧ t.isDir (target path).tail = true ∧
      t.isDir (target path) = false := by
  simp [writable, and_assoc]

/-- Creates or truncates the file of a path and stores the content there. -/
def write (t : FileTree N C) (may : List N → Bool) (path : List (Component N)) (content : C) :
    Option (FileTree N C) :=
  if h : t.writable may path = true then
    have hparts := writable_iff.mp h
    some (t.insert (target path) content hparts.2.2.1 hparts.2.2.2.1 hparts.2.2.2.2)
  else none

/-- The path names a file or an empty directory that the process may remove. -/
def deletable (t : FileTree N C) (may : List N → Bool) (path : List (Component N)) : Bool :=
  t.contains path && may (target path) && path.getLast?.any Component.isDown &&
    (!t.isDir (target path) || t.isEmpty (target path))

theorem deletable_iff : t.deletable may path = true ↔ t.contains path = true ∧
    may (target path) = true ∧ path.getLast?.any Component.isDown = true ∧
      (t.isDir (target path) = true → t.isEmpty (target path) = true) := by
  cases hdir : t.isDir (target path) <;> simp [deletable, and_assoc, hdir]

/-- Removes what a path names. -/
def delete (t : FileTree N C) (may : List N → Bool) (path : List (Component N)) :
    Option (FileTree N C) :=
  if h : t.deletable may path = true then
    have hparts := deletable_iff.mp h
    some (t.erase (target path) (target_ne_nil hparts.2.2.1) hparts.2.2.2)
  else none

/-! ## What a change leaves -/

theorem node_insert {hne : c ≠ []} {hdir : t.isDir c.tail = true} {hfile : t.isDir c = false} :
    (t.insert c content hne hdir hfile).node d =
      if d = c then some (.file content) else t.node d := by
  simp only [node, insert]
  split
  · rename_i h
    rw [h, AList.lookup_insert]
  · rename_i h
    rw [AList.lookup_insert_ne h]

theorem node_erase {hne : c ≠ []} {hempty : t.isDir c = true → t.isEmpty c = true} :
    (t.erase c hne hempty).node d = if d = c then none else t.node d := by
  simp only [node, erase]
  split
  · rename_i h
    rw [h, AList.lookup_erase]
  · rename_i h
    rw [AList.lookup_erase_ne h]

/-- A write changes the file of its path only. -/
theorem node_write (h : t.write may path content = some t') (d : List N) :
    t'.node d = if d = target path then some (.file content) else t.node d := by
  simp only [write] at h
  split at h
  · obtain rfl := Option.some.inj h
    exact node_insert
  · cases h

theorem writable_of_write (h : t.write may path content = some t') :
    t.writable may path = true := by
  simp only [write] at h
  split at h
  · assumption
  · cases h

/-- A removal changes what its path names only. -/
theorem node_delete (h : t.delete may path = some t') (d : List N) :
    t'.node d = if d = target path then none else t.node d := by
  simp only [delete] at h
  split at h
  · obtain rfl := Option.some.inj h
    exact node_erase
  · cases h

theorem isDir_congr (h : t'.node d = t.node d) : t'.isDir d = t.isDir d := by
  simp only [isDir, h]

theorem isDir_write (h : t.write may path content = some t') (hd : t.isDir d = true) :
    t'.isDir d = true := by
  have hfile := (writable_iff.mp (writable_of_write h)).2.2.2.2
  rw [isDir_congr, hd]
  rw [node_write h, if_neg]
  rintro rfl
  rw [hd] at hfile
  cases hfile

theorem walks_iff : t.walks path = true ↔ ∀ d ∈ passed path, t.isDir d = true := List.all_eq_true

theorem contains_iff : t.contains path = true ↔
    (∀ d ∈ passed path, t.isDir d = true) ∧ (t.node (target path)).isSome = true := by
  simp [contains, walks_iff]

/-- A file that is written exists. -/
theorem contains_write_self (h : t.write may path content = some t') :
    t'.contains path = true := by
  obtain ⟨hwalks, -, -, -, hfile⟩ := writable_iff.mp (writable_of_write h)
  rw [contains_iff, node_write h, if_pos rfl]
  exact ⟨fun d hd => isDir_write h (walks_iff.mp hwalks d hd), rfl⟩

/-- What existed before a write exists after it. -/
theorem contains_write (h : t.write may path content = some t') (hp : t.contains p = true) :
    t'.contains p = true := by
  rw [contains_iff] at hp ⊢
  refine ⟨fun d hd => isDir_write h (hp.1 d hd), ?_⟩
  rw [node_write h]
  split
  · rfl
  · exact hp.2

/-- A removal leaves the paths that do not use what it removes. -/
theorem contains_delete (h : t.delete may path = some t') :
    t'.contains p = true ↔ t.contains p = true ∧ target path ∉ uses p := by
  have hdirs (d : List N) : t'.isDir d = true ↔ d ≠ target path ∧ t.isDir d = true := by
    rw [isDir_iff, isDir_iff, node_delete h]
    split
    · rename_i hd
      simp [hd]
    · rename_i hd
      simp [hd]
  have hsome (d : List N) :
      (t'.node d).isSome = true ↔ d ≠ target path ∧ (t.node d).isSome = true := by
    rw [node_delete h]
    split
    · rename_i hd
      simp [hd]
    · rename_i hd
      simp [hd]
  simp only [contains_iff, hdirs, hsome, uses, List.mem_append, List.mem_singleton, not_or]
  constructor
  · rintro ⟨hpassed, hne, hnode⟩
    exact ⟨⟨fun d hd => (hpassed d hd).2, hnode⟩, fun hmem => (hpassed _ hmem).1 rfl, hne.symm⟩
  · rintro ⟨⟨hpassed, hnode⟩, hmem, hne⟩
    refine ⟨fun d hd => ⟨?_, hpassed d hd⟩, Ne.symm hne, hnode⟩
    rintro rfl
    exact hmem hd

end FileTree
