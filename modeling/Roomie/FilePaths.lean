import Mathlib.Control.Monad.Basic
import Roomie.HashTables

/-!
# Paths in a file system

A path is resolved name by name: an empty name and `.` stay where they are, `..` goes up, any other
name is looked up in the directory reached so far. An absolute path starts at the root, and joined
to another path it takes its place. Links are followed already: an entry says where its name leads.
-/

namespace FilePaths
open HashTables

/-- What may stand as a name in a directory. -/
structure IsName (name : String) : Prop where
  nonempty : name ≠ ""
  notDot : name ≠ "."
  notDotDot : name ≠ ".."
  noSlash : '/' ∉ name.toList
  noNul : '\x00' ∉ name.toList

/-- Directories and files. The contents of a file are none if they cannot be read as text. -/
structure FileSystem (Node : Type) where
  root : Node
  cwd : Node
  isDir : Node → Bool
  entries : Node → Table String Node
  parent : Node → Node
  contents : Node → Option String
  root_dir : isDir root = true
  entry_name : ∀ d name, name ∈ entries d → IsName name
  entry_dir : ∀ d name, name ∈ entries d → isDir d = true
  contents_file : ∀ n text, contents n = some text → isDir n = false

def isAbsolute (path : String) : Bool := path.toList.head? == some '/'

/-- `Path::join`: an absolute right operand replaces. -/
def join (path rel : String) : String :=
  if isAbsolute rel then rel
  else if path = "" ∨ path.toList.getLast? = some '/' then path ++ rel
  else path ++ "/" ++ rel

def components (path : String) : List String := (path.toList.splitOn '/').map .ofList

namespace FileSystem
variable {Node : Type} (fs : FileSystem Node)

/-- Where a name leads from a directory. -/
def follow (d : Node) (name : String) : Option Node :=
  if fs.isDir d then
    if name = "" ∨ name = "." then some d
    else if name = ".." then some (fs.parent d)
    else (fs.entries d).lookup name
  else none

def walk (d : Node) (names : List String) : Option Node := names.foldlM fs.follow d

/-- Where a path leads. -/
def resolve (path : String) : Option Node :=
  if path = "" then none
  else fs.walk (if isAbsolute path then fs.root else fs.cwd) (components path)

def isDirectory (path : String) : Bool := (fs.resolve path).any fs.isDir

/-- `read_to_string`. -/
def readToString (path : String) : Option String := (fs.resolve path).bind fs.contents

/-- A file lies directly in the directory. -/
def holds (d : Node) (name : String) : Bool :=
  ((fs.entries d).lookup name).any fun n => !fs.isDir n

/-- The names of the files that lie directly in the directory. -/
def files (d : Node) : List String := (fs.entries d).keys.filter (fs.holds d)

variable {fs} {d : Node} {name : String}

theorem entry_of_holds (h : fs.holds d name = true) : name ∈ fs.entries d := by
  obtain ⟨n, hn, -⟩ := (Option.any_eq_true _ _).mp h
  exact AList.mem_of_lookup hn

theorem mem_files : name ∈ fs.files d ↔ fs.holds d name = true := by
  rw [files, List.mem_filter, and_iff_right_iff_imp]
  exact fun h => AList.mem_keys.mpr (entry_of_holds h)

/-! ## Joined paths -/

theorem walk_append (d : Node) (names rest : List String) :
    fs.walk d (names ++ rest) = (fs.walk d names).bind fun d => fs.walk d rest :=
  List.foldlM_append

theorem walk_one (d : Node) (name : String) : fs.walk d [name] = fs.follow d name := by
  rw [walk, List.foldlM_cons]
  exact bind_pure _

/-- An empty name leads nowhere else. -/
theorem follow_empty {d' : Node} (h : fs.follow d "" = some d') : d = d' := by
  unfold follow at h
  split_ifs at h with hdir hempty
  · exact Option.some.inj h
  all_goals exact absurd (.inl rfl) hempty

/-- A name that neither stays nor goes up is looked up. -/
theorem follow_name (hempty : name ≠ "") (hdot : name ≠ ".") (hdotdot : name ≠ "..") :
    fs.follow d name = (fs.entries d).lookup name := by
  by_cases hdir : fs.isDir d = true
  · rw [follow, if_pos hdir, if_neg (not_or.mpr ⟨hempty, hdot⟩), if_neg hdotdot]
  · rw [follow, if_neg hdir]
    exact (AList.lookup_eq_none.mpr fun hmem => hdir (fs.entry_dir d name hmem)).symm

end FileSystem

theorem components_join (path rel : String) :
    components (path ++ "/" ++ rel) = components path ++ components rel := by
  rw [components, String.append_assoc, String.toList_append, String.toList_append]
  change ((path.toList ++ '/' :: rel.toList).splitOn '/').map String.ofList = _
  rw [List.splitOn_append_cons_self, List.map_append]
  rfl

/-- A path without a slash is one name. -/
theorem components_of_no_slash {path : String} (h : '/' ∉ path.toList) :
    components path = [path] := by
  rw [components, List.splitOn_eq_singleton h]
  simp

theorem isAbsolute_of_no_slash {path : String} (h : '/' ∉ path.toList) :
    isAbsolute path = false := by
  rw [isAbsolute, beq_eq_false_iff_ne]
  exact fun hhead => h (List.mem_of_mem_head? hhead)

theorem isAbsolute_append {path : String} (h : path ≠ "") (rel : String) :
    isAbsolute (path ++ rel) = isAbsolute path := by
  have hne : path.toList ≠ [] := fun hnil => h (String.toList_inj.mp hnil)
  rw [isAbsolute, isAbsolute, String.toList_append, List.head?_append_of_ne_nil _ hne]

theorem join_ne_empty {path rel : String} (hpath : path ≠ "") (hrel : isAbsolute rel = false) :
    join path rel ≠ "" := by
  rw [join, if_neg (by simp [hrel])]
  intro hempty
  apply hpath
  rw [← String.toList_inj] at hempty ⊢
  split_ifs at hempty <;> simp_all

/-- Only a trailing slash is saved when a relative path is joined. -/
theorem join_relative {path rel : String} (hpath : path ≠ "") (hrel : isAbsolute rel = false) :
    ∃ front, components (join path rel) = components front ++ components rel ∧
      isAbsolute (join path rel) = isAbsolute path ∧
      (front = path ∨ components path = components front ++ [""]) := by
  rw [join, if_neg (by simp [hrel])]
  by_cases hslash : path.toList.getLast? = some '/'
  · obtain ⟨cs, hcs⟩ := List.getLast?_eq_some_iff.mp hslash
    have hfront : path = String.ofList cs ++ "/" ++ "" := by
      rw [← String.toList_inj]
      simp [hcs]
    refine ⟨String.ofList cs, ?_, ?_, .inr ?_⟩
    · rw [if_pos (.inr hslash), ← components_join]
      simp [hfront]
    · rw [if_pos (.inr hslash), isAbsolute_append hpath]
    · rw [hfront, components_join]
      rfl
  · refine ⟨path, ?_, ?_, .inl rfl⟩
    · rw [if_neg (not_or.mpr ⟨hpath, hslash⟩), components_join]
    · rw [if_neg (not_or.mpr ⟨hpath, hslash⟩), String.append_assoc, isAbsolute_append hpath]

/-- What is joined to a path is resolved from where that leads. -/
theorem FileSystem.resolve_join {Node : Type} {fs : FileSystem Node} {path rel : String} {d : Node}
    (hpath : fs.resolve path = some d) (hrel : isAbsolute rel = false) :
    fs.resolve (join path rel) = fs.walk d (components rel) := by
  have hne : path ≠ "" := fun hempty => by
    rw [resolve, if_pos hempty] at hpath
    cases hpath
  obtain ⟨front, hjoin, habs, hfront⟩ := join_relative hne hrel
  have hjoined := join_ne_empty hne hrel
  rw [resolve, if_neg hne] at hpath
  rw [resolve, if_neg hjoined, habs, hjoin, walk_append]
  have hreached : fs.walk (if isAbsolute path then fs.root else fs.cwd) (components front) =
      some d := by
    obtain rfl | hslash := hfront
    · exact hpath
    · rw [hslash, walk_append] at hpath
      obtain ⟨d', hd', hlast⟩ := Option.bind_eq_some_iff.mp hpath
      rw [walk_one] at hlast
      rwa [← follow_empty hlast]
  rw [hreached]
  rfl

end FilePaths
