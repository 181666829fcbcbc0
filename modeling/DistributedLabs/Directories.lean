import Mathlib.Data.List.AList

/-!
# Directories

A directory is a finite map from names to files, and a file is the list of what was
written to it. Renaming moves a file over another one.
-/

namespace DistributedLabs.Directories

/-- A directory of files to which chunks of type `C` are written. -/
abbrev Dir (N C : Type) := AList fun _ : N => List C

namespace Dir
variable {N C : Type} [DecidableEq N] (d : Dir N C) {a b n : N} {file : List C}

/-- Creating a file that exists truncates it. -/
def create (a : N) : Dir N C := d.insert a []

def append (a : N) (chunk : C) : Dir N C :=
  match d.lookup a with
  | none => d
  | some file => d.insert a (file ++ [chunk])

def rename (a b : N) : Dir N C :=
  match d.lookup a with
  | none => d
  | some file => AList.insert b file (AList.erase a d)

def remove (a : N) : Dir N C := AList.erase a d

variable {d}

theorem lookup_insert_cases (a n : N) (file : List C) :
    (AList.insert a file d).lookup n = if n = a then some file else d.lookup n := by
  split_ifs with h
  · rw [h, AList.lookup_insert]
  · rw [AList.lookup_insert_ne h]

theorem lookup_create (a n : N) :
    (d.create a).lookup n = if n = a then some [] else d.lookup n := lookup_insert_cases a n []

theorem lookup_append (h : d.lookup a = some file) (chunk : C) (n : N) :
    (d.append a chunk).lookup n = if n = a then some (file ++ [chunk]) else d.lookup n := by
  rw [append, h]
  exact lookup_insert_cases a n _

theorem lookup_remove (a n : N) :
    (d.remove a).lookup n = if n = a then none else d.lookup n := by
  split_ifs with h
  · rw [h, remove, AList.lookup_erase]
  · rw [remove, AList.lookup_erase_ne h]

theorem lookup_rename (h : d.lookup a = some file) (n : N) :
    (d.rename a b).lookup n =
      if n = b then some file else if n = a then none else d.lookup n := by
  rw [rename, h]
  simp only [lookup_insert_cases]
  split_ifs with hb ha
  · rfl
  · rw [ha, AList.lookup_erase]
  · rw [AList.lookup_erase_ne ha]

theorem mem_keys_iff : n ∈ d.keys ↔ ∃ file, d.lookup n = some file := by
  rw [← AList.mem_keys, ← AList.lookup_isSome, Option.isSome_iff_exists]

end Dir
end DistributedLabs.Directories
