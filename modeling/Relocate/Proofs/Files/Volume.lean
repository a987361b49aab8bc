import Mathlib.Tactic.SplitIfs
import Relocate.Files.Volume
import Relocate.Proofs.Results

/-!
# Writing and reading files

What is written to a path is read from it. Storing a file takes no directory away, so a path that
could be followed before leads to the same spot afterwards.
-/

set_option autoImplicit false

namespace Relocate.Files.Volume

variable (v : Volume) (stored : List String) (content : Bytes)

theorem map_path_prefix_put :
    v.files.map StoredFile.path <+: (v.put stored content).files.map StoredFile.path := by
  unfold put
  split
  · have hpath : ∀ f : StoredFile,
        (if f.path = stored then { f with content } else f).path = f.path := by
      intro f
      split <;> rfl
    simp [Function.comp_def, hpath]
  · simp

theorem isDirectory_iff {names : List String} : v.isDirectory names = true ↔
    names = [] ∨ ∃ f ∈ v.files, names <+: f.path ∧ names.length < f.path.length := by
  simp [isDirectory]

theorem isDirectory_put {names : List String} (h : v.isDirectory names = true) :
    (v.put stored content).isDirectory names = true := by
  rw [isDirectory_iff] at h ⊢
  cases h with
  | inl h => exact Or.inl h
  | inr h =>
    obtain ⟨f, hf, hbelow⟩ := h
    have hpath := (map_path_prefix_put v stored content).subset (List.mem_map_of_mem hf)
    obtain ⟨g, hg, hsame⟩ := List.mem_map.1 hpath
    exact Or.inr ⟨g, hg, hsame ▸ hbelow⟩

section

variable {v}

theorem enter_put {spot after : Spot} {part : String} (h : v.enter spot part = .ok after) :
    (v.put stored content).enter spot part = .ok after := by
  cases spot with
  | outside => exact h
  | inside names =>
    by_cases hdirectory : v.isDirectory names = true
    · simp only [enter, hdirectory, isDirectory_put v stored content hdirectory] at h ⊢
      exact h
    · simp [enter, hdirectory] at h

theorem follow_cons (part : String) (ps : List String) (spot : Spot) :
    v.follow (part :: ps) spot = (v.enter spot part).bind (v.follow ps) :=
  List.foldlM_cons

theorem follow_append (ps qs : List String) (spot : Spot) :
    v.follow (ps ++ qs) spot = (v.follow ps spot).bind (v.follow qs) :=
  List.foldlM_append

theorem follow_put {ps : List String} {spot after : Spot} (h : v.follow ps spot = .ok after) :
    (v.put stored content).follow ps spot = .ok after := by
  induction ps generalizing spot with
  | nil => exact h
  | cons part ps ih =>
    rw [follow_cons] at h ⊢
    obtain ⟨next, hnext, h⟩ := eq_of_bind_eq_ok h
    rw [enter_put stored content hnext]
    exact ih h

end

theorem eq_of_withoutEnd {ps qs : List String} (h : withoutEnd ps = (qs, false)) : qs = ps := by
  simp only [withoutEnd, Prod.mk.injEq] at h
  obtain ⟨rfl, hend⟩ := h
  cases hlast : ps.getLast? with
  | none => simp_all
  | some last =>
    obtain ⟨front, rfl⟩ := List.getLast?_eq_some_iff.1 hlast
    simp_all

/-- The way to a file that can be written: an existing directory, and a name in it. -/
structure Leads (path : String) (directory : List String) (name : String) : Prop where
  sound : pathFault? path = none
  parts : ∃ front, Files.parts path = front ++ [name] ∧
    v.follow front (start path) = .ok (.inside directory)
  isDirectory : v.isDirectory directory = true
  isName : isName name = true
  fits : name.utf8ByteSize ≤ maxName

theorem leads_of_target {v : Volume} {path : String} {names : List String}
    (h : v.target path = .ok names) :
    ∃ directory name, v.Leads path directory name ∧ names = directory ++ [name] := by
  unfold target at h
  split at h
  · cases h
  · rename_i hsound
    generalize hparts : withoutEnd (parts path) = ends at h
    obtain ⟨ps, isSlashed⟩ := ends
    obtain ⟨spot, hfollow, h⟩ := eq_of_bind_eq_ok h
    cases spot with
    | outside => cases h
    | inside directory =>
      simp only at h
      split_ifs at h with hdirectory hend hlong hoccupied
      cases h
      simp only [Bool.or_eq_true, Bool.not_eq_true', not_or, Bool.not_eq_false,
        Bool.not_eq_true] at hdirectory hend
      rw [hend.1] at hparts
      cases hlast : ps.getLast? with
      | none => simp [hlast, isName, isIdle] at hend
      | some name =>
        obtain ⟨front, rfl⟩ := List.getLast?_eq_some_iff.1 hlast
        rw [List.dropLast_concat] at hfollow
        simp only [hlast, Option.getD_some] at hend hlong ⊢
        exact ⟨directory, name, ⟨hsound, ⟨front, (eq_of_withoutEnd hparts).symm, hfollow⟩,
          hdirectory, hend.2, Nat.le_of_not_lt hlong⟩, rfl⟩

theorem enter_of_isName {v : Volume} {directory : List String} {name : String}
    (hdirectory : v.isDirectory directory = true) (hname : isName name = true)
    (hfits : name.utf8ByteSize ≤ maxName) :
    v.enter (.inside directory) name = .ok (.inside (directory ++ [name])) := by
  simp only [isName, Bool.and_eq_true, Bool.not_eq_true', bne_iff_ne, ne_eq] at hname
  simp [enter, hdirectory, hname, Nat.not_lt.2 hfits]

theorem Leads.locate_put {v : Volume} {path : String} {directory : List String} {name : String}
    (h : v.Leads path directory name) (stored : List String) (content : Bytes) :
    (v.put stored content).locate path = .ok (.inside (directory ++ [name])) := by
  obtain ⟨front, hparts, hfollow⟩ := h.parts
  have hdirectory := isDirectory_put v stored content h.isDirectory
  rw [locate, h.sound]
  simp only
  rw [hparts, follow_append, follow_put stored content hfollow]
  simp only [Except.bind, follow_cons, enter_of_isName hdirectory h.isName h.fits]
  rfl

theorem read_of_locate {v : Volume} {path : String} {names : List String} {content : Bytes}
    (hlocate : v.locate path = .ok (.inside names)) (hcontent : v.content? names = some content) :
    v.read path = .ok content := by
  rw [read, hlocate]
  simp only [Except.bind, hcontent]

theorem read_of_write {v after : Volume} {path : String} {content : Bytes}
    (h : v.write path content = .ok after) : after.read path = .ok content := by
  obtain ⟨names, htarget, rfl⟩ := eq_of_map_eq_ok h
  obtain ⟨directory, name, hleads, rfl⟩ := leads_of_target htarget
  exact read_of_locate (hleads.locate_put _ content) (by simp [content?_put])

end Relocate.Files.Volume
