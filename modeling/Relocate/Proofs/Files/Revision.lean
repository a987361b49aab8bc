import Relocate.Files.Revision
import Relocate.Proofs.Interchange.Lines
import Relocate.Proofs.Interchange.RoundTrip
import Relocate.Proofs.Report.Findings
import Relocate.Proofs.Source.Lines
import Relocate.Proofs.Text.Encoding

/-!
# What is read from files

A text that was stored is read again, and the lines of a revision have 64 bits if the size of its
file has. The path of a revision has a file name, since it has an extension.
-/

set_option autoImplicit false

namespace Relocate.Files

open Relocate.Text Relocate.Number

variable {files : Lookup} {path text : String} {file : SourceFile}

def Sized (files : Lookup) (path : String) : Prop :=
  ∀ bytes, files path = .ok bytes → bytes.length < unsignedLimit

theorem readText_of_stored (h : files path = .ok text.toUTF8.toList) :
    readText files path = .ok text := by
  simp only [readText, h, Symbols.ofBytes_toUTF8]
  rw [Symbols.ofString, Symbols.chars?_ofChars]
  simp

theorem readReport_of_stored (h : files path = .ok text.toUTF8.toList) :
    readReport files path = Report.read text := by
  simp only [readReport, readBytes, h, Except.mapError, Except.bind, Report.readBytes, Report.read,
    Symbols.ofBytes_toUTF8]

theorem length_of_readText {bytes : Bytes} (hbytes : files path = .ok bytes)
    (h : readText files path = .ok text) : text.toList.length ≤ bytes.length := by
  simp only [readText, hbytes] at h
  split at h
  · rename_i cs hcs
    cases h
    have hsymbols := Symbols.eq_ofChars_of_chars? hcs
    have hlength := Symbols.length_ofBytes_le bytes
    rw [hsymbols, Symbols.ofChars, List.length_map] at hlength
    rwa [String.toList_ofList]
  · cases h

theorem exists_of_readText (h : readText files path = .ok text) :
    ∃ bytes, files path = .ok bytes := by
  unfold readText at h
  split at h
  · cases h
  · rename_i bytes hbytes
    exact ⟨bytes, hbytes⟩

theorem within_parse {format : Format} (hlength : text.toList.length < unsignedLimit)
    (h : format.parse text = .ok file) : file.root.Within unsignedLimit := by
  cases format with
  | source =>
    simp only [Format.parse] at h
    split at h
    · rename_i root hroot
      cases h
      have hcount : text.toList.count '\n' ≤ text.toList.length := List.count_le_length
      intro u hu
      have hline := Source.within_read hroot u hu
      simp only at hline ⊢
      omega
    · cases h
  | document =>
    obtain ⟨root, hroot, rfl⟩ := eq_of_map_eq_ok h
    exact Interchange.within_ofSymbols hroot

theorem within_readRevision (hsize : Sized files path) (h : readRevision files path = .ok file) :
    file.root.Within unsignedLimit := by
  unfold readRevision at h
  split at h
  · obtain ⟨text, htext, hparse⟩ := eq_of_bind_eq_ok h
    obtain ⟨bytes, hbytes⟩ := exists_of_readText htext
    have hlength := length_of_readText hbytes htext
    exact within_parse (Nat.lt_of_le_of_lt hlength (hsize bytes hbytes)) hparse
  · cases h

theorem exists_fileName? (h : readRevision files path = .ok file) :
    ∃ name, fileName? path = some name := by
  cases hname : fileName? path with
  | some name => exact ⟨name, rfl⟩
  | none =>
    have hformat : Format.ofPath? path = none := by simp [Format.ofPath?, extension?, hname]
    simp [readRevision, hformat] at h

theorem tidy_of_readReport {report : List Finding} (h : readReport files path = .ok report) :
    ∀ f ∈ report, f.Tidy := by
  obtain ⟨bytes, -, h⟩ := eq_of_bind_eq_ok h
  exact Report.tidy_of_ofStream h

theorem readRevision_of_printed {t : Ast} (hpath : Format.ofPath? path = some .document)
    (h : files path = .ok (Interchange.print t).toUTF8.toList) (ht : t.Within unsignedLimit) :
    readRevision files path = .ok { root := t } := by
  simp only [readRevision, hpath, readText_of_stored h, Except.bind, Format.parse]
  rw [Interchange.read_print ht]
  rfl

end Relocate.Files
