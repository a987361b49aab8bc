import Relocate.Proofs.Report.Spelling

/-!
# Independent entries

What one part of a report says does not depend on the parts before it: content behind other content
gives the findings that it gives alone. Text between elements gives nothing.
-/

set_option autoImplicit false

namespace Relocate.Report

open Relocate.Text Relocate.Markup

def report (content : String) : String := "<mutations>" ++ content ++ "</mutations>"

/-- Whole elements of any kind, with text, references and asides. -/
def IsContent (content : String) : Prop := Stream.Spans [] (Symbols.ofString content) []

instance (content : String) : Decidable (IsContent content) :=
  inferInstanceAs (Decidable (Stream.Spans _ _ _))

namespace State

theorem read_report (content : String) :
    read (report content) = (resume { seenRoot := true } [Symbols.ofString "mutations"]
      (Symbols.ofString content ++ Symbols.ofString "</mutations>")).bind finish := by
  have hfront : Opens "<mutations>" [Symbols.ofString "mutations"] := by decide +kernel
  have hbehind : State.behind "<mutations>" = .ok { seenRoot := true } := by decide +kernel
  rw [report, String.append_assoc, read_append hfront (.inl (by decide)), hbehind,
    Symbols.ofString_append]
  rfl

/-- Behind content no mutation is being read, so what follows is read as if it came first. -/
theorem follows_after {content : String} (h : IsContent content) {s : State}
    (hs : ({ seenRoot := true } : State).after (Symbols.ofString content) = .ok s)
    (opened : List (List Symbol)) : Follows s.found opened { seenRoot := true } s := by
  have henclosed : s.Enclosed [] := (Enclosed.of_none rfl).foldlM h.opens hs
  have hroot : s.seenRoot = true :=
    foldlM_invariant (P := fun s : State => s.seenRoot = true)
      (fun _ _ _ hroot hstep => seenRoot_step hstep hroot) rfl hs
  have hcurrent : s.current = none := by
    cases hcurrent : s.current with
    | none => rfl
    | some d => cases henclosed.element (by rw [hcurrent]; rfl)
  exact ⟨rfl, hroot, hcurrent, .inl rfl⟩

theorem follows_addText (s : State) (cs : List Char) {name : List Symbol}
    (hname : name ∉ fieldNames.map Symbols.ofString) (outer : List (List Symbol)) :
    Follows [] (name :: outer) s (s.addText cs) := by
  refine ⟨(List.append_nil _).symm, rfl, rfl, .inr (.inl fun n hn => ?_)⟩
  cases hn
  exact hname

end State

theorem read_report_append {first : String} (h : IsContent first) (second : String) :
    read (report (first ++ second)) =
      (read (report first)).bind fun fs => (read (report second)).map (fs ++ ·) := by
  have hfront : ∀ rest, read (report (first ++ rest)) =
      (({ seenRoot := true } : State).after (Symbols.ofString first)).bind fun s =>
        (read (report rest)).map (s.found.reverse ++ ·) := by
    intro rest
    have hlegible : Legible (Symbols.ofString rest ++ Symbols.ofString "</mutations>") :=
      (legible_ofString "</mutations>").append rest.toList
    have hresume : State.resume { seenRoot := true } [Symbols.ofString "mutations"]
        (Symbols.ofString first ++ (Symbols.ofString rest ++ Symbols.ofString "</mutations>")) =
          (({ seenRoot := true } : State).after (Symbols.ofString first)).bind fun s =>
            s.resume [Symbols.ofString "mutations"]
              (Symbols.ofString rest ++ Symbols.ofString "</mutations>") :=
      State.resume_append (h.under [Symbols.ofString "mutations"]) hlegible _
    rw [State.read_report, Symbols.ofString_append, List.append_assoc, hresume,
      State.read_report rest]
    cases hs : State.after { seenRoot := true } (Symbols.ofString first) with
    | error e => rfl
    | ok s => exact (State.follows_after h hs _).resume _
  have hnothing : read (report "") = .ok [] := by decide +kernel
  have hfirst := hfront ""
  rw [String.append_empty, hnothing] at hfirst
  rw [hfront second, hfirst]
  cases State.after { seenRoot := true } (Symbols.ofString first) with
  | error e => rfl
  | ok s => simp [Except.bind, Except.map]

theorem read_insert_text {front : String} {name : List Symbol} {outer : List (List Symbol)}
    (h : Opens front (name :: outer)) (hname : name ∉ fieldNames.map Symbols.ofString)
    (ps : List TextPiece) (back : String) :
    read (front ++ String.ofList (TextPiece.writtenAll ps) ++ back) = read (front ++ back) := by
  have hne := h.ne_empty
  rw [String.append_assoc, read_append h (.inl hne), read_append h (.inl hne),
    Symbols.ofString_append, Symbols.ofString_ofList]
  refine congrArg _ (funext fun s => ?_)
  rw [s.resume_pieces _ (legible_ofString back) ps,
    (s.follows_addText _ hname outer).resume_of_nil]

/-- Content behind other content adds the findings that it has alone, unless there is an error
before it. Text directly inside an element that holds others is passed over. -/
theorem read_independent :
    (∀ first second : String, IsContent first → read (report (first ++ second)) =
      (read (report first)).bind fun fs => (read (report second)).map (fs ++ ·)) ∧
    ∀ (name front : String) (outer : List (List Symbol)),
      name ∈ ["mutations", "mutation", "indexes", "blocks"] →
      Opens front (Symbols.ofString name :: outer) → ∀ (ps : List TextPiece) (back : String),
        read (front ++ String.ofList (TextPiece.writtenAll ps) ++ back) = read (front ++ back) := by
  refine ⟨fun _ second h => read_report_append h second, fun name front outer hname h => ?_⟩
  refine read_insert_text h ?_
  intro hfield
  obtain ⟨other, hother, heq⟩ := List.mem_map.1 hfield
  rw [← Symbols.ofString_inj.1 heq] at hname
  have hdisjoint : ∀ n ∈ fieldNames, n ∉ ["mutations", "mutation", "indexes", "blocks"] := by
    decide
  exact hdisjoint other hother hname

def bareEntry : String :=
  "a<mutation>b<sourceFile></sourceFile><mutatedClass></mutatedClass><mutatedMethod>" ++
    "</mutatedMethod><methodDescription></methodDescription><mutator></mutator>" ++
    "<lineNumber>1</lineNumber></mutation>c"

theorem read_independent_doubled :
    read (report (bareEntry ++ bareEntry)) = .ok [{ line := 1 }, { line := 1 }] ∧
    read ("<mutations>" ++ String.ofList (TextPiece.writtenAll mixedPieces) ++
      (bareEntry ++ "</mutations>")) = .ok [{ line := 1 }] := by
  have hone : read (report bareEntry) = .ok [{ line := 1 }] := by decide +kernel
  have hcontent : IsContent bareEntry := by decide +kernel
  have hfront : Opens "<mutations>" [Symbols.ofString "mutations"] := by decide +kernel
  constructor
  · rw [read_independent.1 _ _ hcontent, hone]
    rfl
  · rw [read_independent.2 "mutations" _ [] (by decide) hfront, ← String.append_assoc]
    exact hone

end Relocate.Report
