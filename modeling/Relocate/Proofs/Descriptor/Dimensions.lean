import Relocate.Proofs.Descriptor.Erased
import Relocate.Text.Blank

/-!
# The dimensions of a type

Dimensions are written as pairs of brackets, with white space and comments anywhere between them. A
descriptor gets one bracket for every opening bracket in the text of a node for dimensions, which
are as many unless a comment holds a bracket itself. A node with annotations between the brackets
has no text, so nothing is written there for a descriptor to count.
-/

set_option autoImplicit false

namespace Relocate.Descriptor

/-! ## Pairs of brackets -/

/-- White space and comments, no opening bracket in them. -/
inductive Gap : List Char → Prop where
  | nil : Gap []
  | blank {c : Char} {rest : List Char} : Text.isBlank c → Gap rest → Gap (c :: rest)
  | block {body rest : List Char} : '[' ∉ body → ¬['*', '/'] <:+: body → Gap rest →
      Gap ('/' :: '*' :: (body ++ '*' :: '/' :: rest))
  | line {body rest : List Char} : '[' ∉ body → '\n' ∉ body → Gap rest →
      Gap ('/' :: '/' :: (body ++ '\n' :: rest))

inductive Brackets : Nat → List Char → Prop where
  | done {gap : List Char} : Gap gap → Brackets 0 gap
  | pair {n : Nat} {front inner rest : List Char} : Gap front → Gap inner → Brackets n rest →
      Brackets (n + 1) (front ++ '[' :: (inner ++ ']' :: rest))

theorem Gap.bracket_not_mem {cs : List Char} (h : Gap cs) : '[' ∉ cs := by
  induction h with
  | nil => exact List.not_mem_nil
  | @blank c rest hblank _ ih =>
    have hc : '[' ≠ c := by
      rintro rfl
      exact absurd hblank (by decide)
    simp [hc, ih]
  | block hbody _ _ ih => simp [hbody, ih]
  | line hbody _ _ ih => simp [hbody, ih]

theorem Brackets.count {n : Nat} {cs : List Char} (h : Brackets n cs) : cs.count '[' = n := by
  induction h with
  | done hgap => exact List.count_eq_zero.2 hgap.bracket_not_mem
  | pair hfront hinner _ ih =>
    have hzero : ∀ {gap : List Char}, Gap gap → gap.count '[' = 0 :=
      fun h => List.count_eq_zero.2 h.bracket_not_mem
    simp [List.count_append, hzero hfront, hzero hinner, ih]

/-- So many dimensions are written in a place for them. -/
inductive DimensionsOf : Option Ast → Nat → Prop where
  | none : DimensionsOf none 0
  | some {d : Ast} {n : Nat} : 0 < n → Brackets n d.text.toList → DimensionsOf (some d) n

/-- So many dimensions are written in the array types that a type is made of, any type arguments
left aside. -/
inductive TypeDimensions : Ast → Nat → Prop where
  | array {t element : Ast} {n m : Nat} : t.kind = "array_type" →
      t.childByField? "element" = some element → DimensionsOf (t.childByField? "dimensions") n →
      TypeDimensions element m → TypeDimensions t (n + m)
  | annotated {t inner : Ast} {n : Nat} : t.kind = "annotated_type" →
      t.children.reverse.find? (fun c => Kinds.isTypeUse c.kind) = some inner →
      TypeDimensions inner n → TypeDimensions t n
  | other {t : Ast} : t.kind ≠ "array_type" → t.kind ≠ "annotated_type" → TypeDimensions t 0

/-! ## Opening brackets -/

def pairs (dimensions : Option Ast) : Nat :=
  match dimensions with
  | some d => d.text.toList.count '['
  | none => 0

theorem DimensionsOf.eq_pairs {dimensions : Option Ast} {n : Nat} (h : DimensionsOf dimensions n) :
    n = pairs dimensions := by
  cases h with
  | none => rfl
  | some _ h => exact h.count.symm

def opening (n : Nat) : String := String.ofList (List.replicate n '[')

theorem arrayPart_eq (dimensions : Option Ast) :
    arrayPart dimensions = opening (pairs dimensions) := by
  cases dimensions with
  | none => rfl
  | some d => rw [arrayPart, pairs, opening, List.filter_beq]

def arrayDepth (t : Ast) : Nat :=
  match t.kind with
  | "array_type" =>
    match _h : t.childByField? "element" with
    | some element => pairs (t.childByField? "dimensions") + arrayDepth element
    | none => 0
  | "annotated_type" =>
    match _h : t.children.reverse.find? (fun c => Kinds.isTypeUse c.kind) with
    | some inner => arrayDepth inner
    | none => 0
  | _ => 0
termination_by t.size
decreasing_by
  · exact t.size_lt_of_mem_children (Rose.mem_children_of_childByField? _h)
  · exact t.size_lt_of_mem_children (List.mem_reverse.1 (List.mem_of_find?_eq_some _h))

theorem arrayDepth_eq (t : Ast) : arrayDepth t =
    match t.kind with
    | "array_type" => (t.childByField? "element").elim 0 fun element =>
        pairs (t.childByField? "dimensions") + arrayDepth element
    | "annotated_type" =>
      (t.children.reverse.find? fun c => Kinds.isTypeUse c.kind).elim 0 arrayDepth
    | _ => 0 := by
  fun_cases arrayDepth t
  all_goals simp only [*, Option.elim_some, Option.elim_none]

theorem TypeDimensions.eq_arrayDepth {t : Ast} {n : Nat} (h : TypeDimensions t n) :
    n = arrayDepth t := by
  induction h with
  | array hkind helement hdimensions _ ih =>
    rw [arrayDepth_eq]
    simp only [hkind, helement, Option.elim_some, ih, hdimensions.eq_pairs]
  | annotated hkind hinner _ ih =>
    rw [arrayDepth_eq]
    simp only [hkind, hinner, Option.elim_some, ih]
  | other harray hannotated =>
    rw [arrayDepth_eq]
    split
    · exact absurd ‹_› harray
    · exact absurd ‹_› hannotated
    · rfl

theorem toList_brackets {t : Ast} {e : Erased} (h : erased? t = some e) :
    e.brackets.toList = List.replicate (arrayDepth t) '[' := by
  generalize hsize : t.size = size
  induction size using Nat.strongRecOn generalizing t e with
  | ind size ih =>
    have hchild : ∀ c ∈ t.children, ∀ e, erased? c = some e →
        e.brackets.toList = List.replicate (arrayDepth c) '[' := by
      intro c hc e he
      exact ih c.size (hsize ▸ t.size_lt_of_mem_children hc) he rfl
    rw [arrayDepth_eq]
    rw [erased?_eq] at h
    split at h
    case h_7 hkind =>
      obtain ⟨raw, hraw, he⟩ := Option.bind_eq_some_iff.1 h
      have hname : raw.kind = "type_identifier" ∨ raw.kind = "scoped_type_identifier" := by
        simpa [isRawType] using List.find?_some hraw
      rw [hchild raw (List.mem_of_find?_eq_some hraw) e he, arrayDepth_eq]
      rcases hname with hname | hname <;> simp only [hkind, hname] <;> rfl
    case h_8 hkind =>
      obtain ⟨element, helement, hmap⟩ := Option.bind_eq_some_iff.1 h
      obtain ⟨inner, hinner, rfl⟩ := Option.map_eq_some_iff.1 hmap
      simp only [hkind, helement, Option.elim_some, Erased.under, String.toList_append,
        arrayPart_eq, opening, String.toList_ofList, List.replicate_add,
        hchild element (Rose.mem_children_of_childByField? helement) inner hinner]
    case h_9 hkind =>
      obtain ⟨inner, hinner, he⟩ := Option.bind_eq_some_iff.1 h
      simp only [hkind, hinner, Option.elim_some,
        hchild inner (List.mem_reverse.1 (List.mem_of_find?_eq_some hinner)) e he]
    case h_10 => cases h
    all_goals
      rename_i hkind
      cases h
      simp only [hkind]
      rfl

end Relocate.Descriptor
