import Relocate.Proofs.Markup.Tags

/-!
# Texts of attributes

No two attributes of a tag have one name, so a name stands for at most one text: the value of its
attribute with the references replaced.
-/

set_option autoImplicit false

namespace Relocate.Markup

open Relocate.Text

def Attribute.text? (a : Attribute) : Option String :=
  (Symbols.chars? a.value).bind fun cs => (unescape cs).toOption.map String.ofList

def textOf? (as : List Attribute) (name : String) : Option String :=
  (as.find? fun a => a.name == Symbols.ofString name).bind Attribute.text?

def StartTag.text? (t : StartTag) (name : String) : Option String :=
  textOf? t.attributes.attributes name

section

variable {a : Attribute} {as : List Attribute} {name : String}

theorem textOf?_cons_of_eq (h : a.name = Symbols.ofString name) :
    textOf? (a :: as) name = a.text? := by
  simp [textOf?, h]

theorem textOf?_cons_of_ne (h : a.name ≠ Symbols.ofString name) :
    textOf? (a :: as) name = textOf? as name := by
  simp [textOf?, h]

theorem textOf?_eq_none (h : Symbols.ofString name ∉ as.map Attribute.name) :
    textOf? as name = none := by
  have hfind : (as.find? fun a => a.name == Symbols.ofString name) = none := by
    rw [List.find?_eq_none]
    intro a ha heq
    exact h (eq_of_beq heq ▸ List.mem_map_of_mem ha)
  rw [textOf?, hfind]
  rfl

end

namespace AttributeList

theorem positionOf?_concat {name other : List Symbol} {seen : List (List Symbol × Nat)}
    {position : Nat} (h : positionOf? name (seen ++ [(other, position)]) = none) :
    positionOf? name seen = none ∧ name ≠ other := by
  simp only [positionOf?, Option.map_eq_none_iff, List.find?_append, Option.or_eq_none_iff] at h
  refine ⟨by rw [positionOf?, h.1]; rfl, ?_⟩
  rintro rfl
  simp at h

theorem nodup_readFrom (total : Nat) (seen : List (List Symbol × Nat)) (c : Cursor) :
    ((readFrom total seen c).attributes.map Attribute.name).Nodup ∧
      ∀ a ∈ (readFrom total seen c).attributes, positionOf? a.name seen = none := by
  fun_induction readFrom total seen c with
  | case1 => simp
  | case2 => simp [failed]
  | case3 => simp [failed]
  | case4 => simp [failed]
  | case5 seen c start _ name equals _ hseen value next _ ih =>
    obtain ⟨hnodup, hbehind⟩ := ih
    have hlater := fun a ha => positionOf?_concat (hbehind a ha)
    refine ⟨List.nodup_cons.2 ⟨fun hmem => ?_, hnodup⟩, List.forall_mem_cons.2
      ⟨hseen, fun a ha => (hlater a ha).1⟩⟩
    obtain ⟨a, ha, heq⟩ := List.mem_map.1 hmem
    exact (hlater a ha).2 heq

end AttributeList

theorem StartTag.nodup_names (t : StartTag) :
    (t.attributes.attributes.map Attribute.name).Nodup :=
  (AttributeList.nodup_readFrom _ _ _).1

end Relocate.Markup
