import Relocate.Interchange.Reader
import Relocate.Proofs.Markup.Attributes
import Relocate.Proofs.Results

/-!
# Tags that describe nodes

A tag is read as a node exactly if it has the right name, its attributes are well formed, all their
values are texts, one of them is the kind and the line is a number if there is one. The node takes
the line of the nearest element around it that says one, beginning with its own.
-/

set_option autoImplicit false

namespace Relocate.Interchange

open Relocate.Text Relocate.Markup

structure IsNode (t : StartTag) : Prop where
  name : t.name = Symbols.ofString "tree"
  attributes : t.attributes.fault = none
  texts : ∀ a ∈ t.attributes.attributes, a.text?.isSome
  kind : (t.text? "kind").isSome
  line : ∀ text ∈ t.text? "line", (Number.readUnsigned? text.toList).isSome

instance (t : StartTag) : Decidable (IsNode t) :=
  decidable_of_iff (t.name = Symbols.ofString "tree" ∧ t.attributes.fault = none ∧
      (∀ a ∈ t.attributes.attributes, a.text?.isSome) ∧ (t.text? "kind").isSome ∧
        ∀ text ∈ t.text? "line", (Number.readUnsigned? text.toList).isSome)
    ⟨fun ⟨name, attributes, texts, kind, line⟩ => ⟨name, attributes, texts, kind, line⟩,
      fun h => ⟨h.name, h.attributes, h.texts, h.kind, h.line⟩⟩

def ownLine? (t : StartTag) : Option Nat :=
  (t.text? "line").bind fun text => Number.readUnsigned? text.toList

/-- The line of the nearest of some tags that says one, the innermost first. -/
def lineWithin (tags : List StartTag) : Nat := (tags.findSome? ownLine?).getD 1

def nodeOf (above : List StartTag) (t : StartTag) : Tag where
  kind := (t.text? "kind").getD ""
  value := t.text? "value"
  field := t.text? "field"
  line := lineWithin (t :: above)

/-! ### Reading attributes -/

theorem valueText_eq_ok_iff {a : Attribute} {text : String} :
    valueText a = .ok text ↔ a.text? = some text := by
  cases hchars : Symbols.chars? a.value with
  | none => simp [valueText, Attribute.text?, Symbols.decode, hchars]
  | some cs =>
    cases hun : unescape cs <;>
      simp [valueText, Attribute.text?, Symbols.decode, hchars, hun, Except.toOption]

namespace Draft

/-- Every attribute has a text, and that of the line is a number. -/
structure Readable (as : List Attribute) : Prop where
  texts : ∀ a ∈ as, a.text?.isSome
  line : ∀ text ∈ textOf? as "line", (Number.readUnsigned? text.toList).isSome

def withAll (d : Draft) (as : List Attribute) : Draft where
  kind := (textOf? as "kind").or d.kind
  value := (textOf? as "value").or d.value
  field := (textOf? as "field").or d.field
  line := ((textOf? as "line").bind fun text => Number.readUnsigned? text.toList).getD d.line

section

variable {a : Attribute} {as : List Attribute} {text : String} (htext : a.text? = some text)
  (hnew : a.name ∉ as.map Attribute.name)

include htext hnew

theorem readable_cons_iff : Readable (a :: as) ↔
    (a.name = Symbols.ofString "line" → (Number.readUnsigned? text.toList).isSome) ∧
      Readable as := by
  by_cases hline : a.name = Symbols.ofString "line"
  · have hrest : textOf? as "line" = none := textOf?_eq_none (hline ▸ hnew)
    constructor
    · intro h
      exact ⟨fun _ => h.line text (by rw [textOf?_cons_of_eq hline, htext]; rfl),
        fun b hb => h.texts b (List.mem_cons_of_mem a hb), by simp [hrest]⟩
    · intro ⟨hnumber, h⟩
      refine ⟨List.forall_mem_cons.2 ⟨by simp [htext], h.texts⟩, fun t ht => ?_⟩
      rw [textOf?_cons_of_eq hline, htext] at ht
      cases ht
      exact hnumber hline
  · constructor
    · intro h
      exact ⟨fun heq => absurd heq hline, fun b hb => h.texts b (List.mem_cons_of_mem a hb),
        textOf?_cons_of_ne hline ▸ h.line⟩
    · intro ⟨_, h⟩
      exact ⟨List.forall_mem_cons.2 ⟨by simp [htext], h.texts⟩,
        (textOf?_cons_of_ne hline).symm ▸ h.line⟩

theorem withAll_cons {d e : Draft} (h : d.set a.name text = .ok e) :
    d.withAll (a :: as) = e.withAll as := by
  have hnone : ∀ name, a.name = Symbols.ofString name → textOf? as name = none :=
    fun name heq => textOf?_eq_none (heq ▸ hnew)
  have hdiffer : ∀ m n : String, m ≠ n → a.name = Symbols.ofString m →
      textOf? (a :: as) n = textOf? as n := by
    intro m n hne heq
    refine textOf?_cons_of_ne fun h => hne (Symbols.ofString_inj.1 (heq.symm.trans h))
  -- one case for each name that an attribute of a node can have, and one for all others
  unfold set at h
  split at h
  · rename_i hname
    cases h
    simp [withAll, textOf?_cons_of_eq hname, htext, hnone _ hname,
      hdiffer _ "value" (by decide) hname, hdiffer _ "field" (by decide) hname,
      hdiffer _ "line" (by decide) hname]
  split at h
  · rename_i hname
    cases h
    simp [withAll, textOf?_cons_of_eq hname, htext, hnone _ hname,
      hdiffer _ "kind" (by decide) hname, hdiffer _ "field" (by decide) hname,
      hdiffer _ "line" (by decide) hname]
  split at h
  · rename_i hname
    cases h
    simp [withAll, textOf?_cons_of_eq hname, htext, hnone _ hname,
      hdiffer _ "kind" (by decide) hname, hdiffer _ "value" (by decide) hname,
      hdiffer _ "line" (by decide) hname]
  split at h
  · rename_i hname
    split at h
    · rename_i n hn
      cases h
      simp [withAll, textOf?_cons_of_eq hname, htext, hn, hnone _ hname,
        hdiffer _ "kind" (by decide) hname, hdiffer _ "value" (by decide) hname,
        hdiffer _ "field" (by decide) hname]
    · cases h
  · rename_i hkind hvalue hfield hline
    cases h
    simp [withAll, textOf?_cons_of_ne hkind, textOf?_cons_of_ne hvalue, textOf?_cons_of_ne hfield,
      textOf?_cons_of_ne hline]

end

theorem exists_set_iff {d : Draft} {name : List Symbol} {text : String} :
    (∃ e, d.set name text = .ok e) ↔
      (name = Symbols.ofString "line" → (Number.readUnsigned? text.toList).isSome) := by
  by_cases hline : name = Symbols.ofString "line"
  · subst hline
    cases hnumber : Number.readUnsigned? text.toList <;>
      simp [set, hnumber, Symbols.ofString_inj]
  · simp only [set, hline, if_false, false_implies, iff_true]
    split_ifs <;> exact ⟨_, rfl⟩

end Draft

theorem foldlM_readAttribute {as : List Attribute} (hnames : (as.map Attribute.name).Nodup)
    {d d' : Draft} :
    as.foldlM readAttribute d = .ok d' ↔ Draft.Readable as ∧ d' = d.withAll as := by
  induction as generalizing d with
  | nil =>
    have hreadable : Draft.Readable [] := ⟨List.forall_mem_nil _, fun _ h => by cases h⟩
    have hnone : d.withAll [] = d := rfl
    simp only [List.foldlM_nil, hreadable, true_and, hnone]
    exact ⟨fun h => by cases h; rfl, fun h => by rw [h]; rfl⟩
  | cons a as ih =>
    obtain ⟨hnew, hnames⟩ := List.nodup_cons.1 hnames
    rw [List.foldlM_cons]
    cases htext : a.text? with
    | none =>
      constructor
      · intro h
        obtain ⟨e, he, -⟩ := eq_of_bind_eq_ok h
        obtain ⟨text, hvalue, -⟩ := eq_of_bind_eq_ok he
        rw [valueText_eq_ok_iff, htext] at hvalue
        cases hvalue
      · intro ⟨h, _⟩
        have hsome := h.texts a List.mem_cons_self
        rw [htext] at hsome
        cases hsome
    | some text =>
      have hread : readAttribute d a = d.set a.name text := by
        rw [readAttribute, valueText_eq_ok_iff.2 htext]
        rfl
      rw [Draft.readable_cons_iff htext hnew, hread]
      constructor
      · intro h
        obtain ⟨e, he, hrest⟩ := eq_of_bind_eq_ok h
        obtain ⟨hreadable, rfl⟩ := (ih hnames).1 hrest
        exact ⟨⟨Draft.exists_set_iff.1 ⟨e, he⟩, hreadable⟩,
          (Draft.withAll_cons htext hnew he).symm⟩
      · intro ⟨⟨hnumber, hreadable⟩, heq⟩
        obtain ⟨e, he⟩ := Draft.exists_set_iff.2 hnumber
        rw [he]
        exact (ih hnames).2 ⟨hreadable, heq.trans (Draft.withAll_cons htext hnew he)⟩

/-! ### Reading a tag -/

theorem lineWithin_cons (t : StartTag) (above : List StartTag) :
    lineWithin (t :: above) = (ownLine? t).getD (lineWithin above) := by
  cases h : ownLine? t <;> simp [lineWithin, h]

theorem Draft.tag_eq_ok_iff {d : Draft} {tag : Tag} :
    d.tag = .ok tag ↔ d.kind.isSome ∧
      tag = ⟨⟨d.kind.getD "", d.value⟩, d.field, d.line⟩ := by
  unfold Draft.tag
  cases d.kind with
  | none => simp
  | some kind => simp [eq_comm]

theorem readTag_eq_ok_iff {above : List StartTag} {t : StartTag} {tag : Tag} :
    readTag (lineWithin above) t = .ok tag ↔ IsNode t ∧ tag = nodeOf above t := by
  set d : Draft := { line := lineWithin above } with hd
  have hwhole : (⟨⟨(d.withAll t.attributes.attributes).kind.getD "",
      (d.withAll t.attributes.attributes).value⟩, (d.withAll t.attributes.attributes).field,
        (d.withAll t.attributes.attributes).line⟩ : Tag) = nodeOf above t := by
    simp only [Draft.withAll, hd, Option.or_none, nodeOf, lineWithin_cons]
    rfl
  have hkind : (d.withAll t.attributes.attributes).kind = t.text? "kind" := Option.or_none
  have hfold : ∀ e, t.attributes.attributes.foldlM readAttribute d = .ok e ↔
      Draft.Readable t.attributes.attributes ∧ e = d.withAll t.attributes.attributes :=
    fun e => foldlM_readAttribute t.nodup_names
  unfold readTag
  constructor
  · intro h
    split at h
    · rename_i hname
      obtain ⟨e, he, h⟩ := eq_of_bind_eq_ok h
      obtain ⟨hreadable, rfl⟩ := (hfold e).1 he
      split at h
      · cases h
      · rename_i hfault
        obtain ⟨hsome, rfl⟩ := Draft.tag_eq_ok_iff.1 h
        exact ⟨⟨StartTag.hasName_iff.1 hname, hfault, hreadable.texts, hkind ▸ hsome,
          hreadable.line⟩, hwhole⟩
    · cases h
  · intro ⟨hnode, heq⟩
    rw [if_pos (StartTag.hasName_iff.2 hnode.name), (hfold _).2 ⟨⟨hnode.texts, hnode.line⟩, rfl⟩]
    simp only [Except.bind, hnode.attributes]
    exact Draft.tag_eq_ok_iff.2 ⟨hkind ▸ hnode.kind, heq.trans hwhole.symm⟩

end Relocate.Interchange
