import Relocate.Proofs.Descriptor.Lines
import Relocate.Proofs.Tree.Lines
import Relocate.Source.Tree

/-!
# What a syntax tree sees of the layout

Put between two tokens of a source, a comment or a blank moves the tokens behind it, and a comment
becomes an extra node somewhere in the concrete tree. Extras and places do not reach the syntax
tree, but the texts between two places do: those of dotted names, blanks left out, and those of
nodes that are left without children. The trees are the same exactly if nothing of it shows in these
texts.
-/

set_option autoImplicit false

namespace Relocate.Source

namespace Concrete

/-- Whether a node stands for one of the syntax tree where its parent keeps its children. -/
def isKept (c : Concrete) : Bool := c.label.isNamed && !c.label.isExtra

def takesText (c : Concrete) : Bool :=
  foldedKinds.contains c.label.kind ||
    (!operatorKinds.contains c.label.kind && !c.children.any isKept)

def visible (c : Concrete) (text : List Char) : List Char :=
  if foldedKinds.contains c.label.kind then Text.squeeze text else text

mutual
def converted : Rose ConcreteLabel → List (Rose ConcreteLabel)
  | .node l cs => .node l cs :: if foldedKinds.contains l.kind then [] else convertedAll cs

def convertedAll : List (Rose ConcreteLabel) → List (Rose ConcreteLabel)
  | [] => []
  | c :: cs => if isKept c then converted c ++ convertedAll cs else convertedAll cs
end

mutual
/-- The tree without its extras, and without any places but those where text is taken. -/
def settle (place : Extent → Extent) : Rose ConcreteLabel → Rose ConcreteLabel
  | .node l cs =>
    .node { l with extent := if takesText (.node l cs) then place l.extent else ⟨0, 0, 0⟩ }
      (settleAll place cs)

def settleAll (place : Extent → Extent) : List (Rose ConcreteLabel) → List (Rose ConcreteLabel)
  | [] => []
  | c :: cs =>
    if c.label.isNamed && c.label.isExtra then settleAll place cs
    else settle place c :: settleAll place cs
end

def unlined (e : Extent) : Extent := { e with line := 0 }

/-- A node that takes its text has the same value at its place and, in another text, where that
place is moved to. -/
def SameText (source result : Array Char) (place : Extent → Extent) (c : Concrete) : Prop :=
  takesText c = true →
    visible c (slice result (place c.label.extent)) = visible c (slice source c.label.extent)

section Settle

variable {source result : Array Char} {place : Extent → Extent}
variable {l : ConcreteLabel} {cs : List Concrete}

theorem label_settle (c : Concrete) : (settle place c).label =
    { c.label with extent := if takesText c then place c.label.extent else ⟨0, 0, 0⟩ } := by
  cases c
  rfl

theorem isKept_settle (c : Concrete) : isKept (settle place c) = isKept c := by
  rw [isKept, isKept, label_settle]

def tokenKinds (nodes : List Concrete) : List String :=
  (nodes.filter fun n => !n.label.isNamed).map fun n => n.label.kind

theorem tokenText?_eq (nodes : List Concrete) : tokenText? nodes =
    if (tokenKinds nodes).isEmpty then none
    else some (String.intercalate " " (tokenKinds nodes)) := by
  rw [tokenText?, tokenKinds]
  cases nodes.filter fun n => !n.label.isNamed <;> rfl

theorem tokenKinds_settleAll (cs : List Concrete) :
    tokenKinds (settleAll place cs) = tokenKinds cs := by
  simp only [tokenKinds]
  induction cs with
  | nil => rfl
  | cons c cs ih =>
    rw [settleAll]
    split
    · rename_i hextra
      rw [ih, List.filter_cons_of_neg]
      simp [(Bool.and_eq_true_iff.1 hextra).1]
    · by_cases hnamed : c.label.isNamed = true <;> simp [label_settle, hnamed, ih]

theorem tokenText?_settleAll (cs : List Concrete) :
    tokenText? (settleAll place cs) = tokenText? cs := by
  rw [tokenText?_eq, tokenText?_eq, tokenKinds_settleAll]

theorem any_isKept_settleAll (cs : List Concrete) :
    (settleAll place cs).any isKept = cs.any isKept := by
  induction cs with
  | nil => rfl
  | cons c cs ih =>
    rw [settleAll, List.any_cons]
    split
    · rename_i hextra
      obtain ⟨hnamed, hextra⟩ := Bool.and_eq_true_iff.1 hextra
      rw [ih, isKept, hnamed, hextra]
      rfl
    · rw [List.any_cons, ih, isKept_settle]

theorem isEmpty_toAstAll (source : Array Char) (cs : List Concrete) :
    (toAstAll source cs).isEmpty = !cs.any isKept := by
  induction cs with
  | nil => rfl
  | cons c cs ih =>
    rw [toAstAll, List.any_cons, ← isKept]
    by_cases hkept : isKept c = true
    · rw [if_pos hkept, hkept]
      rfl
    · rw [if_neg hkept, ih, Bool.eq_false_iff.2 hkept, Bool.false_or]

theorem toAst_of_folded (source : Array Char) (h : l.kind ∈ foldedKinds) :
    toAst source (.node l cs) =
      .node ⟨⟨l.kind, some (String.ofList (Text.squeeze (slice source l.extent)))⟩, l.field,
        l.extent.line⟩ [] := by
  simp [toAst, h]

theorem toAst_of_not_folded (source : Array Char) (h : l.kind ∉ foldedKinds) :
    toAst source (.node l cs) =
      .node ⟨⟨l.kind, valueOf source l cs (!cs.any isKept)⟩, l.field, l.extent.line⟩
        (toAstAll source cs) := by
  rw [← isEmpty_toAstAll source cs]
  simp [toAst, h]

theorem relined_node (f : Nat → Nat) (t : Tag) (ts : List Ast) :
    (Rose.node t ts).relined f = .node (t.relined f) (ts.map (Rose.relined f)) := by
  rw [Rose.relined, Rose.map, Rose.mapAll_eq_map]
  rfl

theorem sameText_of_folded (h : l.kind ∈ foldedKinds) :
    SameText source result place (.node l cs) ↔
      Text.squeeze (slice result (place l.extent)) = Text.squeeze (slice source l.extent) := by
  simp [SameText, takesText, visible, h]

theorem sameText_of_not_folded (h : l.kind ∉ foldedKinds) :
    SameText source result place (.node l cs) ↔
      (l.kind ∉ operatorKinds → cs.any isKept = false →
        slice result (place l.extent) = slice source l.extent) := by
  simp [SameText, takesText, visible, h]

theorem valueOf_settle_iff (h : l.kind ∉ foldedKinds) :
    valueOf result
        { l with extent := if takesText (.node l cs) then place l.extent else ⟨0, 0, 0⟩ }
        (settleAll place cs) (!(settleAll place cs).any isKept) =
      valueOf source l cs (!cs.any isKept) ↔ SameText source result place (.node l cs) := by
  rw [sameText_of_not_folded h]
  simp only [valueOf, tokenText?_settleAll, any_isKept_settleAll]
  by_cases hoperator : l.kind ∈ operatorKinds
  · simp [hoperator]
  · cases hleaf : cs.any isKept with
    | true => simp [hoperator]
    | false =>
      have htakes : takesText (.node l cs) = true := by
        rw [takesText, Rose.label_node, Rose.children_node, hleaf]
        simp [hoperator]
      simp [hoperator, htakes, String.ofList_inj]

mutual
/-- Lines aside, a syntax tree can be read off what is settled, over any text that has the texts
that are taken where they are then taken, and over no other. -/
theorem toAst_settle_iff (hline : ∀ e, (place e).line = 0) : (c : Concrete) →
    (toAst result (settle place c) = (toAst source c).relined (fun _ => 0) ↔
      ∀ n ∈ converted c, SameText source result place n)
  | .node l cs => by
    have hplace : (if takesText (.node l cs) then place l.extent else ⟨0, 0, 0⟩).line = 0 := by
      split
      · exact hline _
      · rfl
    by_cases hfolded : l.kind ∈ foldedKinds
    · have htakes : takesText (.node l cs) = true := by simp [takesText, hfolded]
      rw [settle, toAst_of_folded result (by exact hfolded), toAst_of_folded source hfolded,
        relined_node]
      simp [converted, hfolded, sameText_of_folded, htakes, hline, Tag.relined, String.ofList_inj]
    · rw [settle, toAst_of_not_folded result (by exact hfolded), toAst_of_not_folded source hfolded,
        relined_node]
      simp [converted, hfolded, Tag.relined, hplace, ← toAstAll_settleAll_iff hline cs,
        ← valueOf_settle_iff hfolded]

theorem toAstAll_settleAll_iff (hline : ∀ e, (place e).line = 0) : (cs : List Concrete) →
    (toAstAll result (settleAll place cs) = (toAstAll source cs).map (Rose.relined fun _ => 0) ↔
      ∀ n ∈ convertedAll cs, SameText source result place n)
  | [] => by simp [toAstAll, settleAll, convertedAll]
  | c :: cs => by
    have hrest := toAstAll_settleAll_iff hline cs
    rw [settleAll, toAstAll, convertedAll, ← isKept]
    by_cases hextra : (c.label.isNamed && c.label.isExtra) = true
    · have hkept : isKept c = false := by
        obtain ⟨hnamed, hextra⟩ := Bool.and_eq_true_iff.1 hextra
        rw [isKept, hnamed, hextra]
        rfl
      rw [if_pos hextra, hkept]
      exact hrest
    · rw [if_neg hextra, toAstAll, ← isKept, isKept_settle]
      by_cases hkept : isKept c = true
      · rw [if_pos hkept, if_pos hkept, if_pos hkept, List.map_cons, List.cons.injEq,
          List.forall_mem_append]
        exact and_congr (toAst_settle_iff hline c) hrest
      · rw [if_neg hkept, if_neg hkept, if_neg hkept]
        exact hrest
end

theorem toAst_unlined (source : Array Char) (c : Concrete) :
    toAst source (settle unlined c) = (toAst source c).relined fun _ => 0 := by
  rw [toAst_settle_iff fun _ => rfl]
  intro n _ _
  simp only [slice, unlined]

end Settle

theorem visible_append (c : Concrete) (a b : List Char) :
    visible c (a ++ b) = visible c a ++ visible c b := by
  rw [visible, visible, visible]
  split
  · exact List.filter_append ..
  · rfl

mutual
theorem converted_subset : (c : Concrete) → converted c ⊆ c.preOrder
  | .node l cs => by
    rw [converted, Rose.preOrder]
    split
    · simp
    · exact List.cons_subset_cons _ (convertedAll_subset cs)

theorem convertedAll_subset : (cs : List Concrete) → convertedAll cs ⊆ Rose.preOrderAll cs
  | [] => List.Subset.refl _
  | c :: cs => by
    rw [convertedAll, Rose.preOrderAll]
    split
    · exact List.append_subset.2
        ⟨List.subset_append_of_subset_left _ (converted_subset c),
          List.subset_append_of_subset_right _ (convertedAll_subset cs)⟩
    · exact List.subset_append_of_subset_right _ (convertedAll_subset cs)
end

end Concrete

/-! ## Texts with something put in -/

theorem slice_append (a b : List Char) (e : Extent) : slice (a ++ b).toArray e =
    slice a.toArray e ++ slice b.toArray ⟨e.line, e.start - a.length, e.stop - a.length⟩ := by
  have hrest : e.stop - e.start - (a.length - e.start) =
      e.stop - a.length - (e.start - a.length) := by
    omega
  rw [slice_toArray, slice_toArray, slice_toArray, List.drop_append, List.take_append,
    List.length_drop, hrest]

/-- A text, and what is put in at one of its places. -/
structure Insertion where
  before : List Char
  inserted : List Char
  after : List Char

namespace Insertion

def source (p : Insertion) : List Char := p.before ++ p.after

def result (p : Insertion) : List Char := p.before ++ p.inserted ++ p.after

def Splits (p : Insertion) (e : Extent) : Prop :=
  e.start < p.before.length ∧ p.before.length < e.stop

instance (p : Insertion) (e : Extent) : Decidable (p.Splits e) :=
  inferInstanceAs (Decidable (_ ∧ _))

def moved (p : Insertion) (e : Extent) : Extent where
  line := 0
  start := if e.start < p.before.length then e.start else e.start + p.inserted.length
  stop := if e.stop ≤ p.before.length then e.stop else e.stop + p.inserted.length

/-- The place is between two tokens; comments are tokens here. -/
def BetweenTokens (p : Insertion) (c : Concrete) : Prop :=
  ∀ n ∈ c.preOrder, n.children = [] → ¬ p.Splits n.label.extent

/-- Nothing of what is put in shows in a text that becomes a value: the place is in no such text, or
it is in a dotted name and what is put in is blank. -/
def Spares (p : Insertion) (c : Concrete) : Prop :=
  ∀ n ∈ Concrete.converted c, n.children ≠ [] → Concrete.takesText n = true →
    p.Splits n.label.extent → Concrete.visible n p.inserted = []

/-- The parser makes the same tree of the text with what is put in, apart from places, texts and
extras: what takes its text is where it has been moved to. -/
def Kept (p : Insertion) (parse : List Char → Except Nat Concrete) (c : Concrete) : Prop :=
  ∃ c', parse p.result = .ok c' ∧
    Concrete.settle Concrete.unlined c' = Concrete.settle p.moved c

variable {p : Insertion} {c : Concrete}

theorem slice_moved (p : Insertion) (e : Extent) : slice p.result.toArray (p.moved e) =
    slice p.before.toArray e ++ (if p.Splits e then p.inserted else []) ++
      slice p.after.toArray ⟨e.line, e.start - p.before.length, e.stop - p.before.length⟩ := by
  have hlength : (p.before ++ p.inserted).length = p.before.length + p.inserted.length :=
    List.length_append
  rw [result, slice_append, slice_append]
  simp only [slice_toArray, moved, hlength]
  by_cases hstart : e.start < p.before.length
  · by_cases hstop : e.stop ≤ p.before.length
    · -- in front
      have hsplits : ¬ p.Splits e := fun h => Nat.not_lt.2 hstop h.2
      have hbehind : e.stop - (p.before.length + p.inserted.length) = 0 := by omega
      simp only [if_pos hstart, if_pos hstop, if_neg hsplits, Nat.sub_eq_zero_of_le hstop, hbehind,
        Nat.zero_sub, List.take_zero]
    · -- on both sides
      have hsplits : p.Splits e := ⟨hstart, Nat.not_le.1 hstop⟩
      have hbehind : e.start - (p.before.length + p.inserted.length) = 0 := by omega
      simp only [if_pos hstart, if_neg hstop, if_pos hsplits, hbehind,
        Nat.sub_eq_zero_of_le (Nat.le_of_lt hstart), Nat.sub_zero, List.drop_zero,
        Nat.add_sub_add_right]
      congr 2
      · rw [List.take_of_length_le, List.take_of_length_le]
        · rw [List.length_drop]; omega
        · rw [List.length_drop]; omega
      · apply List.take_of_length_le
        omega
  · -- behind
    have hsplits : ¬ p.Splits e := fun h => hstart h.1
    have hshift : e.start + p.inserted.length - (p.before.length + p.inserted.length) =
        e.start - p.before.length := by
      omega
    have hstop : (if e.stop ≤ p.before.length then e.stop else e.stop + p.inserted.length) -
        (p.before.length + p.inserted.length) = e.stop - p.before.length := by
      split <;> omega
    have hfront : p.before.drop (e.start + p.inserted.length) = [] :=
      List.drop_eq_nil_of_le (by omega)
    have hfront' : p.before.drop e.start = [] := List.drop_eq_nil_of_le (by omega)
    have hmiddle : p.inserted.drop (e.start + p.inserted.length - p.before.length) = [] :=
      List.drop_eq_nil_of_le (by omega)
    simp only [if_neg hstart, if_neg hsplits, hshift, hstop, hfront, hfront', hmiddle,
      List.take_nil]

theorem sameText_moved_iff (p : Insertion) (n : Concrete) :
    Concrete.SameText p.source.toArray p.result.toArray p.moved n ↔
      (Concrete.takesText n = true → p.Splits n.label.extent →
        Concrete.visible n p.inserted = []) := by
  rw [Concrete.SameText, source, slice_append, slice_moved]
  by_cases hsplits : p.Splits n.label.extent
  · rw [if_pos hsplits, Concrete.visible_append, Concrete.visible_append, Concrete.visible_append]
    simp [hsplits]
  · simp [hsplits]

/-- Of the nodes that take their text, only those with children can have the place in it. -/
theorem sameText_iff_spares (hbetween : p.BetweenTokens c) :
    (∀ n ∈ Concrete.converted c, Concrete.SameText p.source.toArray p.result.toArray p.moved n) ↔
      p.Spares c := by
  refine forall₂_congr fun n hn => ?_
  rw [sameText_moved_iff]
  constructor
  · exact fun h _ => h
  · intro h htakes hsplits
    have hchildren : n.children ≠ [] := fun hnil =>
      hbetween n (Concrete.converted_subset c hn) hnil hsplits
    exact h hchildren htakes hsplits

end Insertion

/-- Whatever is put in between two tokens of a source, if it leaves the parser with the same tree,
the syntax tree is the same but for its lines exactly if nothing put in shows in a text that becomes
a value. -/
theorem readBy_insert {parse : List Char → Except Nat Concrete} {p : Insertion} {c : Concrete}
    (hsource : parse p.source = .ok c) (hkept : p.Kept parse c) (hbetween : p.BetweenTokens c) :
    ∃ t t', readBy parse (String.ofList p.source) = .ok t ∧
      readBy parse (String.ofList p.result) = .ok t' ∧
      (t'.relined (fun _ => 0) = t.relined (fun _ => 0) ↔ p.Spares c) := by
  obtain ⟨c', hresult, hsettle⟩ := hkept
  refine ⟨Concrete.toAst p.source.toArray c, Concrete.toAst p.result.toArray c', ?_, ?_, ?_⟩
  · rw [readBy, String.toList_ofList, hsource]
    rfl
  · rw [readBy, String.toList_ofList, hresult]
    rfl
  · rw [← Concrete.toAst_unlined, hsettle, Concrete.toAst_settle_iff fun _ => rfl]
    exact Insertion.sameText_iff_spares hbetween

namespace Annotated

def note : List Char := "/* note */".toList

def node (kind : String) (field : Option String) (start stop : Nat) (parts : List Concrete) :
    Concrete :=
  .node { kind, isNamed := true, isExtra := false, field, extent := ⟨1, start, stop⟩ } parts

def comments (start : Nat) (text : List Char) : List Concrete :=
  if text.isEmpty then []
  else [Concrete.comment ⟨"block_comment", ⟨1, start, start + text.length⟩⟩]

def source (front inner : List Char) : List Char :=
  "class A".toList ++ front ++ " \x7b".toList ++ inner ++ "\x7d".toList

def tree (front inner : List Char) : Concrete :=
  let body := 8 + front.length
  let stop := body + 2 + inner.length
  node "program" none 0 stop
    [node "class_declaration" none 0 stop
      ([Concrete.token "class" ⟨1, 0, 5⟩, node "identifier" (some "name") 6 7 []] ++
        comments 7 front ++
        [node "class_body" (some "body") body stop
          ([Concrete.token "\x7b" ⟨1, body, body + 1⟩] ++ comments (body + 1) inner ++
            [Concrete.token "\x7d" ⟨1, stop - 1, stop⟩])])]

def parse (text : List Char) : Except Nat Concrete :=
  match [([], []), (note, []), ([], note)].find? fun l => source l.1 l.2 = text with
  | some l => .ok (tree l.1 l.2)
  | none => .error 1

def inFront : Insertion := ⟨"class A".toList, note, " \x7b\x7d".toList⟩

def inside : Insertion := ⟨"class A \x7b".toList, note, "\x7d".toList⟩

end Annotated

open Annotated in
theorem readBy_insert_inFront :
    ∃ t t', readBy parse (String.ofList inFront.source) = .ok t ∧
      readBy parse (String.ofList inFront.result) = .ok t' ∧
      t'.relined (fun _ => 0) = t.relined fun _ => 0 := by
  have hsource : parse inFront.source = .ok (tree [] []) := rfl
  have hkept : inFront.Kept parse (tree [] []) := ⟨tree note [], rfl, rfl⟩
  have hbetween : inFront.BetweenTokens (tree [] []) := by
    unfold Insertion.BetweenTokens
    decide
  have hspares : inFront.Spares (tree [] []) := by
    unfold Insertion.Spares
    decide
  obtain ⟨t, t', hread, hread', hsame⟩ := readBy_insert hsource hkept hbetween
  exact ⟨t, t', hread, hread', hsame.2 hspares⟩

open Annotated in
/-- A comment between the braces of an empty body gets into the tree as part of its value. -/
theorem readBy_ne_insert_inside :
    parse inside.source = .ok (tree [] []) ∧ inside.Kept parse (tree [] []) ∧
      inside.BetweenTokens (tree [] []) ∧
      ∃ t t', readBy parse (String.ofList inside.source) = .ok t ∧
        readBy parse (String.ofList inside.result) = .ok t' ∧
        t'.relined (fun _ => 0) ≠ t.relined fun _ => 0 := by
  refine ⟨rfl, ⟨tree [] note, rfl, rfl⟩, ?_, _, _, rfl, rfl, ?_⟩
  · unfold Insertion.BetweenTokens
    decide
  · intro h
    have hvalues := congrArg (fun t => t.preOrder.map Rose.value) h
    revert hvalues
    decide

end Relocate.Source
