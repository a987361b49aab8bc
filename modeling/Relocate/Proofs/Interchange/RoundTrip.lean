import Relocate.Files.Revision
import Relocate.Interchange.Printer
import Relocate.Proofs.Markup.Pieces
import Relocate.Proofs.Number.Decimal

/-!
# Tree documents read back

A printed tree is read as the tree that was printed. Reading goes from one piece of the document to
the next: the layout between tags is passed over, a tag gives the node it was printed from, and a
printed subtree has the effect of attaching that subtree.
-/

set_option autoImplicit false

namespace Relocate.Interchange

open Relocate.Text Relocate.Markup

/-! ### One node -/

def assignments (tag : Tag) : List Assignment :=
  ⟨"kind", '"', escaped tag.kind⟩ ::
    ((tag.value.toList.map fun v => ⟨"value", '"', escaped v⟩) ++
      (tag.field.toList.map fun f => ⟨"field", '"', escaped f⟩) ++
      [⟨"line", '"', escaped (toString tag.line)⟩])

theorem assignment_eq_chars (name : String) (text : List Char) :
    assignment name text = (Assignment.mk name '"' text).chars := by
  simp [assignment, Assignment.chars]

theorem escaped_toString (n : Nat) : escaped (toString n) = (toString n).toList := by
  refine escape_of_isPlain fun c hc => ?_
  have hdigit := Number.isDigit_of_mem_toString hc
  cases hentity : entity? c with
  | none => exact hentity
  | some name =>
    exfalso
    rcases entity?_cases hentity with ⟨rfl, -⟩ | ⟨rfl, -⟩ | ⟨rfl, -⟩ | ⟨rfl, -⟩ | ⟨rfl, -⟩ <;>
      exact absurd hdigit (by decide)

theorem tagStart_eq (indent : Nat) (tag : Tag) :
    tagStart indent tag =
      List.replicate (2 * indent) ' ' ++ '<' :: tagChars "tree" (assignments tag) 0 := by
  have hoptional : ∀ name (text : Option String), optionalAttribute name text =
      (text.toList.map fun v => Assignment.mk name '"' (escaped v)).flatMap Assignment.chars := by
    intro name text
    cases text <;> simp [optionalAttribute, assignment_eq_chars]
  simp only [tagStart, tagChars, assignments, hoptional, assignment_eq_chars, escaped_toString,
    List.flatMap_cons, List.flatMap_append, List.flatMap_nil, List.replicate_zero, List.append_nil,
    List.append_assoc]
  rfl

theorem fits_escaped {name : String} (hname : IsName name) {quote : Char}
    (hquote : quote = '"' ∨ quote = '\'') (text : String) :
    (Assignment.mk name quote (escaped text)).Fits where
  name := hname
  quote := hquote
  value := by
    have hplain : ¬ IsPlain quote ∧ quote ≠ '&' := by rcases hquote with rfl | rfl <;> decide
    exact not_mem_escape hplain.1 hplain.2

theorem valueText_escaped (name : String) (quote : Char) (text : String) :
    valueText (Assignment.mk name quote (escaped text)).read = .ok text := by
  simp [valueText, Assignment.read, escaped, unescape_escape]

theorem fits_assignments (tag : Tag) : ∀ a ∈ assignments tag, a.Fits := by
  intro a ha
  simp only [assignments, List.mem_cons, List.mem_append, List.mem_map,
    List.not_mem_nil, or_false] at ha
  rcases ha with rfl | (⟨v, -, rfl⟩ | ⟨f, -, rfl⟩) | rfl <;>
    exact fits_escaped (by decide) (.inl rfl) _

theorem nodup_assignments (tag : Tag) : ((assignments tag).map Assignment.name).Nodup := by
  cases hv : tag.value <;> cases hf : tag.field <;> simp [assignments, hv, hf]

theorem readAttribute_escaped (d : Draft) (name : String) (quote : Char) (text : String) :
    readAttribute d (Assignment.mk name quote (escaped text)).read =
      d.set (Symbols.ofString name) text := by
  rw [readAttribute, valueText_escaped]
  rfl

namespace Draft

variable (d : Draft)

theorem set_kind (text : String) :
    d.set (Symbols.ofString "kind") text = .ok { d with kind := some text } := if_pos rfl

theorem set_value (text : String) :
    d.set (Symbols.ofString "value") text = .ok { d with value := some text } := by
  simp [set, Symbols.ofString_inj]

theorem set_field (text : String) :
    d.set (Symbols.ofString "field") text = .ok { d with field := some text } := by
  simp [set, Symbols.ofString_inj]

theorem set_line {n : Nat} (h : n ≤ Number.unsignedLimit) :
    d.set (Symbols.ofString "line") (toString n) = .ok { d with line := n } := by
  rw [set, Number.readUnsigned?_toString h]
  simp [Symbols.ofString_inj]

end Draft

/-- A printed tag is read as the node it was printed from, whatever line it would inherit. -/
theorem readTag_written {tag : Tag} (h : tag.line ≤ Number.unsignedLimit) (line blanks : Nat) :
    readTag line (writtenTag "tree" (assignments tag) blanks) = .ok tag := by
  have hname : IsName "tree" := by decide
  have hdraft : ((assignments tag).map Assignment.read).foldlM readAttribute { line } =
      .ok { kind := some tag.kind, value := tag.value, field := tag.field, line := tag.line } := by
    have hline := fun d : Draft => d.set_line h
    cases hv : tag.value <;> cases hf : tag.field <;>
      simp only [assignments, hv, hf, Option.toList_none, Option.toList_some, List.map_cons,
        List.map_nil, List.nil_append, List.cons_append, List.foldlM_cons, List.foldlM_nil,
        readAttribute_escaped, Draft.set_kind, Draft.set_value, Draft.set_field, hline] <;>
      rfl
  rw [readTag, hasName_writtenTag hname, attributes_writtenTag hname (fits_assignments tag)
    (nodup_assignments tag), if_pos (by decide)]
  simp only [hdraft]
  rfl

/-! ### The rest of a document -/

namespace State

/-- The state at the end of a document of which this much is left to read. -/
def resume (s : State) (opened : List (List Symbol)) (rest : List Symbol) : Except Error State :=
  Stream.feed step s (Stream.inside opened rest).trimmed

@[simp] theorem resume_nil (s : State) (opened : List (List Symbol)) :
    s.resume opened [] = .ok s := by
  rw [resume, Stream.inside_nil]
  rfl

theorem trimmed_before {e : Event} (he : ∀ run, e ≠ .text run) (stream : Stream) :
    (stream.before e).trimmed = stream.trimmed.before e := by
  have hkeep : Stream.trimmed? e = some e := by
    unfold Stream.trimmed?
    split
    · exact absurd rfl (he _)
    · rfl
  simp only [Stream.trimmed, Stream.before, List.filterMap_cons, hkeep]

theorem resume_spaces (s : State) (opened : List (List Symbol)) {spaces ss : List Symbol}
    (hspaces : ∀ t ∈ spaces, isSpace t = true) (hss : AtMark ss) :
    s.resume opened (spaces ++ ss) = s.resume opened ss := by
  by_cases hne : spaces = []
  · rw [hne, List.nil_append]
  · have hmarks : ∀ t ∈ spaces, isMark t = false := by
      intro t ht
      have hspace := hspaces t ht
      cases hmark : isMark t with
      | false => rfl
      | true =>
        rcases Bool.or_eq_true_iff.1 hmark with h | h <;>
          exact absurd ((eq_of_beq h) ▸ hspace) (by decide)
    have hdrop : ∀ stream : Stream, (stream.before (.text spaces)).trimmed = stream.trimmed := by
      intro stream
      simp [Stream.trimmed, Stream.before, Stream.trimmed?, List.all_eq_true.2 hspaces]
    rw [resume, Stream.inside_text opened hne hmarks hss, hdrop, resume]

/-- Nothing but white space up to the next tag or reference, or to the end. -/
def Clear (ss : List Symbol) : Prop :=
  ∃ spaces rest, ss = spaces ++ rest ∧ (∀ s ∈ spaces, isSpace s = true) ∧ AtMark rest

theorem clear_nil : Clear [] := ⟨[], [], rfl, List.forall_mem_nil _, atMark_nil⟩

theorem clear_indented (n : Nat) (rest : List Symbol) :
    Clear (Symbols.ofChars (List.replicate n ' ') ++ .char '<' :: rest) := by
  refine ⟨_, _, rfl, fun s hs => ?_, atMark_cons rfl rest⟩
  rw [Symbols.eq_of_mem_blanks hs]
  rfl

theorem resume_newline (s : State) (opened : List (List Symbol)) {ss : List Symbol}
    (h : Clear ss) : s.resume opened (.char '\n' :: ss) = s.resume opened ss := by
  obtain ⟨spaces, rest, rfl, hspaces, hrest⟩ := h
  have hline : ∀ t ∈ .char '\n' :: spaces, isSpace t = true := by
    intro t ht
    rcases List.mem_cons.1 ht with rfl | ht
    · rfl
    · exact hspaces t ht
  rw [← List.cons_append, resume_spaces s opened hline hrest, resume_spaces s opened hspaces hrest]

theorem resume_indented (s : State) (opened : List (List Symbol)) (n : Nat) (rest : List Symbol) :
    s.resume opened (Symbols.ofChars (List.replicate n ' ') ++ .char '<' :: rest) =
      s.resume opened (.char '<' :: rest) := by
  refine s.resume_spaces opened (fun t ht => ?_) (atMark_cons rfl rest)
  rw [Symbols.eq_of_mem_blanks ht]
  rfl

section

variable (s : State) (opened : List (List Symbol)) {tag : Tag}
  (h : tag.line ≤ Number.unsignedLimit) (rest : List Symbol)

include h

theorem resume_openingTag :
    s.resume opened (Symbols.ofChars (openingTag "tree" (assignments tag) 0) ++ rest) =
      resume { s with opened := ⟨tag, []⟩ :: s.opened }
        (Symbols.ofString "tree" :: opened) rest := by
  have hname : IsName "tree" := by decide
  rw [resume, Stream.inside_openingTag opened hname (fits_assignments tag),
    trimmed_before (by simp)]
  refine Stream.feed_before_of_ok _ ?_ _
  rw [step, readTag_written h]
  rfl

theorem resume_emptyTag (blanks : Nat) :
    s.resume opened (Symbols.ofChars (emptyTag "tree" (assignments tag) blanks) ++ rest) =
      (s.attach (.node tag [])).bind fun s => s.resume opened rest := by
  have hname : IsName "tree" := by decide
  rw [resume, Stream.inside_emptyTag opened hname (fits_assignments tag),
    trimmed_before (by simp), Stream.feed_before, step, readTag_written h]
  rfl

end

theorem resume_closingTag (s : State) (opened : List (List Symbol)) (o : Open) (os : List Open)
    (rest : List Symbol) :
    resume { s with opened := o :: os } (Symbols.ofString "tree" :: opened)
        (Symbols.ofChars (closingTag "tree") ++ rest) =
      (attach { s with opened := os } (.node o.tag o.children.reverse)).bind fun s =>
        s.resume opened rest := by
  have hname : IsName "tree" := by decide
  rw [resume, Stream.inside_closingTag opened hname, trimmed_before (by simp), Stream.feed_before]
  rfl

end State

/-! ### Printed trees -/

open State

theorem printNode_leaf (indent : Nat) (tag : Tag) :
    Symbols.ofChars (printNode indent (.node tag [])) =
      Symbols.ofChars (List.replicate (2 * indent) ' ') ++
        (Symbols.ofChars (emptyTag "tree" (assignments tag) 1) ++ [.char '\n']) := by
  simp [printNode, tagStart_eq, emptyTag, tagChars, Symbols.ofChars]

theorem printNode_inner (indent : Nat) (tag : Tag) (c : Ast) (cs : List Ast) :
    Symbols.ofChars (printNode indent (.node tag (c :: cs))) =
      Symbols.ofChars (List.replicate (2 * indent) ' ') ++
        (Symbols.ofChars (openingTag "tree" (assignments tag) 0) ++ .char '\n' ::
          (Symbols.ofChars (printAll (indent + 1) (c :: cs)) ++
            (Symbols.ofChars (List.replicate (2 * indent) ' ') ++
              (Symbols.ofChars (closingTag "tree") ++ [.char '\n'])))) := by
  simp [printNode, printAll, tagStart_eq, openingTag, closingTag, Symbols.ofChars]

theorem clear_printAll (indent : Nat) (cs : List Ast) {rest : List Symbol} (h : Clear rest) :
    Clear (Symbols.ofChars (printAll indent cs) ++ rest) := by
  match cs with
  | [] => exact h
  | .node tag [] :: cs =>
    rw [printAll, Symbols.ofChars_append, printNode_leaf, List.append_assoc, List.append_assoc]
    exact clear_indented _ _
  | .node tag (c :: cs') :: cs =>
    rw [printAll, Symbols.ofChars_append, printNode_inner, List.append_assoc, List.append_assoc]
    exact clear_indented _ _

mutual
/-- Reading a printed tree attaches the tree. The state is general, since the children are read in
the state that their parent's opening tag leaves. -/
theorem resume_printNode (s : State) (opened : List (List Symbol)) (indent : Nat)
    {rest : List Symbol} (hrest : Clear rest) : (t : Ast) →
    (∀ u ∈ t.preOrder, u.line ≤ Number.unsignedLimit) →
    s.resume opened (Symbols.ofChars (printNode indent t) ++ rest) =
      (s.attach t).bind fun s => s.resume opened rest
  | .node tag [], h => by
    have hline : tag.line ≤ Number.unsignedLimit := h _ List.mem_cons_self
    rw [printNode_leaf, List.append_assoc, List.append_assoc]
    refine (s.resume_indented opened _ _).trans ?_
    refine (s.resume_emptyTag opened hline _ 1).trans ?_
    refine congrArg _ (funext fun s => ?_)
    exact s.resume_newline opened hrest
  | .node tag (c :: cs), h => by
    have hline : tag.line ≤ Number.unsignedLimit := h _ List.mem_cons_self
    have hclose : Clear (Symbols.ofChars (List.replicate (2 * indent) ' ') ++
        (Symbols.ofChars (closingTag "tree") ++ .char '\n' :: rest)) := clear_indented _ _
    rw [printNode_inner]
    simp only [List.append_assoc, List.cons_append, List.nil_append]
    refine (s.resume_indented opened _ _).trans ?_
    refine (s.resume_openingTag opened hline _).trans ?_
    -- The line break here and the indentation of the closing tag merge with the layout of the
    -- children into runs of white space.
    refine (resume_newline _ _ (clear_printAll (indent + 1) (c :: cs) hclose)).trans ?_
    rw [resume_printAll s ⟨tag, []⟩ s.opened _ (indent + 1) hclose (c :: cs)
      fun u hu => h u (List.mem_cons_of_mem _ hu)]
    refine (resume_indented _ _ _ _).trans ?_
    refine (resume_closingTag s opened _ s.opened _).trans ?_
    rw [List.append_nil, List.reverse_reverse]
    refine congrArg _ (funext fun s => ?_)
    exact s.resume_newline opened hrest

theorem resume_printAll (s : State) (o : Open) (os : List Open) (opened : List (List Symbol))
    (indent : Nat) {rest : List Symbol} (hrest : Clear rest) : (cs : List Ast) →
    (∀ u ∈ Rose.preOrderAll cs, u.line ≤ Number.unsignedLimit) →
    resume { s with opened := o :: os } opened (Symbols.ofChars (printAll indent cs) ++ rest) =
      resume { s with opened := { o with children := cs.reverse ++ o.children } :: os } opened rest
  | [], _ => rfl
  | c :: cs, h => by
    have hc : ∀ u ∈ c.preOrder, u.line ≤ Number.unsignedLimit :=
      fun u hu => h u (List.mem_append_left _ hu)
    rw [printAll, Symbols.ofChars_append, List.append_assoc,
      resume_printNode _ opened indent (clear_printAll indent cs hrest) c hc]
    refine (resume_printAll s { o with children := c :: o.children } os opened indent hrest cs
      fun u hu => h u (List.mem_append_right _ hu)).trans ?_
    rw [List.reverse_cons, List.append_assoc, List.singleton_append]
end

theorem withoutMark_declaration (rest : List Symbol) :
    Stream.withoutMark (Symbols.ofString declaration ++ rest) =
      Symbols.ofString declaration ++ rest := rfl

theorem inside_declaration (rest : List Symbol) :
    Stream.inside [] (Symbols.ofString declaration ++ rest) =
      (Stream.inside [] (.char '\n' :: rest)).before .aside := by
  have hshape : Symbols.ofString declaration ++ rest = Symbols.ofString "<?" ++
      (Symbols.ofString "xml version=\"1.0\" encoding=\"UTF-8\"" ++
        (Symbols.ofString "?>" ++ .char '\n' :: rest)) := by
    simp [declaration, Symbols.ofString, Symbols.ofChars]
  rw [hshape, Stream.inside_instruction [] (by decide +kernel) (by decide)]

theorem resume_declaration (s : State) {rest : List Symbol} (hrest : Clear rest) :
    s.resume [] (Symbols.ofString declaration ++ rest) = s.resume [] rest := by
  rw [resume, inside_declaration, trimmed_before (by simp)]
  refine (Stream.feed_before_of_ok _ rfl _).trans ?_
  exact s.resume_newline [] hrest

theorem ofSymbols_eq_resume (ss : List Symbol) :
    ofSymbols ss = (resume {} [] (Stream.withoutMark ss)).bind State.finish := by
  rw [resume, Stream.feed_bind]
  rfl

theorem read_print {t : Ast} (h : ∀ u ∈ t.preOrder, u.line ≤ Number.unsignedLimit) :
    read (print t) = .ok t := by
  have hsymbols : Symbols.ofString (print t) =
      Symbols.ofString declaration ++ (Symbols.ofChars (printNode 0 t) ++ []) := by
    rw [print, Symbols.ofString, String.toList_append, Symbols.ofChars_append,
      String.toList_ofList, List.append_nil]
    rfl
  have hclear : Clear (Symbols.ofChars (printNode 0 t) ++ []) := by
    have hall := clear_printAll 0 [t] clear_nil
    rwa [printAll, printAll, List.append_nil (printNode 0 t)] at hall
  rw [read, hsymbols, ofSymbols_eq_resume, withoutMark_declaration,
    resume_declaration _ hclear, resume_printNode _ [] 0 clear_nil t h, State.attach, Except.bind,
    resume_nil]
  rfl

/-- Printing a tree and parsing the document gives the tree back, without a source text. -/
theorem parse_print (t : Ast) (h : ∀ u ∈ t.preOrder, u.line ≤ Number.unsignedLimit) :
    read (print t) = .ok t ∧
      Files.Format.document.parse (print t) = .ok { root := t, text := "" } := by
  have hread := read_print h
  refine ⟨hread, ?_⟩
  rw [Files.Format.parse, hread]
  rfl

def awkward : Ast :=
  .node ⟨⟨"</tree>", some "&lt; & &#0;"⟩, none, 18446744073709551615⟩
    [.node ⟨⟨"", some ""⟩, some "'\"/>\n", 0⟩ [], .node ⟨⟨"a < b", none⟩, none, 7⟩ []]

theorem parse_print_awkward :
    read (print awkward) = .ok awkward ∧
      Files.Format.document.parse (print awkward) = .ok { root := awkward, text := "" } :=
  parse_print awkward (by decide)

end Relocate.Interchange
