import Relocate.Proofs.Markup.Spelling
import Relocate.Proofs.Report.Following
import Relocate.Proofs.Text.Blank

/-!
# Texts of fields

However the text of a field is cut into pieces and however each piece is written, the field takes
the whole text, trimmed once at the end. It keeps that text up to the end of the mutation, unless an
element of the same name follows.
-/

set_option autoImplicit false

namespace Relocate.Report

open Relocate.Text Relocate.Markup

namespace State

variable (s : State) (opened : List (List Symbol)) {rest : List Symbol}

theorem referenceText_number {c : Char} {hex : Bool} {digits : List Char}
    (h : IsNumberOf hex digits c) :
    referenceText (Symbols.ofChars ('#' :: numberName hex digits)) = .ok c := by
  unfold referenceText
  rw [Symbols.decode_ofChars]
  simp only [h.readReference]
  rfl

theorem not_isMark_numberName {c : Char} {hex : Bool} {digits : List Char}
    (h : IsNumberOf hex digits c) {t : Symbol}
    (ht : t ∈ Symbols.ofChars ('#' :: numberName hex digits)) :
    isMark t = false ∧ t ≠ .char ';' := by
  obtain ⟨d, hd, rfl⟩ := Symbols.mem_ofChars.1 ht
  have hcases : d = '#' ∨ d = 'x' ∨ d ∈ digits := by
    cases hex <;> simp [numberName] at hd ⊢ <;> tauto
  rcases hcases with rfl | rfl | hdigit
  · decide
  · decide
  · have hne := fun e he => h.ne_of_mem (e := e) hdigit he
    have hlt : d ≠ '<' := hne '<' (by cases hex <;> rfl)
    have hamp : d ≠ '&' := hne '&' (by cases hex <;> rfl)
    have hend : d ≠ ';' := hne ';' (by cases hex <;> rfl)
    simp [isMark, hlt, hamp, hend]

theorem resume_piece (hrest : Legible rest) (p : TextPiece) :
    s.resume opened (Symbols.ofChars p.written ++ rest) =
      (s.addText p.value).resume opened rest := by
  cases p with
  | escaped cs => exact s.resume_escape opened hrest cs
  | plain cs unmarked => exact s.resume_run opened unmarked hrest
  | data cs unended =>
    rw [TextPiece.written, ofChars_between, resume, Stream.inside_data opened unended]
    refine Stream.feed_before_of_ok _ ?_ _
    rw [step, Symbols.lossy_ofChars]
    rfl
  | entity c name known =>
    have hshape : Symbols.ofChars (TextPiece.entity c name known).written ++ rest =
        .char '&' :: (Symbols.ofChars name ++ .char ';' :: rest) := by
      simp [TextPiece.written, Symbols.ofChars]
    rw [hshape]
    exact s.resume_entity opened known
  | number c hex digits spelled =>
    have hshape : Symbols.ofChars (TextPiece.number c hex digits spelled).written ++ rest =
        .char '&' :: (Symbols.ofChars ('#' :: numberName hex digits) ++ .char ';' :: rest) := by
      simp [TextPiece.written, Symbols.ofChars]
    rw [hshape, resume, Stream.inside_reference opened fun t ht => not_isMark_numberName spelled ht]
    refine Stream.feed_before_of_ok _ ?_ _
    rw [step, referenceText_number spelled]
    rfl
  | comment cs unended =>
    rw [TextPiece.written, ofChars_between, resume, Stream.inside_comment opened unended,
      TextPiece.value, addText_nil]
    exact Stream.feed_before_of_ok _ rfl _
  | instruction cs unended first =>
    have hfirst : ∀ t ∈ (Symbols.ofChars cs).head?, t ≠ .char '>' := by
      intro t ht
      rw [Symbols.ofChars, List.head?_map] at ht
      obtain ⟨c, hc, rfl⟩ := Option.map_eq_some_iff.1 ht
      exact fun heq => first c hc (Symbol.char.inj heq)
    rw [TextPiece.written, ofChars_between, resume,
      Stream.inside_instruction opened unended hfirst, TextPiece.value, addText_nil]
    exact Stream.feed_before_of_ok _ rfl _

theorem resume_pieces (hrest : Legible rest) (ps : List TextPiece) :
    s.resume opened (Symbols.ofChars (TextPiece.writtenAll ps) ++ rest) =
      (s.addText (TextPiece.valueAll ps)).resume opened rest := by
  induction ps generalizing s with
  | nil => exact congrArg (resume · opened rest) s.addText_nil.symm
  | cons p ps ih =>
    rw [TextPiece.writtenAll, List.flatMap_cons, Symbols.ofChars_append, List.append_assoc,
      s.resume_piece opened (hrest.append _) p]
    refine (ih (s.addText p.value)).trans ?_
    rw [addText_addText]
    rfl

end State

/-! ### Fields -/

inductive TextField
  | sourceFile
  | mutatedClass
  | mutatedMethod
  | descriptor
  | operator
  | description
  deriving DecidableEq

namespace TextField

def name : TextField → String
  | sourceFile => "sourceFile"
  | mutatedClass => "mutatedClass"
  | mutatedMethod => "mutatedMethod"
  | descriptor => "methodDescription"
  | operator => "mutator"
  | description => "description"

def put (d : Draft) (text : String) : TextField → Draft
  | sourceFile => { d with sourceFile := some text }
  | mutatedClass => { d with mutatedClass := some text }
  | mutatedMethod => { d with mutatedMethod := some text }
  | descriptor => { d with descriptor := some text }
  | operator => { d with operator := some text }
  | description => { d with description := some text }

def ofDraft (d : Draft) : TextField → Option String
  | sourceFile => d.sourceFile
  | mutatedClass => d.mutatedClass
  | mutatedMethod => d.mutatedMethod
  | descriptor => d.descriptor
  | operator => d.operator
  | description => d.description

def ofFinding (f : Finding) : TextField → Option String
  | sourceFile => some f.sourceFile
  | mutatedClass => some f.mutatedClass
  | mutatedMethod => some f.mutatedMethod
  | descriptor => some f.descriptor
  | operator => some f.operator
  | description => f.description

variable (field : TextField)

theorem name_ne_mutation : Symbols.ofString field.name ≠ Symbols.ofString "mutation" := by
  cases field <;> simp [name, Symbols.ofString_inj]

theorem set_name (d : Draft) (raw : List Char) :
    d.set (Symbols.ofString field.name) raw = .ok (field.put d (String.ofList (trim raw))) := by
  cases field <;> simp only [Draft.set, name, Symbols.ofString_inj] <;> rfl

theorem ofDraft_put (d : Draft) (text : String) : field.ofDraft (field.put d text) = some text := by
  cases field <;> rfl

theorem ofDraft_put_of_ne {field other : TextField} (h : other ≠ field) (d : Draft)
    (text : String) :
    field.ofDraft (other.put d text) = field.ofDraft d := by
  cases field <;> cases other <;> first | rfl | exact absurd rfl h

/-- An element is a field and puts its text, or it changes numbers at most. -/
theorem exists_of_set {d e : Draft} {element : List Symbol} {raw : List Char}
    (h : d.set element raw = .ok e) :
    (∃ other : TextField, element = Symbols.ofString other.name ∧
      e = other.put d (String.ofList (trim raw))) ∨
    ∃ line indices order, e = { d with line, indices, order } := by
  simp only [Draft.set] at h
  split at h
  · exact .inl ⟨sourceFile, ‹_›, (Except.ok.inj h).symm⟩
  split at h
  · exact .inl ⟨mutatedClass, ‹_›, (Except.ok.inj h).symm⟩
  split at h
  · exact .inl ⟨mutatedMethod, ‹_›, (Except.ok.inj h).symm⟩
  split at h
  · exact .inl ⟨descriptor, ‹_›, (Except.ok.inj h).symm⟩
  split at h
  · exact .inr ⟨_, _, _, (Except.ok.inj h).symm⟩
  split at h
  · exact .inl ⟨operator, ‹_›, (Except.ok.inj h).symm⟩
  split at h
  · exact .inl ⟨description, ‹_›, (Except.ok.inj h).symm⟩
  split at h
  · obtain ⟨n, -, rfl⟩ := eq_of_map_eq_ok h
    exact .inr ⟨_, _, _, rfl⟩
  split at h
  · obtain ⟨n, -, rfl⟩ := eq_of_map_eq_ok h
    exact .inr ⟨_, _, _, rfl⟩
  · exact .inr ⟨_, _, _, (Except.ok.inj h).symm⟩

theorem ofDraft_set {d e : Draft} {element : List Symbol} {raw : List Char}
    (hother : element ≠ Symbols.ofString field.name) (h : d.set element raw = .ok e) :
    field.ofDraft e = field.ofDraft d := by
  rcases exists_of_set h with ⟨other, rfl, rfl⟩ | ⟨line, indices, order, rfl⟩
  · refine ofDraft_put_of_ne ?_ d _
    rintro rfl
    exact hother rfl
  · cases field <;> rfl

theorem ofFinding_finding? {d : Draft} {f : Finding} (h : d.finding? = some f) :
    field.ofFinding f = field.ofDraft d := by
  simp only [Draft.finding?, Option.bind_eq_bind, Option.bind_eq_some_iff, Option.pure_def,
    Option.some.injEq] at h
  obtain ⟨line, -, sourceFile, hsourceFile, mutatedClass, hmutatedClass, mutatedMethod,
    hmutatedMethod, descriptor, hdescriptor, operator, hoperator, rfl⟩ := h
  cases field
  · exact hsourceFile.symm
  · exact hmutatedClass.symm
  · exact hmutatedMethod.symm
  · exact hdescriptor.symm
  · exact hoperator.symm
  · rfl

def Keeps : Event → Prop
  | .start tag => tag.name ≠ Symbols.ofString "mutation"
  | .finish name => name ≠ Symbols.ofString "mutation" ∧ name ≠ Symbols.ofString field.name
  | _ => True

variable {field} {s t : State} {d : Draft}

theorem ofDraft_step {e : Event} (he : field.Keeps e) (hd : s.current = some d)
    (h : s.step e = .ok t) : ∃ d', t.current = some d' ∧ field.ofDraft d' = field.ofDraft d := by
  cases State.stepped h with
  | mutation _ name => exact absurd name he
  | record => exact absurd rfl he.1
  | field _ current hset =>
    cases hd.symm.trans current
    exact ⟨_, rfl, field.ofDraft_set he.2 hset⟩
  | outside _ current => cases hd.symm.trans current
  | _ => exact ⟨d, hd, rfl⟩

theorem ofDraft_foldlM {es : List Event} (hes : ∀ e ∈ es, field.Keeps e) (hd : s.current = some d)
    (h : es.foldlM State.step s = .ok t) :
    ∃ d', t.current = some d' ∧ field.ofDraft d' = field.ofDraft d := by
  induction es generalizing s d with
  | nil =>
    cases h
    exact ⟨d, hd, rfl⟩
  | cons e es ih =>
    obtain ⟨u, hu, hrest⟩ := foldlM_cons_eq_ok_iff.1 h
    obtain ⟨hfirst, hes⟩ := List.forall_mem_cons.1 hes
    obtain ⟨d', hd', hsame⟩ := ofDraft_step hfirst hd hu
    obtain ⟨d'', hd'', hkept⟩ := ih hes hd' hrest
    exact ⟨d'', hd'', hkept.trans hsame⟩

end TextField

/-- The element of a field: its tags as they are written, with pieces of text in between. -/
def fieldElement (tag : TagText) (ps : List TextPiece) (gap : List Char) : List Char :=
  tag.opening ++ (TextPiece.writtenAll ps ++ tag.closing gap)

def State.withDraft (s : State) (d : Draft) : State := { s with current := some d, text := [] }

theorem State.resume_fieldElement (field : TextField) {s : State} {d : Draft}
    (hroot : s.seenRoot = true) (hd : s.current = some d) (opened : List (List Symbol))
    {tag : TagText} (htag : tag.name = field.name.toList) {gap : List Char}
    (hgap : ∀ c ∈ gap, isSpaceChar c = true) (ps : List TextPiece) {rest : List Symbol}
    (hrest : Legible rest) :
    s.resume opened (Symbols.ofChars (fieldElement tag ps gap) ++ rest) =
      (s.withDraft (field.put d (String.ofList (trim (TextPiece.valueAll ps))))).resume
        opened rest := by
  have hname : Symbols.ofChars tag.name = Symbols.ofString field.name := by rw [htag]; rfl
  have hopening : s.step (.start tag.startTag) = .ok { s with text := [] } := by
    rw [step, onStart, if_pos hroot, if_neg]
    rw [tag.hasName_startTag, hname]
    exact field.name_ne_mutation
  have hclosing : ({ s with text := TextPiece.valueAll ps } : State).step
      (.finish (Symbols.ofChars tag.name)) =
        .ok (s.withDraft (field.put d (String.ofList (trim (TextPiece.valueAll ps))))) := by
    rw [step, onFinish, hname, if_neg field.name_ne_mutation]
    simp only [hd, field.set_name]
    rfl
  have hbehind : Legible (Symbols.ofChars (tag.closing gap) ++ rest) := hrest.append _
  rw [fieldElement, Symbols.ofChars_append, Symbols.ofChars_append, List.append_assoc,
    List.append_assoc, resume, tag.inside_opening opened]
  refine (Stream.feed_before_of_ok _ hopening _).trans ?_
  refine (resume_pieces { s with text := [] } _ hbehind ps).trans ?_
  rw [addText, List.nil_append, resume, tag.inside_closing opened rest hgap]
  exact Stream.feed_before_of_ok _ hclosing _

/-- A field of a mutation is read as the text that its pieces stand for, trimmed, and the finding of
the mutation has that text unless the mutation has another such element. -/
theorem read_fieldElement (field : TextField) {front : String} {opened : List (List Symbol)}
    (hfront : Opens front opened) {s : State} (hs : State.behind front = .ok s) {d : Draft}
    (hd : s.current = some d) {tag : TagText} (htag : tag.name = field.name.toList)
    {gap : List Char} (hgap : ∀ c ∈ gap, isSpaceChar c = true) {t : String} {ps : List TextPiece}
    (ht : TextPiece.valueAll ps = t.toList) :
    (∀ back : String, read (front ++ String.ofList (fieldElement tag ps gap) ++ back) =
      ((s.withDraft (field.put d (trimmed t))).resume opened (Symbols.ofString back)).bind
        State.finish) ∧
    ∀ (inner : String) (u : State),
      (s.withDraft (field.put d (trimmed t))).after (Symbols.ofString inner) = .ok u →
      (∀ e ∈ (Stream.parts (Symbols.ofString inner)).events, field.Keeps e) →
        ∃ d', u.current = some d' ∧ field.ofDraft d' = some (trimmed t) ∧
          ∀ f, d'.finding? = some f → field.ofFinding f = some (trimmed t) := by
  have hroot : s.seenRoot = true := (State.enclosed_behind hfront hs).root (by rw [hd]; rfl)
  constructor
  · intro back
    have hback : ∀ c ∈ (String.ofList (fieldElement tag ps gap) ++ back).toList.head?,
        c ≠ '\uFEFF' := by
      intro c hc
      rw [String.toList_append, String.toList_ofList] at hc
      cases hc
      decide
    rw [String.append_assoc, read_append hfront (.inr hback), hs, Symbols.ofString_append,
      Symbols.ofString_ofList]
    simp only [Except.bind]
    rw [s.resume_fieldElement field hroot hd opened htag hgap ps (legible_ofString back), ht]
    rfl
  · intro inner u hu hkeeps
    obtain ⟨d', hd', hsame⟩ := TextField.ofDraft_foldlM hkeeps rfl hu
    have htext := hsame.trans (field.ofDraft_put d (trimmed t))
    exact ⟨d', hd', htext, fun f hf => (field.ofFinding_finding? hf).trans htext⟩

def mixedPieces : List TextPiece :=
  [.plain ['\n', 'a', ' '] (by simp [isMark]), .data ['<', '&'] (by decide),
    .comment ['-'] (by decide), .entity '>' ['g', 't'] rfl,
    .number 'é' true ['0', 'e', '9'] ⟨by decide, by decide⟩, .escaped ['&', '\u2003']]

def descriptionTag : TagText :=
  .written (show IsName "description" by decide) (List.forall_mem_nil Assignment.Fits) 1

/-- A mutation whose first field is spelled so, with a blank in the closing tag, too. -/
theorem read_fieldElement_mixed :
    read ("<mutations><mutation>" ++
        String.ofList (fieldElement descriptionTag mixedPieces [' ']) ++
        "<mutator>M</mutator><lineNumber>7</lineNumber><sourceFile></sourceFile><mutatedClass>A" ++
        "</mutatedClass><mutatedMethod>m</mutatedMethod><methodDescription>()V" ++
        "</methodDescription></mutation></mutations>") =
      .ok [{ mutatedClass := "A", mutatedMethod := "m", descriptor := "()V", line := 7,
             operator := "M", description := some "a <&>é&" }] := by
  have hs :
      State.behind "<mutations><mutation>" = .ok { seenRoot := true, current := some {} } := by
    decide +kernel
  have hfront : Opens "<mutations><mutation>"
      [Symbols.ofString "mutation", Symbols.ofString "mutations"] := by
    decide +kernel
  have htag : descriptionTag.name = TextField.description.name.toList := rfl
  have hgap : ∀ c ∈ [' '], isSpaceChar c = true := List.forall_mem_singleton.2 rfl
  have hpieces : TextPiece.valueAll mixedPieces = "\na <&>é&\u2003".toList := by decide
  have hread := (read_fieldElement .description hfront hs rfl htag hgap hpieces).1
  rw [String.append_assoc, String.append_assoc, hread]
  decide +kernel

end Relocate.Report
