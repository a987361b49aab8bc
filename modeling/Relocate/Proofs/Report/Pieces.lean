import Relocate.Proofs.Interchange.RoundTrip
import Relocate.Report.Reader
import Relocate.Report.Writer

/-!
# Reports piece by piece

How the pieces of a report act on the state of its reader. Text gathers behind the last tag, however
escaping cuts it up. Inside a mutation an element hands its text to the draft, and an element around
others that is no field leaves the draft as it is.
-/

set_option autoImplicit false

namespace Relocate.Report

open Relocate.Text Relocate.Markup
open Relocate.Interchange (escaped)

def elements (fields : List (String × String)) : List Char :=
  fields.flatMap fun p => element p.1 p.2

def Inner (fields : List (String × String)) : Prop :=
  ∀ p ∈ fields, IsName p.1 ∧ p.1 ≠ "mutation"

theorem Inner.nil : Inner [] := List.forall_mem_nil _

theorem Inner.cons {name : String} (hname : IsName name) (hother : name ≠ "mutation")
    {fields : List (String × String)} (h : Inner fields) (text : String) :
    Inner ((name, text) :: fields) := by
  intro p hp
  rcases List.mem_cons.1 hp with rfl | hp
  · exact ⟨hname, hother⟩
  · exact h p hp

def Draft.setAll (d : Draft) (fields : List (String × String)) : Except Error Draft :=
  fields.foldlM (fun d p => d.set (Symbols.ofString p.1) p.2.toList) d

namespace State

def resume (s : State) (opened : List (List Symbol)) (rest : List Symbol) : Except Error State :=
  Stream.feed step s (Stream.inside opened rest)

@[simp] theorem resume_nil (s : State) (opened : List (List Symbol)) :
    s.resume opened [] = .ok s := by
  rw [resume, Stream.inside_nil, Stream.feed_nil]

section

variable (s : State) (opened : List (List Symbol)) {rest : List Symbol}

omit opened in
@[simp] theorem addText_nil : s.addText [] = s := by
  rw [addText, List.append_nil]

omit opened in
theorem addText_addText (cs ds : List Char) : (s.addText cs).addText ds = s.addText (cs ++ ds) := by
  simp [addText]

theorem resume_text {run : List Char} (hrun : ∀ c ∈ run, isMark (.char c) = false)
    (hrest : AtMark rest) :
    s.resume opened (Symbols.ofChars run ++ rest) = (s.addText run).resume opened rest := by
  cases run with
  | nil => rw [addText_nil]; rfl
  | cons c cs =>
    have hmarks : ∀ t ∈ Symbols.ofChars (c :: cs), isMark t = false := by
      intro t ht
      obtain ⟨d, hd, rfl⟩ := Symbols.mem_ofChars.1 ht
      exact hrun d hd
    rw [resume, Stream.inside_text opened (by simp [Symbols.ofChars]) hmarks hrest]
    refine Stream.feed_before_of_ok _ ?_ _
    rw [step, Symbols.decode_ofChars]

/-- Text may be read in two parts, although it is one event with the text that follows it. -/
theorem resume_run {run : List Char} (hrun : ∀ c ∈ run, isMark (.char c) = false)
    (hrest : Legible rest) :
    s.resume opened (Symbols.ofChars run ++ rest) = (s.addText run).resume opened rest := by
  obtain ⟨more, behind, rfl, hmore, hbehind⟩ := hrest
  rw [← List.append_assoc, ← Symbols.ofChars_append, resume_text _ _ _ hbehind,
    resume_text _ _ hmore hbehind, addText_addText]
  exact List.forall_mem_append.2 ⟨hrun, hmore⟩

theorem resume_newline (hrest : AtMark rest) :
    s.resume opened (.char '\n' :: rest) = (s.addText ['\n']).resume opened rest := by
  have hrun : ∀ c ∈ ['\n'], isMark (.char c) = false := List.forall_mem_singleton.2 rfl
  exact s.resume_text opened hrun hrest

theorem referenceText_entity {c : Char} {name : List Char} (h : entity? c = some name) :
    referenceText (Symbols.ofChars name) = .ok c := by
  unfold referenceText
  rw [Symbols.decode_ofChars]
  split
  · rename_i heq
    cases heq
  · rename_i heq
    cases heq
    exact absurd rfl (of_mem_entity h List.mem_cons_self).2.1
  · rename_i heq
    cases heq
    rw [predefined?_entity h]

theorem resume_entity {c : Char} {name : List Char} (h : entity? c = some name) :
    s.resume opened (.char '&' :: (Symbols.ofChars name ++ .char ';' :: rest)) =
      (s.addText [c]).resume opened rest := by
  have hname : ∀ t ∈ Symbols.ofChars name, isMark t = false ∧ t ≠ .char ';' := by
    intro t ht
    obtain ⟨d, hd, rfl⟩ := Symbols.mem_ofChars.1 ht
    exact ⟨isMark_of_isPlain (of_mem_entity h hd).1,
      fun heq => (of_mem_entity h hd).2.2 (Symbol.char.inj heq)⟩
  rw [resume, Stream.inside_reference opened hname]
  refine Stream.feed_before_of_ok _ ?_ _
  rw [step, referenceText_entity h]
  rfl

theorem resume_escape (hrest : Legible rest) (cs : List Char) :
    s.resume opened (Symbols.ofChars (escape cs) ++ rest) = (s.addText cs).resume opened rest := by
  induction cs generalizing s with
  | nil => rw [addText_nil]; rfl
  | cons c cs ih =>
    have hrec := ih (s.addText [c])
    rw [addText_addText, List.singleton_append] at hrec
    rw [escape_cons, ← hrec]
    cases hc : entity? c with
    | none =>
      rw [escapeChar_of_isPlain hc, Symbols.ofChars_append, List.append_assoc]
      refine s.resume_run opened (fun d hd => ?_) (hrest.append _)
      rw [List.mem_singleton.1 hd]
      exact isMark_of_isPlain hc
    | some name =>
      have hshape : Symbols.ofChars (escapeChar c ++ escape cs) ++ rest = .char '&' ::
          (Symbols.ofChars name ++ .char ';' :: (Symbols.ofChars (escape cs) ++ rest)) := by
        rw [escapeChar_of_entity? hc]
        simp [Symbols.ofChars]
      rw [hshape, resume_entity _ _ hc]

end

def within (found : List Finding) (d : Draft) : State :=
  { found, seenRoot := true, current := some d, text := [] }

section

variable (found : List Finding) (d : Draft) (opened : List (List Symbol)) {name : String}
  (hname : IsName name) (hother : name ≠ "mutation") (rest : List Symbol)

include hname hother

theorem resume_openingTag :
    (within found d).resume opened (Symbols.ofChars (openingTag name [] 0) ++ rest) =
      (within found d).resume (Symbols.ofString name :: opened) rest := by
  rw [resume, Stream.inside_openingTag opened hname (List.forall_mem_nil _)]
  refine Stream.feed_before_of_ok _ ?_ _
  rw [step, onStart, hasName_writtenTag hname, decide_eq_false hother]
  rfl

theorem resume_closingTag (text : List Char) :
    ((within found d).addText text).resume (Symbols.ofString name :: opened)
        (Symbols.ofChars (closingTag name) ++ rest) =
      (d.set (Symbols.ofString name) text).bind fun d => (within found d).resume opened rest := by
  have hne : Symbols.ofString name ≠ Symbols.ofString "mutation" :=
    fun h => hother (Symbols.ofString_inj.1 h)
  rw [resume, Stream.inside_closingTag opened hname, Stream.feed_before, step, onFinish,
    if_neg hne]
  simp only [within, addText, List.nil_append]
  cases d.set (Symbols.ofString name) text <;> rfl

theorem resume_element (text : String) :
    (within found d).resume opened (Symbols.ofChars (element name text) ++ rest) =
      (d.set (Symbols.ofString name) text.toList).bind fun d =>
        (within found d).resume opened rest := by
  have hshape : Symbols.ofChars (element name text) ++ rest =
      Symbols.ofChars (openingTag name [] 0) ++ (Symbols.ofChars (escaped text) ++
        (Symbols.ofChars (closingTag name) ++ rest)) := by
    simp [element, openingTag, closingTag, tagChars, Symbols.ofChars]
  rw [hshape, resume_openingTag found d opened hname hother, escaped,
    resume_escape _ _ (atMark_closingTag name rest).legible,
    resume_closingTag found d opened hname hother]

end

theorem resume_elements (found : List Finding) (d : Draft) (opened : List (List Symbol))
    {fields : List (String × String)} (hfields : Inner fields)
    (rest : List Symbol) :
    (within found d).resume opened (Symbols.ofChars (elements fields) ++ rest) =
      (d.setAll fields).bind fun d => (within found d).resume opened rest := by
  induction fields generalizing d with
  | nil => rfl
  | cons p fields ih =>
    obtain ⟨hname, hother⟩ := hfields p List.mem_cons_self
    have hrest := fun d => ih d fun q hq => hfields q (List.mem_cons_of_mem _ hq)
    rw [elements, List.flatMap_cons, Symbols.ofChars_append, List.append_assoc,
      resume_element found d opened hname hother, Draft.setAll, List.foldlM_cons]
    cases d.set (Symbols.ofString p.1) p.2.toList with
    | error _ => rfl
    | ok e => exact hrest e

theorem resume_group (found : List Finding) (d : Draft) (opened : List (List Symbol))
    {name : String} (hname : IsName name) (hother : name ≠ "mutation")
    (hset : ∀ d : Draft, d.set (Symbols.ofString name) [] = .ok d)
    {fields : List (String × String)} (hfields : Inner fields)
    (rest : List Symbol) :
    (within found d).resume opened (Symbols.ofChars (openingTag name [] 0) ++
        (Symbols.ofChars (elements fields) ++ (Symbols.ofChars (closingTag name) ++ rest))) =
      (d.setAll fields).bind fun d => (within found d).resume opened rest := by
  rw [resume_openingTag found d opened hname hother, resume_elements found d _ hfields]
  refine congrArg _ (funext fun e => ?_)
  refine (resume_closingTag found e opened hname hother rest []).trans ?_
  rw [hset e]
  rfl

end State

theorem ofSymbols_eq_resume (ss : List Symbol) :
    ofSymbols ss = (State.resume {} [] (Stream.withoutMark ss)).bind State.finish := by
  rw [State.resume, Stream.feed_bind]
  rfl

end Relocate.Report
