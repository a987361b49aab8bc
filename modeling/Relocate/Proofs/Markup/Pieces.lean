import Relocate.Error
import Relocate.Proofs.Markup.Tags

/-!
# Documents piece by piece

What a reader makes of a document follows from its pieces, read one after the other: here the rest
of a document stands for all that is still to be read, inside the elements that are open there. One
lemma per kind of piece says what event it gives and what is left.
-/

set_option autoImplicit false

namespace Relocate.Markup

open Relocate.Text

def AtMark (ss : List Symbol) : Prop := ∀ s ∈ ss.head?, isMark s = true

theorem isMark_of_isPlain {c : Char} (h : IsPlain c) : isMark (.char c) = false := by
  simp [isMark, h.ne (d := '<') (by decide), h.ne (d := '&') (by decide)]

theorem atMark_nil : AtMark [] := fun _ h => by cases h

theorem atMark_cons {s : Symbol} (h : isMark s = true) (ss : List Symbol) : AtMark (s :: ss) := by
  intro t ht
  cases ht
  exact h

def Legible (ss : List Symbol) : Prop :=
  ∃ run behind, ss = Symbols.ofChars run ++ behind ∧ (∀ c ∈ run, isMark (.char c) = false) ∧
    AtMark behind

theorem AtMark.legible {ss : List Symbol} (h : AtMark ss) : Legible ss :=
  ⟨[], ss, rfl, List.forall_mem_nil _, h⟩

theorem Legible.append {ss : List Symbol} (h : Legible ss) (cs : List Char) :
    Legible (Symbols.ofChars cs ++ ss) := by
  induction cs with
  | nil => exact h
  | cons c cs ih =>
    cases hc : isMark (.char c) with
    | true => exact (atMark_cons hc _).legible
    | false =>
      obtain ⟨run, behind, heq, hrun, hbehind⟩ := ih
      exact ⟨c :: run, behind, congrArg (Symbol.char c :: ·) heq,
        List.forall_mem_cons.2 ⟨hc, hrun⟩, hbehind⟩

theorem legible_ofChars (cs : List Char) : Legible (Symbols.ofChars cs) := by
  have hall := atMark_nil.legible.append cs
  rwa [List.append_nil] at hall

theorem legible_ofString (text : String) : Legible (Symbols.ofString text) :=
  legible_ofChars text.toList

def Event.isFlat : Event → Bool
  | .start _ => false
  | .finish _ => false
  | _ => true

namespace Stream

/-- The rest of a document inside the open elements, the innermost first. -/
def inside (opened : List (List Symbol)) (ss : List Symbol) : Stream :=
  balanced (parts ss).fault opened (parts ss).events

theorem parts_of_cut {s : Symbol} {rest behind : List Symbol} {e : Event}
    (h : cut s rest = .ok (e, behind)) : parts (s :: rest) = (parts behind).before e := by
  rw [parts]
  split
  · rename_i heq
    cases h.symm.trans heq
    rfl
  · rename_i heq
    cases h.symm.trans heq

section

variable (opened : List (List Symbol))

@[simp] theorem inside_nil : inside opened [] = {} := by rw [inside, parts, balanced]

variable {s : Symbol} {rest behind : List Symbol}

theorem inside_of_start {t : StartTag} (h : cut s rest = .ok (.start t, behind)) :
    inside opened (s :: rest) = (inside (t.name :: opened) behind).before (.start t) := by
  rw [inside, parts_of_cut h]
  rfl

theorem inside_of_finish {name : List Symbol} (h : cut s rest = .ok (.finish name, behind)) :
    inside (name :: opened) (s :: rest) = (inside opened behind).before (.finish name) := by
  rw [inside, parts_of_cut h]
  exact if_pos rfl

theorem inside_of_isFlat {e : Event} (h : cut s rest = .ok (e, behind)) (he : e.isFlat = true) :
    inside opened (s :: rest) = (inside opened behind).before e := by
  rw [inside, parts_of_cut h]
  cases e with
  | start _ => cases he
  | finish _ => cases he
  | empty _ => rfl
  | text _ => rfl
  | data _ => rfl
  | reference _ => rfl
  | aside => rfl

end

end Stream

/-! ### Tags -/

theorem cut_tag {content : List Symbol} (hclosed : Closed content)
    (hfirst : ∀ s ∈ content.head?, s ≠ .char '!' ∧ s ≠ .char '?') (rest : List Symbol) :
    cut (.char '<') (content ++ .char '>' :: rest) = .ok (tagEvent content, rest) := by
  have hhead : ∀ c, c ≠ '>' → ∀ ss, content ++ .char '>' :: rest = .char c :: ss →
      .char c ∈ content.head? := by
    intro c hc ss heq
    cases content with
    | nil => exact absurd (Symbol.char.inj (List.cons.inj heq).1).symm hc
    | cons s content => exact congrArg some (List.cons.inj heq).1
  have hmarkup : cutMarkup (content ++ .char '>' :: rest) = .ok (tagEvent content, rest) := by
    unfold cutMarkup
    split
    · rename_i heq
      exact absurd rfl (hfirst _ (hhead '!' (by decide) _ heq)).1
    · rename_i heq
      exact absurd rfl (hfirst _ (hhead '?' (by decide) _ heq)).2
    · rw [tagContent?_of_closed hclosed]
      rfl
  rw [cut, if_pos rfl, hmarkup]

theorem tagEvent_of_head {content : List Symbol} (h : ∀ s ∈ content.head?, s ≠ .char '/') :
    tagEvent content = match content.getLast? with
      | some (.char '/') => .empty ⟨content.dropLast⟩
      | _ => .start ⟨content⟩ := by
  unfold tagEvent
  split
  · exact absurd rfl (h _ rfl)
  · rfl

/-- A tag of an element as it may be written: its name, and behind white space all that follows. -/
structure TagText where
  name : List Char
  behind : List Char
  nonempty : name ≠ []
  /-- Else it would be no tag, or that of the end of an element. -/
  first : ∀ c ∈ name.head?, c ≠ '!' ∧ c ≠ '?' ∧ c ≠ '/'
  unspaced : ∀ c ∈ name, isSpaceChar c = false
  spaced : ∀ c ∈ behind.head?, isSpaceChar c = true
  closedName : Closed (Symbols.ofChars name)
  closedBehind : Closed (Symbols.ofChars behind)
  /-- Else an opening tag would look like that of an empty element. -/
  last : (name ++ behind).getLast? ≠ some '/'

namespace TagText

variable (t : TagText)

def startTag : StartTag := ⟨Symbols.ofChars (t.name ++ t.behind)⟩

def opening : List Char := '<' :: (t.name ++ t.behind ++ ['>'])

def empty : List Char := '<' :: (t.name ++ t.behind ++ ['/', '>'])

def closing (gap : List Char) : List Char := '<' :: '/' :: (t.name ++ gap ++ ['>'])

theorem not_isSpace {s : Symbol} (hs : s ∈ Symbols.ofChars t.name) : isSpace s = false := by
  obtain ⟨c, hc, rfl⟩ := Symbols.mem_ofChars.1 hs
  exact t.unspaced c hc

theorem name_startTag : t.startTag.name = Symbols.ofChars t.name := by
  rw [StartTag.name, startTag, Symbols.ofChars_append]
  refine takeWhile_append_of_head (fun s hs => ?_) fun s hs => ?_
  · rw [t.not_isSpace hs]
    rfl
  · rw [Symbols.ofChars, List.head?_map] at hs
    obtain ⟨c, hc, rfl⟩ := Option.map_eq_some_iff.1 hs
    rw [isSpace, t.spaced c hc]
    rfl

theorem hasName_startTag {name : String} :
    t.startTag.hasName name = true ↔ Symbols.ofChars t.name = Symbols.ofString name := by
  rw [StartTag.hasName_iff, name_startTag]

theorem closed : Closed (Symbols.ofChars (t.name ++ t.behind)) := by
  rw [Symbols.ofChars_append]
  exact t.closedName.append t.closedBehind

theorem head?_content (rest : List Symbol) :
    ∀ s ∈ (Symbols.ofChars (t.name ++ t.behind) ++ rest).head?,
      s ≠ .char '!' ∧ s ≠ .char '?' ∧ s ≠ .char '/' := by
  obtain ⟨c, cs, hcs⟩ := List.exists_cons_of_ne_nil t.nonempty
  have hc := t.first c (by rw [hcs]; rfl)
  rw [hcs]
  intro s hs
  cases hs
  exact ⟨fun h => hc.1 (Symbol.char.inj h), fun h => hc.2.1 (Symbol.char.inj h),
    fun h => hc.2.2 (Symbol.char.inj h)⟩

theorem tagEvent_opening :
    tagEvent (Symbols.ofChars (t.name ++ t.behind)) = .start t.startTag := by
  have hhead := t.head?_content []
  rw [List.append_nil] at hhead
  rw [tagEvent_of_head fun s hs => (hhead s hs).2.2]
  split
  · rename_i heq
    rw [Symbols.ofChars, List.getLast?_map] at heq
    obtain ⟨c, hc, hslash⟩ := Option.map_eq_some_iff.1 heq
    exact absurd (Symbol.char.inj hslash ▸ hc) t.last
  · rfl

theorem tagEvent_empty :
    tagEvent (Symbols.ofChars (t.name ++ t.behind) ++ [.char '/']) = .empty t.startTag := by
  rw [tagEvent_of_head fun s hs => (t.head?_content _ s hs).2.2, List.getLast?_concat,
    List.dropLast_concat]
  rfl

theorem trimName_gap {gap : List Char} (hgap : ∀ c ∈ gap, isSpaceChar c = true) :
    trimName (Symbols.ofChars (t.name ++ gap)) = Symbols.ofChars t.name := by
  obtain ⟨c, cs, hcs⟩ := List.exists_cons_of_ne_nil t.nonempty
  have hname : ¬ (Symbols.ofChars (t.name ++ gap)).all isSpace = true := by
    intro hall
    have hc := List.all_eq_true.1 hall (.char c) (by simp [hcs, Symbols.ofChars])
    rw [t.not_isSpace (by simp [hcs, Symbols.ofChars])] at hc
    cases hc
  rw [trimName, if_neg hname, Symbols.ofChars_append, List.reverse_append,
    dropWhile_append_of_head, List.reverse_reverse]
  · intro s hs
    obtain ⟨d, hd, rfl⟩ := Symbols.mem_ofChars.1 (List.mem_reverse.1 hs)
    exact hgap d hd
  · intro s hs
    exact t.not_isSpace (List.mem_reverse.1 (List.mem_of_mem_head? hs))

section

variable (opened : List (List Symbol)) (rest : List Symbol)

theorem inside_opening :
    Stream.inside opened (Symbols.ofChars t.opening ++ rest) =
      (Stream.inside (Symbols.ofChars t.name :: opened) rest).before (.start t.startTag) := by
  have hhead := t.head?_content []
  rw [List.append_nil] at hhead
  have hcut := cut_tag t.closed (fun s hs => ⟨(hhead s hs).1, (hhead s hs).2.1⟩) rest
  rw [tagEvent_opening] at hcut
  have hshape : Symbols.ofChars t.opening ++ rest =
      .char '<' :: (Symbols.ofChars (t.name ++ t.behind) ++ .char '>' :: rest) := by
    simp [opening, Symbols.ofChars]
  rw [hshape, Stream.inside_of_start _ hcut, name_startTag]

theorem inside_empty :
    Stream.inside opened (Symbols.ofChars t.empty ++ rest) =
      (Stream.inside opened rest).before (.empty t.startTag) := by
  have hslash : Closed [.char '/'] := .cons (by simp) (by simp) .nil
  have hcut := cut_tag (t.closed.append hslash)
    (fun s hs => ⟨(t.head?_content _ s hs).1, (t.head?_content _ s hs).2.1⟩) rest
  rw [tagEvent_empty] at hcut
  have hshape : Symbols.ofChars t.empty ++ rest =
      .char '<' :: ((Symbols.ofChars (t.name ++ t.behind) ++ [.char '/']) ++
        .char '>' :: rest) := by
    simp [empty, Symbols.ofChars]
  rw [hshape, Stream.inside_of_isFlat _ hcut rfl]

theorem inside_closing {gap : List Char} (hgap : ∀ c ∈ gap, isSpaceChar c = true) :
    Stream.inside (Symbols.ofChars t.name :: opened) (Symbols.ofChars (t.closing gap) ++ rest) =
      (Stream.inside opened rest).before (.finish (Symbols.ofChars t.name)) := by
  have hspaces : Closed (Symbols.ofChars gap) := by
    refine .of_unquoted fun s hs => ?_
    obtain ⟨c, hc, rfl⟩ := Symbols.mem_ofChars.1 hs
    refine ⟨⟨?_, ?_⟩, ?_⟩ <;>
      exact fun heq => absurd (Symbol.char.inj heq ▸ hgap c hc) (by decide)
  have hcontent : Closed (.char '/' :: Symbols.ofChars (t.name ++ gap)) := by
    rw [Symbols.ofChars_append]
    exact .cons (by simp) (by simp) (t.closedName.append hspaces)
  have hcut := cut_tag hcontent (fun s hs => by cases hs; decide) rest
  have hevent : tagEvent (.char '/' :: Symbols.ofChars (t.name ++ gap)) =
      .finish (Symbols.ofChars t.name) := congrArg Event.finish (t.trimName_gap hgap)
  rw [hevent] at hcut
  have hshape : Symbols.ofChars (t.closing gap) ++ rest =
      .char '<' :: ((.char '/' :: Symbols.ofChars (t.name ++ gap)) ++ .char '>' :: rest) := by
    simp [closing, Symbols.ofChars]
  rw [hshape, Stream.inside_of_finish _ hcut]

end

end TagText

/-! ### Tags of written documents -/

theorem getLast?_tagChars {name : String} (hname : IsName name) {as : List Assignment}
    (hfits : ∀ a ∈ as, a.Fits) (blanks : Nat) : (tagChars name as blanks).getLast? ≠ some '/' := by
  have hor : ∀ xs ys : List Char, xs.getLast? ≠ some '/' → ys.getLast? ≠ some '/' →
      (xs ++ ys).getLast? ≠ some '/' := by
    intro xs ys hxs hys
    rw [List.getLast?_append]
    cases hlast : ys.getLast? with
    | none => exact hxs
    | some c => exact fun heq => hys (hlast.trans heq)
  refine hor _ _ (fun h => ?_) (hor _ _ ?_ fun h => ?_)
  · exact hname.ne_of_mem (List.mem_of_getLast? h) (by decide) rfl
  · induction as with
    | nil => simp
    | cons a as ih =>
      rw [List.flatMap_cons]
      refine hor _ _ ?_ (ih fun b hb => hfits b (List.mem_cons_of_mem _ hb))
      have hlast : a.chars.getLast? = some a.quote := by
        rw [Assignment.chars, ← List.cons_append]
        simp [List.getLast?_append, List.getLast?_cons]
      rcases (hfits a List.mem_cons_self).quote with hq | hq <;> rw [hlast, hq] <;> decide
  · exact absurd (List.eq_of_mem_replicate (List.mem_of_getLast? h)) (by decide)

def TagText.written {name : String} (hname : IsName name) {as : List Assignment}
    (hfits : ∀ a ∈ as, a.Fits) (blanks : Nat) : TagText where
  name := name.toList
  behind := as.flatMap Assignment.chars ++ List.replicate blanks ' '
  nonempty := hname.nonempty
  first := fun c hc =>
    have hne := fun d hd => hname.ne_of_mem (d := d) (List.mem_of_mem_head? hc) hd
    ⟨hne '!' (by decide), hne '?' (by decide), hne '/' (by decide)⟩
  unspaced := fun c hc => hname.not_isSpace (List.mem_map_of_mem hc)
  spaced := fun c hc => by
    rw [head?_behindName as blanks c hc]
    rfl
  closedName := .name hname
  closedBehind := .behindName hfits blanks
  last := getLast?_tagChars hname hfits blanks

def openingTag (name : String) (as : List Assignment) (blanks : Nat) : List Char :=
  '<' :: (tagChars name as blanks ++ ['>'])

def emptyTag (name : String) (as : List Assignment) (blanks : Nat) : List Char :=
  '<' :: (tagChars name as blanks ++ ['/', '>'])

def closingTag (name : String) : List Char := '<' :: '/' :: (name.toList ++ ['>'])

theorem atMark_openingTag (name : String) (as : List Assignment) (blanks : Nat)
    (rest : List Symbol) : AtMark (Symbols.ofChars (openingTag name as blanks) ++ rest) :=
  atMark_cons rfl _

theorem atMark_closingTag (name : String) (rest : List Symbol) :
    AtMark (Symbols.ofChars (closingTag name) ++ rest) := atMark_cons rfl _

namespace Stream

section

variable (opened : List (List Symbol)) {name : String} (hname : IsName name) {as : List Assignment}
  (hfits : ∀ a ∈ as, a.Fits) (blanks : Nat) (rest : List Symbol)

include hname

theorem inside_closingTag :
    inside (Symbols.ofString name :: opened) (Symbols.ofChars (closingTag name) ++ rest) =
      (inside opened rest).before (.finish (Symbols.ofString name)) := by
  have hclosing := (TagText.written hname (List.forall_mem_nil Assignment.Fits) 0).inside_closing
    opened rest (List.forall_mem_nil _)
  rwa [TagText.closing, List.append_nil] at hclosing

include hfits

theorem inside_openingTag :
    inside opened (Symbols.ofChars (openingTag name as blanks) ++ rest) =
      (inside (Symbols.ofString name :: opened) rest).before
        (.start (writtenTag name as blanks)) :=
  (TagText.written hname hfits blanks).inside_opening opened rest

theorem inside_emptyTag :
    inside opened (Symbols.ofChars (emptyTag name as blanks) ++ rest) =
      (inside opened rest).before (.empty (writtenTag name as blanks)) :=
  (TagText.written hname hfits blanks).inside_empty opened rest

end

end Stream

/-! ### End marks -/

section

variable {first : Char} {next : List Char}

theorem splitAt?_self (rest : List Symbol) :
    splitAt? (first :: next) (Symbols.ofChars (first :: next) ++ rest) = some ([], rest) := by
  have hprefix : Symbols.ofChars (first :: next) <+: Symbols.ofChars (first :: next) ++ rest :=
    List.prefix_append _ _
  have hdrop : (Symbols.ofChars (first :: next) ++ rest).drop (first :: next).length = rest :=
    List.drop_left' (List.length_map _)
  rw [Symbols.ofChars, List.map_cons, List.cons_append] at hprefix hdrop ⊢
  rw [splitAt?, Symbols.ofChars, List.map_cons, if_pos hprefix, hdrop]

theorem splitAt?_cons {pattern : List Char} {s : Symbol} {ss : List Symbol}
    (h : ¬ Symbols.ofChars pattern <+: s :: ss) :
    splitAt? pattern (s :: ss) = (splitAt? pattern ss).map fun p => (s :: p.1, p.2) := by
  rw [splitAt?, if_neg h]

end

/-- A mark that ends with a character it does not have before is found at its first place, since no
occurrence of it can overlap another. -/
theorem splitAt?_of_not_infix {front : List Char} {last : Char} (hlast : last ∉ front)
    {run : List Symbol} (hrun : ¬ Symbols.ofChars (front ++ [last]) <:+: run) (rest : List Symbol) :
    splitAt? (front ++ [last]) (run ++ (Symbols.ofChars (front ++ [last]) ++ rest)) =
      some (run, rest) := by
  induction run with
  | nil =>
    have hne : front ++ [last] ≠ [] := List.append_ne_nil_of_right_ne_nil front (by simp)
    obtain ⟨first, next, heq⟩ := List.exists_cons_of_ne_nil hne
    rw [heq]
    exact splitAt?_self rest
  | cons s run ih =>
    set mark := Symbols.ofChars (front ++ [last]) with hmark
    have hno : ¬ mark <+: s :: (run ++ (mark ++ rest)) := by
      intro hprefix
      rcases Nat.lt_or_ge (s :: run).length mark.length with hshort | hlong
      · -- The last symbol of this occurrence stands inside the other, before its end.
        have hlength : mark.length = front.length + 1 := by simp [hmark, Symbols.ofChars]
        obtain ⟨more, hmore⟩ := hprefix
        have hend : (mark ++ more)[front.length]? = some (.char last) := by
          simp [hmark, Symbols.ofChars]
        rw [hmore, ← List.cons_append, List.getElem?_append_right (by omega),
          List.getElem?_append_left (by omega)] at hend
        have hbefore : front.length - (s :: run).length < front.length := by
          simp only [List.length_cons] at hshort ⊢
          omega
        rw [hmark, Symbols.ofChars, List.getElem?_map, List.getElem?_append_left hbefore,
          List.getElem?_eq_getElem hbefore] at hend
        exact hlast (Symbol.char.inj (Option.some.inj hend) ▸ List.getElem_mem hbefore)
      · refine hrun (List.IsPrefix.isInfix ?_)
        exact List.prefix_of_prefix_length_le hprefix (List.prefix_append (s :: run) _) hlong
    have hrest := ih fun h => hrun (h.trans (List.suffix_cons s run).isInfix)
    rw [List.cons_append, splitAt?_cons hno, hrest]
    rfl

/-! ### Text, references and asides -/

theorem cut_text {s : Symbol} (hs : isMark s = false) (ss : List Symbol) :
    cut s ss = .ok (.text (s :: ss.takeWhile fun t => !isMark t),
      ss.dropWhile fun t => !isMark t) := by
  have hmark : s ≠ .char '<' ∧ s ≠ .char '&' := by
    constructor <;> rintro rfl <;> cases hs
  rw [cut, if_neg hmark.1, if_neg hmark.2]

namespace Stream

section

variable (opened : List (List Symbol))

theorem inside_text {run ss : List Symbol} (hne : run ≠ []) (hrun : ∀ s ∈ run, isMark s = false)
    (hss : AtMark ss) : inside opened (run ++ ss) = (inside opened ss).before (.text run) := by
  obtain ⟨s, run, rfl⟩ := List.exists_cons_of_ne_nil hne
  have hs := hrun s List.mem_cons_self
  have htail : ∀ t ∈ run, (!isMark t) = true := fun t ht => by
    rw [hrun t (List.mem_cons_of_mem _ ht)]
    rfl
  have hhead : ∀ t ∈ ss.head?, (!isMark t) = false := fun t ht => by
    rw [hss t ht]
    rfl
  have hcut : cut s (run ++ ss) = .ok (.text (s :: run), ss) := by
    rw [cut_text hs, takeWhile_append_of_head htail hhead, dropWhile_append_of_head htail hhead]
  rw [List.cons_append, inside_of_isFlat _ hcut rfl]

theorem inside_reference {name : List Symbol}
    (hname : ∀ s ∈ name, isMark s = false ∧ s ≠ .char ';') (rest : List Symbol) :
    inside opened (.char '&' :: (name ++ .char ';' :: rest)) =
      (inside opened rest).before (.reference name) := by
  have hpass : ∀ s ∈ name, (!isMark s && s != .char ';') = true := by
    intro s hs
    simp [hname s hs]
  have hstop : ∀ s ∈ (Symbol.char ';' :: rest).head?, (!isMark s && s != .char ';') = false := by
    intro s hs
    cases hs
    rfl
  have hcut : cut (.char '&') (name ++ .char ';' :: rest) = .ok (.reference name, rest) := by
    rw [cut, if_neg (by decide), if_pos rfl, cutReference]
    simp only [takeWhile_append_of_head hpass hstop, dropWhile_append_of_head hpass hstop]
  exact inside_of_isFlat _ hcut rfl

theorem inside_data {content : List Symbol} (hcontent : ¬ Symbols.ofString "]]>" <:+: content)
    (rest : List Symbol) :
    inside opened (Symbols.ofString "<![CDATA[" ++ (content ++ (Symbols.ofString "]]>" ++ rest))) =
      (inside opened rest).before (.data content) := by
  have hlast : '>' ∉ [']', ']'] := by decide
  have hsplit := splitAt?_of_not_infix hlast hcontent rest
  refine inside_of_isFlat (s := .char '<') _ (e := .data content) ?_ rfl
  exact congrArg (fun found => cutAt found .unclosedSection fun d => .ok (.data d)) hsplit

theorem inside_comment {content : List Symbol} (hcontent : ¬ Symbols.ofString "-->" <:+: content)
    (rest : List Symbol) :
    inside opened (Symbols.ofString "<!--" ++ (content ++ (Symbols.ofString "-->" ++ rest))) =
      (inside opened rest).before .aside := by
  have hlast : '>' ∉ ['-', '-'] := by decide
  have hsplit := splitAt?_of_not_infix hlast hcontent rest
  refine inside_of_isFlat (s := .char '<') _ (e := .aside) ?_ rfl
  exact congrArg (fun found => cutAt found .unclosedComment fun _ => .ok .aside) hsplit

theorem inside_instruction {content : List Symbol} (hcontent : ¬ Symbols.ofString "?>" <:+: content)
    (hfirst : ∀ s ∈ content.head?, s ≠ .char '>') (rest : List Symbol) :
    inside opened (Symbols.ofString "<?" ++ (content ++ (Symbols.ofString "?>" ++ rest))) =
      (inside opened rest).before .aside := by
  have hlast : '>' ∉ ['?'] := by decide
  have hsplit := splitAt?_of_not_infix hlast hcontent rest
  have hcut : cut (.char '<') (.char '?' :: (content ++ (Symbols.ofString "?>" ++ rest))) =
      .ok (.aside, rest) := by
    rw [cut, if_pos rfl, cutMarkup]
    · exact congrArg (fun found => cutAt found .unclosedInstruction fun _ => .ok .aside) hsplit
    · intro behind heq
      cases content with
      | nil => cases heq
      | cons s content => exact hfirst s rfl (List.cons.inj heq).1
  exact inside_of_isFlat _ hcut rfl

end

/-! ### Readers -/

section

variable {σ : Type} (step : σ → Event → Except Error σ)

/-- The state that a reader reaches at the end of the stream, a fault of the stream included. -/
def feed (s : σ) (stream : Stream) : Except Error σ :=
  (stream.events.foldlM step s).bind fun s =>
    match stream.fault with
    | some f => .error (.markup f)
    | none => .ok s

@[simp] theorem feed_nil (s : σ) : feed step s {} = .ok s := rfl

theorem feed_before (s : σ) (e : Event) (stream : Stream) :
    feed step s (stream.before e) = (step s e).bind fun s => feed step s stream := by
  rw [feed, before, List.foldlM_cons]
  cases h : step s e with
  | error _ => rfl
  | ok _ => rfl

theorem feed_before_of_ok {s s' : σ} {e : Event} (h : step s e = .ok s') (stream : Stream) :
    feed step s (stream.before e) = feed step s' stream := by
  rw [feed_before, h]
  rfl

theorem feed_bind {α : Type} (s : σ) (stream : Stream) (finish : σ → Except Error α) :
    (feed step s stream).bind finish = (stream.events.foldlM step s).bind fun s =>
      match stream.fault with
      | some f => .error (.markup f)
      | none => finish s := by
  rw [feed]
  cases stream.events.foldlM step s with
  | error _ => rfl
  | ok s => cases stream.fault <;> rfl

end

end Stream

end Relocate.Markup
