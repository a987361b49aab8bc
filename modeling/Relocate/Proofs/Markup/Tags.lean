import Mathlib.Tactic.Set
import Relocate.Markup.Attribute
import Relocate.Proofs.Markup.Entities

/-!
# Tags as they are written

Writers put a name of letters first, then attributes, each behind one blank and with its value in
quotes of either kind, and perhaps blanks at the end. Such a tag is cut at its own end and nowhere
else, and it is read as the name and the attributes that it was written from.
-/

set_option autoImplicit false

namespace Relocate.Markup

open Relocate.Text

theorem Symbols.ofString_inj {a b : String} : Symbols.ofString a = Symbols.ofString b ↔ a = b := by
  have hinj : Function.Injective Symbol.char := fun c d h => Symbol.char.inj h
  rw [Symbols.ofString, Symbols.ofString, Symbols.ofChars, Symbols.ofChars,
    List.map_inj_right hinj, String.toList_inj]

theorem Symbols.ofString_append (a b : String) :
    Symbols.ofString (a ++ b) = Symbols.ofString a ++ Symbols.ofString b := by
  rw [Symbols.ofString, String.toList_append, Symbols.ofChars_append]
  rfl

theorem Symbols.ofString_ofList (cs : List Char) :
    Symbols.ofString (String.ofList cs) = Symbols.ofChars cs := by
  rw [Symbols.ofString, String.toList_ofList]

theorem Symbols.mem_ofChars {cs : List Char} {s : Symbol} :
    s ∈ Symbols.ofChars cs ↔ ∃ c ∈ cs, .char c = s := List.mem_map

theorem Symbols.eq_of_mem_blanks {n : Nat} {s : Symbol}
    (h : s ∈ Symbols.ofChars (List.replicate n ' ')) : s = .char ' ' := by
  obtain ⟨c, hc, rfl⟩ := Symbols.mem_ofChars.1 h
  rw [List.eq_of_mem_replicate hc]

theorem StartTag.hasName_iff {t : StartTag} {name : String} :
    t.hasName name = true ↔ t.name = Symbols.ofString name := beq_iff_eq

theorem StartTag.name_ne_of_hasName {t : StartTag} {name : String} (h : t.hasName name = false) :
    t.name ≠ Symbols.ofString name := beq_eq_false_iff_ne.1 h

structure IsName (name : String) : Prop where
  nonempty : name.toList ≠ []
  letters : name.toList.all Char.isAlpha = true

instance (name : String) : Decidable (IsName name) :=
  decidable_of_iff (name.toList ≠ [] ∧ name.toList.all Char.isAlpha = true)
    ⟨fun h => ⟨h.1, h.2⟩, fun h => ⟨h.1, h.2⟩⟩

namespace IsName

variable {name : String}

theorem ne_of_mem (h : IsName name) {c d : Char} (hc : c ∈ name.toList) (hd : d.isAlpha = false) :
    c ≠ d := by
  rintro rfl
  exact Bool.noConfusion (hd.symm.trans (List.all_eq_true.1 h.letters c hc))

theorem symbol_ne (h : IsName name) {s : Symbol} (hs : s ∈ Symbols.ofString name) {d : Char}
    (hd : d.isAlpha = false) : s ≠ .char d := by
  obtain ⟨c, hc, rfl⟩ := Symbols.mem_ofChars.1 hs
  exact fun heq => h.ne_of_mem hc hd (Symbol.char.inj heq)

theorem not_isSpace (h : IsName name) {s : Symbol} (hs : s ∈ Symbols.ofString name) :
    isSpace s = false := by
  obtain ⟨c, hc, rfl⟩ := Symbols.mem_ofChars.1 hs
  have hne := fun d hd => h.ne_of_mem (d := d) hc hd
  simp [isSpace, isSpaceChar, hne ' ' (by decide), hne '\t' (by decide), hne '\r' (by decide),
    hne '\n' (by decide)]

theorem eq_cons (h : IsName name) :
    ∃ c cs, name.toList = c :: cs ∧ c.isAlpha = true := by
  obtain ⟨c, cs, heq⟩ := List.exists_cons_of_ne_nil h.nonempty
  exact ⟨c, cs, heq, List.all_eq_true.1 h.letters c (heq ▸ List.mem_cons_self)⟩

end IsName

structure Assignment where
  name : String
  quote : Char
  /-- The text between the quotes. -/
  value : List Char

namespace Assignment

def chars (a : Assignment) : List Char :=
  ' ' :: (a.name.toList ++ '=' :: a.quote :: (a.value ++ [a.quote]))

theorem ofChars_chars (a : Assignment) (rest : List Symbol) :
    Symbols.ofChars a.chars ++ rest = .char ' ' :: (Symbols.ofString a.name ++
      .char '=' :: .char a.quote :: (Symbols.ofChars a.value ++ .char a.quote :: rest)) := by
  simp [chars, Symbols.ofChars, Symbols.ofString]

def read (a : Assignment) : Attribute where
  name := Symbols.ofString a.name
  value := Symbols.ofChars a.value

/-- A proper name, quotes of one of the two kinds, and none of them in the value. -/
structure Fits (a : Assignment) : Prop where
  name : IsName a.name
  quote : a.quote = '"' ∨ a.quote = '\''
  value : a.quote ∉ a.value

end Assignment

def tagChars (name : String) (as : List Assignment) (blanks : Nat) : List Char :=
  name.toList ++ (as.flatMap Assignment.chars ++ List.replicate blanks ' ')

def writtenTag (name : String) (as : List Assignment) (blanks : Nat) : StartTag :=
  ⟨Symbols.ofChars (tagChars name as blanks)⟩

/-! ### The name -/

theorem head?_behindName (as : List Assignment) (blanks : Nat) :
    ∀ c ∈ (as.flatMap Assignment.chars ++ List.replicate blanks ' ').head?, c = ' ' := by
  cases as with
  | nil => cases blanks <;> simp [List.replicate_succ]
  | cons a as => simp [Assignment.chars]

theorem takeWhile_append_of_head {α : Type} {p : α → Bool} {xs ys : List α}
    (hxs : ∀ x ∈ xs, p x = true) (hys : ∀ y ∈ ys.head?, p y = false) :
    (xs ++ ys).takeWhile p = xs := by
  rw [List.takeWhile_append_of_pos hxs]
  cases ys with
  | nil => rw [List.takeWhile_nil, List.append_nil]
  | cons y ys => rw [List.takeWhile_cons_of_neg (by simp [hys y rfl]), List.append_nil]

theorem dropWhile_append_of_head {α : Type} {p : α → Bool} {xs ys : List α}
    (hxs : ∀ x ∈ xs, p x = true) (hys : ∀ y ∈ ys.head?, p y = false) :
    (xs ++ ys).dropWhile p = ys := by
  rw [List.dropWhile_append_of_pos hxs]
  cases ys with
  | nil => rfl
  | cons y ys => rw [List.dropWhile_cons_of_neg (by simp [hys y rfl])]

theorem name_writtenTag {name : String} (hname : IsName name) (as : List Assignment)
    (blanks : Nat) : (writtenTag name as blanks).name = Symbols.ofString name := by
  rw [StartTag.name, writtenTag, tagChars, Symbols.ofChars_append]
  refine takeWhile_append_of_head (fun s hs => ?_) fun s hs => ?_
  · rw [hname.not_isSpace hs]
    rfl
  · rw [Symbols.ofChars, List.head?_map] at hs
    obtain ⟨c, hc, rfl⟩ := Option.map_eq_some_iff.1 hs
    rw [head?_behindName as blanks c hc]
    rfl

theorem hasName_writtenTag {name : String} (hname : IsName name) (as : List Assignment)
    (blanks : Nat) (other : String) :
    (writtenTag name as blanks).hasName other = decide (name = other) := by
  rw [StartTag.hasName, name_writtenTag hname, Bool.beq_eq_decide_eq, decide_eq_decide]
  exact Symbols.ofString_inj

/-! ### The attributes -/

namespace AttributeList

theorem Cursor.skip_append {p : Symbol → Bool} {run rest : List Symbol} (position : Nat)
    (hrun : ∀ s ∈ run, p s = true) (hrest : ∀ s ∈ rest.head?, p s = false) :
    Cursor.skip p ⟨position, run ++ rest⟩ = ⟨position + Symbols.width run, rest⟩ := by
  rw [Cursor.skip, takeWhile_append_of_head hrun hrest, dropWhile_append_of_head hrun hrest]

theorem Cursor.skip_of_head {p : Symbol → Bool} {rest : List Symbol} (position : Nat)
    (hrest : ∀ s ∈ rest.head?, p s = false) : Cursor.skip p ⟨position, rest⟩ = ⟨position, rest⟩ :=
  Cursor.skip_append position (List.forall_mem_nil _) hrest

theorem Cursor.exists_advance (position : Nat) (s : Symbol) (rest : List Symbol) :
    ∃ p, Cursor.advance ⟨position, s :: rest⟩ = ⟨p, rest⟩ := ⟨_, rfl⟩

theorem Cursor.upTo_append (p q : Nat) (run rest : List Symbol) :
    Cursor.upTo ⟨p, run ++ rest⟩ ⟨q, rest⟩ = run := by
  simp [Cursor.upTo]

theorem readName_written {name : String} (hname : IsName name) (total position : Nat)
    (rest : List Symbol) :
    ∃ p, readName total ⟨position, Symbols.ofString name ++ .char '=' :: rest⟩ =
      .ok (Symbols.ofString name, ⟨p, .char '=' :: rest⟩) := by
  obtain ⟨c, cs, hcs, -⟩ := hname.eq_cons
  have hsymbols : Symbols.ofString name = .char c :: Symbols.ofChars cs := by
    rw [Symbols.ofString, hcs]
    rfl
  -- The first symbol of a name is taken unseen, the others are tested.
  have hbehind : ∃ p, Cursor.skip (fun s => !isEquals s && !isSpace s)
      (Cursor.advance ⟨position, Symbols.ofString name ++ .char '=' :: rest⟩) =
        ⟨p, .char '=' :: rest⟩ := by
    rw [hsymbols]
    refine ⟨_, Cursor.skip_append _ (fun s hs => ?_) fun s hs => ?_⟩
    · have hmem : s ∈ Symbols.ofString name := hsymbols ▸ List.mem_cons_of_mem _ hs
      simp [isEquals, hname.symbol_ne hmem (d := '=') (by decide), hname.not_isSpace hmem]
    · cases hs
      rfl
  obtain ⟨p, hp⟩ := hbehind
  have hequals : Cursor.skip isSpace ⟨p, .char '=' :: rest⟩ = ⟨p, .char '=' :: rest⟩ :=
    Cursor.skip_of_head p fun s hs => by cases hs; rfl
  refine ⟨p, ?_⟩
  simp only [readName, hp, hequals, Cursor.upTo_append]
  rfl

theorem readValue_written {quote : Char} (hquote : quote = '"' ∨ quote = '\'') {value : List Char}
    (hvalue : quote ∉ value) (total position : Nat) (rest : List Symbol) :
    ∃ p, readValue total
      ⟨position, .char '=' :: .char quote :: (Symbols.ofChars value ++ .char quote :: rest)⟩ =
        .ok (Symbols.ofChars value, ⟨p, rest⟩) := by
  obtain ⟨p, hequals⟩ := Cursor.exists_advance position (.char '=')
    (.char quote :: (Symbols.ofChars value ++ .char quote :: rest))
  have hopening : Cursor.skip isSpace
      ⟨p, .char quote :: (Symbols.ofChars value ++ .char quote :: rest)⟩ =
        ⟨p, .char quote :: (Symbols.ofChars value ++ .char quote :: rest)⟩ := by
    refine Cursor.skip_of_head p fun s hs => ?_
    cases hs
    rcases hquote with rfl | rfl <;> rfl
  obtain ⟨q, hinside⟩ := Cursor.exists_advance p (.char quote)
    (Symbols.ofChars value ++ .char quote :: rest)
  have hvalue : ∃ r, Cursor.skip (fun t => t != .char quote)
      ⟨q, Symbols.ofChars value ++ .char quote :: rest⟩ = ⟨r, .char quote :: rest⟩ := by
    refine ⟨_, Cursor.skip_append q (fun s hs => ?_) fun s hs => ?_⟩
    · obtain ⟨c, hc, rfl⟩ := Symbols.mem_ofChars.1 hs
      have hne : c ≠ quote := fun h => hvalue (h ▸ hc)
      simp [hne]
    · cases hs
      simp
  obtain ⟨r, hclosing⟩ := hvalue
  obtain ⟨e, hend⟩ := Cursor.exists_advance r (.char quote) rest
  refine ⟨e, ?_⟩
  rcases hquote with rfl | rfl <;>
    simp only [readValue, hequals, hopening, hinside, hclosing, hend, Cursor.upTo_append]

theorem positionOf?_append {name : List Symbol} {seen more : List (List Symbol × Nat)}
    (hseen : positionOf? name seen = none) (hmore : positionOf? name more = none) :
    positionOf? name (seen ++ more) = none := by
  simp only [positionOf?, Option.map_eq_none_iff, List.find?_eq_none] at *
  intro s hs
  exact (List.mem_append.1 hs).elim (hseen s) (hmore s)

theorem readFrom_of_read {total : Nat} {seen : List (List Symbol × Nat)} {c equals next : Cursor}
    {name value : List Symbol} (hrest : (c.skip isSpace).rest ≠ [])
    (hname : readName total (c.skip isSpace) = .ok (name, equals))
    (hseen : positionOf? name seen = none) (hvalue : readValue total equals = .ok (value, next)) :
    readFrom total seen c =
      (readFrom total (seen ++ [(name, (c.skip isSpace).position)]) next).before ⟨name, value⟩ := by
  rw [readFrom]
  simp only [if_neg hrest]
  split
  · rename_i f heq
    cases hname.symm.trans heq
  · rename_i name' equals' heq
    cases hname.symm.trans heq
    simp only [hseen]
    split
    · rename_i f heq
      cases hvalue.symm.trans heq
    · rename_i value' next' heq
      cases hvalue.symm.trans heq
      rfl

theorem readFrom_written (total blanks : Nat) {as : List Assignment} (hfits : ∀ a ∈ as, a.Fits)
    (hnames : (as.map Assignment.name).Nodup) (seen : List (List Symbol × Nat))
    (hseen : ∀ a ∈ as, positionOf? (Symbols.ofString a.name) seen = none) (position : Nat) :
    readFrom total seen ⟨position,
        Symbols.ofChars (as.flatMap Assignment.chars ++ List.replicate blanks ' ')⟩ =
      { attributes := as.map Assignment.read } := by
  -- position and names seen are general, since both grow with each attribute
  induction as generalizing seen position with
  | nil =>
    have hspaces : ∀ s ∈ Symbols.ofChars (List.replicate blanks ' '), isSpace s = true := by
      intro s hs
      rw [Symbols.eq_of_mem_blanks hs]
      rfl
    have hskip : Cursor.skip isSpace ⟨position, Symbols.ofChars (List.replicate blanks ' ') ++ []⟩ =
        ⟨_, []⟩ := Cursor.skip_append position hspaces fun _ h => by cases h
    rw [List.append_nil] at hskip
    rw [List.flatMap_nil, List.nil_append, readFrom]
    simp only [hskip, if_true]
    rfl
  | cons a as ih =>
    obtain ⟨hname, hquote, hvalue⟩ := hfits a List.mem_cons_self
    obtain ⟨c, cs, hcs, hc⟩ := hname.eq_cons
    set rest := Symbols.ofChars (as.flatMap Assignment.chars ++ List.replicate blanks ' ')
    have hskip : ∃ p, Cursor.skip isSpace ⟨position, Symbols.ofChars a.chars ++ rest⟩ =
        ⟨p, Symbols.ofString a.name ++ .char '=' :: .char a.quote ::
          (Symbols.ofChars a.value ++ .char a.quote :: rest)⟩ := by
      rw [a.ofChars_chars, ← List.singleton_append]
      refine ⟨_, Cursor.skip_append position (by simp [isSpace, isSpaceChar]) fun s hs => ?_⟩
      refine hname.not_isSpace ?_
      rw [Symbols.ofString, hcs] at hs ⊢
      cases hs
      exact List.mem_cons_self
    obtain ⟨p, hp⟩ := hskip
    obtain ⟨q, hq⟩ := readName_written hname total p
      (.char a.quote :: (Symbols.ofChars a.value ++ .char a.quote :: rest))
    obtain ⟨r, hr⟩ := readValue_written hquote hvalue total q rest
    have hnew : a.name ∉ as.map Assignment.name := (List.nodup_cons.1 hnames).1
    rw [List.flatMap_cons, List.append_assoc, Symbols.ofChars_append,
      readFrom_of_read (by rw [hp]; simp) (hp ▸ hq) (hseen a List.mem_cons_self) hr,
      ih (fun b hb => hfits b (List.mem_cons_of_mem _ hb)) (List.nodup_cons.1 hnames).2]
    · rfl
    · intro b hb
      refine positionOf?_append (hseen b (List.mem_cons_of_mem _ hb)) ?_
      have hne : a.name ≠ b.name := fun h => hnew (h ▸ List.mem_map_of_mem hb)
      simp [positionOf?, Symbols.ofString_inj, hne]

end AttributeList

theorem attributes_writtenTag {name : String} (hname : IsName name) {as : List Assignment}
    (hfits : ∀ a ∈ as, a.Fits) (hnames : (as.map Assignment.name).Nodup) (blanks : Nat) :
    (writtenTag name as blanks).attributes = { attributes := as.map Assignment.read } := by
  have hbehind : (writtenTag name as blanks).content.drop (Symbols.ofString name).length =
      Symbols.ofChars (as.flatMap Assignment.chars ++ List.replicate blanks ' ') := by
    rw [writtenTag, tagChars, Symbols.ofChars_append]
    exact List.drop_left
  rw [StartTag.attributes, name_writtenTag hname, hbehind]
  exact AttributeList.readFrom_written _ blanks hfits hnames [] (fun a _ => rfl) _

/-! ### The end -/

/-- Content of a tag that leaves no quote open and has no end of the tag in it. -/
def Closed (run : List Symbol) : Prop :=
  ∀ ss, tagContent? none (run ++ ss) = (tagContent? none ss).map fun p => (run ++ p.1, p.2)

namespace Closed

theorem nil : Closed [] := by
  intro ss
  simp

theorem append {xs ys : List Symbol} (hx : Closed xs) (hy : Closed ys) : Closed (xs ++ ys) := by
  intro ss
  rw [List.append_assoc, hx, hy, Option.map_map]
  simp [Function.comp_def]

theorem cons {s : Symbol} {ss : List Symbol} (hquote : s ≠ .char '"' ∧ s ≠ .char '\'')
    (hend : s ≠ .char '>') (h : Closed ss) : Closed (s :: ss) := by
  intro rest
  simp [tagContent?, hquote, hend, h rest, Function.comp_def]

theorem of_unquoted {run : List Symbol}
    (h : ∀ s ∈ run, (s ≠ .char '"' ∧ s ≠ .char '\'') ∧ s ≠ .char '>') : Closed run := by
  induction run with
  | nil => exact nil
  | cons s run ih =>
    have hs := h s List.mem_cons_self
    exact cons hs.1 hs.2 (ih fun t ht => h t (List.mem_cons_of_mem _ ht))

theorem tagContent?_quoted {q : Symbol} {run : List Symbol} (h : q ∉ run) (ss : List Symbol) :
    tagContent? (some q) (run ++ q :: ss) =
      (tagContent? none ss).map fun p => (run ++ q :: p.1, p.2) := by
  induction run with
  | nil => simp [tagContent?]
  | cons s run ih =>
    have hs : s ≠ q := fun heq => h (heq ▸ List.mem_cons_self)
    have hrun := ih fun hq => h (List.mem_cons_of_mem _ hq)
    simp [tagContent?, hs, hrun, Function.comp_def]

theorem quoted {q : Char} (hquote : q = '"' ∨ q = '\'') {value : List Char} (h : q ∉ value) :
    Closed (.char q :: (Symbols.ofChars value ++ [.char q])) := by
  have hq : Symbol.char q ∉ Symbols.ofChars value := by
    intro hmem
    obtain ⟨c, hc, heq⟩ := Symbols.mem_ofChars.1 hmem
    exact h (Symbol.char.inj heq ▸ hc)
  intro ss
  have hnone : tagContent? none (.char q :: (Symbols.ofChars value ++ .char q :: ss)) =
      (tagContent? (some (.char q)) (Symbols.ofChars value ++ .char q :: ss)).map
        fun p => (.char q :: p.1, p.2) := by
    rcases hquote with rfl | rfl <;> simp [tagContent?]
  rw [List.cons_append, List.append_assoc, List.singleton_append, hnone, tagContent?_quoted hq,
    Option.map_map]
  simp [Function.comp_def]

theorem name {name : String} (h : IsName name) : Closed (Symbols.ofString name) :=
  of_unquoted fun _ hs => ⟨⟨h.symbol_ne hs (by decide), h.symbol_ne hs (by decide)⟩,
    h.symbol_ne hs (by decide)⟩

theorem assignment {a : Assignment} (h : a.Fits) : Closed (Symbols.ofChars a.chars) := by
  have hshape := a.ofChars_chars []
  rw [List.append_nil] at hshape
  rw [hshape]
  exact cons (by simp) (by simp) (append (name h.name)
    (cons (by simp) (by simp) (quoted h.quote h.value)))

theorem behindName {as : List Assignment} (hfits : ∀ a ∈ as, a.Fits) (blanks : Nat) :
    Closed (Symbols.ofChars (as.flatMap Assignment.chars ++ List.replicate blanks ' ')) := by
  have hblanks : Closed (Symbols.ofChars (List.replicate blanks ' ')) := by
    refine of_unquoted fun s hs => ?_
    rw [Symbols.eq_of_mem_blanks hs]
    simp
  rw [Symbols.ofChars_append]
  refine append ?_ hblanks
  induction as with
  | nil => exact nil
  | cons a as ih =>
    rw [List.flatMap_cons, Symbols.ofChars_append]
    exact append (assignment (hfits a List.mem_cons_self))
      (ih fun b hb => hfits b (List.mem_cons_of_mem _ hb))

end Closed

theorem tagContent?_of_closed {run : List Symbol} (h : Closed run) (rest : List Symbol) :
    tagContent? none (run ++ .char '>' :: rest) = some (run, rest) := by
  rw [h]
  simp [tagContent?]

end Relocate.Markup
