import Relocate.Proofs.Interchange.Nodes
import Relocate.Proofs.Markup.Nesting
import Relocate.Proofs.Text.Encoding
import Relocate.Proofs.Tree.Lines

/-!
# Tree documents as element trees

A document is read as a tree exactly if its elements are one tree of tags that describe nodes, apart
from events that carry nothing. Whole elements are read by attaching their trees one after the
other, at whatever depth they stand.
-/

set_option autoImplicit false

namespace Relocate.Interchange

open Relocate.Text Relocate.Markup

/-! ### What a document says -/

def isBlankSymbol : Symbol → Bool
  | .char c => isBlank c
  | .stray _ => false

/-- An event that carries nothing: text of white space alone, and all that is no text and no tag. -/
def isIdle : Event → Bool
  | .text run => run.all isBlankSymbol
  | e => !e.isTag

def significant (es : List Event) : List Event := es.filter fun e => !isIdle e

theorem isBlankSymbol_of_isSpace {s : Symbol} (h : isSpace s = true) : isBlankSymbol s = true := by
  cases s with
  | stray b => cases h
  | char c =>
    have hc : c = ' ' ∨ c = '\t' ∨ c = '\r' ∨ c = '\n' := by
      simpa [isSpace, isSpaceChar, or_assoc] using h
    rcases hc with rfl | rfl | rfl | rfl <;> decide

mutual
def treeOf (above : List StartTag) : Rose StartTag → Ast
  | .node t cs => .node (nodeOf above t) (treesOf (t :: above) cs)

def treesOf (above : List StartTag) : List (Rose StartTag) → List Ast
  | [] => []
  | c :: cs => treeOf above c :: treesOf above cs
end

/-! ### Whole elements -/

namespace State

def attachAll (s : State) (ts : List Ast) : Except Error State := ts.foldlM attach s

theorem line_attach {s s' : State} {t : Ast} (h : s.attach t = .ok s') : s'.line = s.line := by
  unfold attach at h
  split at h
  · rename_i o os hopened
    cases h
    simp [line, hopened]
  · rename_i hopened hroot
    cases h
    simp [line, hopened]
  · cases h

theorem attachAll_open (o : Open) (os : List Open) (root : Option Ast) (ts : List Ast) :
    attachAll ⟨o :: os, root⟩ ts =
      .ok ⟨{ o with children := ts.reverse ++ o.children } :: os, root⟩ := by
  induction ts generalizing o with
  | nil => rfl
  | cons t ts ih =>
    rw [attachAll, List.foldlM_cons]
    refine (ih { o with children := t :: o.children }).trans ?_
    simp

theorem attachAll_root {ts : List Ast} {root : Ast} :
    (∃ s, attachAll {} ts = .ok s ∧ s.root = some root) ↔ ts = [root] := by
  constructor
  · intro ⟨s, h, hroot⟩
    match ts with
    | [] =>
      cases h
      cases hroot
    | [t] =>
      cases h
      cases hroot
      rfl
    | t :: u :: ts => cases h
  · rintro rfl
    exact ⟨_, rfl, rfl⟩

theorem attachAll_cons_eq_ok_iff {s s' : State} {t : Ast} {ts : List Ast} :
    s.attachAll (t :: ts) = .ok s' ↔ ∃ u, s.attach t = .ok u ∧ u.attachAll ts = .ok s' :=
  foldlM_cons_eq_ok_iff

section

variable {s s' : State} {above : List StartTag} (hline : s.line = lineWithin above)

include hline

theorem step_empty_eq_ok_iff {t : StartTag} :
    s.step (.empty t) = .ok s' ↔ IsNode t ∧ s.attach (treeOf above (.node t [])) = .ok s' := by
  rw [step, hline]
  constructor
  · intro h
    obtain ⟨tag, htag, hattach⟩ := eq_of_bind_eq_ok h
    obtain ⟨hnode, rfl⟩ := readTag_eq_ok_iff.1 htag
    exact ⟨hnode, hattach⟩
  · intro ⟨hnode, hattach⟩
    rw [readTag_eq_ok_iff.2 ⟨hnode, rfl⟩]
    exact hattach

theorem step_start_eq_ok_iff {t : StartTag} :
    s.step (.start t) = .ok s' ↔
      IsNode t ∧ s' = { s with opened := ⟨nodeOf above t, []⟩ :: s.opened } := by
  rw [step, hline]
  constructor
  · intro h
    obtain ⟨tag, htag, rfl⟩ := eq_of_map_eq_ok h
    obtain ⟨hnode, rfl⟩ := readTag_eq_ok_iff.1 htag
    exact ⟨hnode, rfl⟩
  · rintro ⟨hnode, rfl⟩
    rw [readTag_eq_ok_iff.2 ⟨hnode, rfl⟩]
    rfl

end

/-- The end tag behind the content of an element attaches the whole element. -/
theorem step_finish_content {s : State} {above : List StartTag} {t : StartTag}
    {cs : List (Rose StartTag)} (name : List Symbol) :
    step ⟨⟨nodeOf above t, (treesOf (t :: above) cs).reverse ++ []⟩ :: s.opened, s.root⟩
        (.finish name) = s.attach (treeOf above (.node t cs)) := by
  rw [step, treeOf]
  simp

/-- Whole elements are read by attaching their trees, if all their tags describe nodes. -/
theorem foldlM_spells {es : List Event} {ts : List (Rose StartTag)} (h : Spells es ts)
    {s s' : State} {above : List StartTag} (hline : s.line = lineWithin above) :
    es.foldlM step s = .ok s' ↔
      (∀ t ∈ ts, t.Every IsNode) ∧ s.attachAll (treesOf above ts) = .ok s' := by
  -- the state is general: the content of an element is read in the one behind its tag
  induction h generalizing s s' above with
  | nil => simp [treesOf, attachAll]
  | @empty tag es ts _ ih =>
    rw [foldlM_cons_eq_ok_iff, List.forall_mem_cons, Rose.every_node, treesOf,
      attachAll_cons_eq_ok_iff]
    constructor
    · intro ⟨u, hu, hes⟩
      obtain ⟨hnode, hattach⟩ := (step_empty_eq_ok_iff hline).1 hu
      obtain ⟨hts, hrest⟩ := (ih ((line_attach hattach).trans hline)).1 hes
      exact ⟨⟨⟨hnode, List.forall_mem_nil _⟩, hts⟩, u, hattach, hrest⟩
    · intro ⟨⟨⟨hnode, _⟩, hts⟩, u, hattach, hrest⟩
      exact ⟨u, (step_empty_eq_ok_iff hline).2 ⟨hnode, hattach⟩,
        (ih ((line_attach hattach).trans hline)).2 ⟨hts, hrest⟩⟩
  | @pair tag inner es cs ts _ _ ihc ihr =>
    set opened : State := { s with opened := ⟨nodeOf above tag, []⟩ :: s.opened }
    have hinner : opened.line = lineWithin (tag :: above) := rfl
    have hcontent : opened.attachAll (treesOf (tag :: above) cs) =
        .ok ⟨⟨nodeOf above tag, (treesOf (tag :: above) cs).reverse ++ []⟩ :: s.opened, s.root⟩ :=
      attachAll_open _ _ _ _
    rw [foldlM_cons_eq_ok_iff, List.forall_mem_cons, Rose.every_node, treesOf,
      attachAll_cons_eq_ok_iff]
    constructor
    · intro ⟨u, hu, h⟩
      obtain ⟨hnode, rfl⟩ := (step_start_eq_ok_iff hline).1 hu
      obtain ⟨v, hv, h⟩ := foldlM_append_eq_ok_iff.1 h
      obtain ⟨hcs, hv⟩ := (ihc hinner).1 hv
      rw [hcontent] at hv
      cases hv
      obtain ⟨w, hattach, hes⟩ := foldlM_cons_eq_ok_iff.1 h
      rw [step_finish_content] at hattach
      obtain ⟨hts, hrest⟩ := (ihr ((line_attach hattach).trans hline)).1 hes
      exact ⟨⟨⟨hnode, hcs⟩, hts⟩, w, hattach, hrest⟩
    · intro ⟨⟨⟨hnode, hcs⟩, hts⟩, w, hattach, hrest⟩
      have hbehind := (ihr ((line_attach hattach).trans hline)).2 ⟨hts, hrest⟩
      have hfinish := foldlM_cons_eq_ok_iff.2
        ⟨w, (step_finish_content tag.name).trans hattach, hbehind⟩
      exact ⟨opened, (step_start_eq_ok_iff hline).2 ⟨hnode, rfl⟩,
        foldlM_append_eq_ok_iff.2 ⟨_, (ihc hinner).2 ⟨hcs, hcontent⟩, hfinish⟩⟩

/-! ### What carries nothing -/

theorem readText_eq_ok_iff {run : List Symbol} :
    readText run = .ok () ↔ run.all isBlankSymbol = true := by
  cases hchars : Symbols.chars? run with
  | none =>
    have hstray : ¬ run.all isBlankSymbol = true := by
      intro hall
      have hsome : (Symbols.chars? run).isSome := isSome_mapM fun x hx => by
        have hblank := List.all_eq_true.1 hall x hx
        cases x with
        | char c => rfl
        | stray b => cases hblank
      rw [hchars] at hsome
      cases hsome
    simp [readText, Symbols.decode, hchars, hstray]
  | some cs =>
    have hrun := Symbols.eq_ofChars_of_chars? hchars
    have hall : run.all isBlankSymbol = allBlank cs := by
      rw [hrun, Symbols.ofChars, List.all_map]
      rfl
    rw [hall]
    cases hblank : allBlank cs <;> simp [readText, Symbols.decode, hchars, hblank]

theorem step_text_eq_ok_iff {s s' : State} {run : List Symbol} :
    s.step (.text run) = .ok s' ↔ run.all isBlankSymbol = true ∧ s' = s := by
  rw [step]
  constructor
  · intro h
    obtain ⟨_, hread, rfl⟩ := eq_of_map_eq_ok h
    exact ⟨readText_eq_ok_iff.1 hread, rfl⟩
  · rintro ⟨hblank, rfl⟩
    rw [readText_eq_ok_iff.2 hblank]
    rfl

theorem step_idle {e : Event} (h : isIdle e = true) (s : State) : s.step e = .ok s := by
  cases e with
  | text run => exact step_text_eq_ok_iff.2 ⟨h, rfl⟩
  | start _ => cases h
  | empty _ => cases h
  | finish _ => cases h
  | _ => rfl

theorem isTag_of_step {e : Event} {s s' : State} (h : s.step e = .ok s')
    (hidle : isIdle e = false) : e.isTag = true := by
  cases e with
  | text run => exact absurd (step_text_eq_ok_iff.1 h).1 (Bool.eq_false_iff.1 hidle)
  | start _ => rfl
  | empty _ => rfl
  | finish _ => rfl
  | _ => cases hidle

theorem all_isBlankSymbol_trimSpace (run : List Symbol) :
    (Stream.trimSpace run).all isBlankSymbol = run.all isBlankSymbol := by
  have hdrop : ∀ ss : List Symbol, (ss.dropWhile isSpace).all isBlankSymbol =
      ss.all isBlankSymbol := by
    intro ss
    conv_rhs => rw [← List.takeWhile_append_dropWhile (p := isSpace) (l := ss), List.all_append]
    have hfront : (ss.takeWhile isSpace).all isBlankSymbol = true := by
      refine List.all_eq_true.2 fun s hs => isBlankSymbol_of_isSpace ?_
      exact List.all_eq_true.1 List.all_takeWhile s hs
    rw [hfront, Bool.true_and]
  rw [Stream.trimSpace, List.all_reverse, hdrop, List.all_reverse, hdrop]

theorem step_trimmed_iff {e e' : Event} (h : Stream.trimmed? e = some e') {s s' : State} :
    s.step e' = .ok s' ↔ s.step e = .ok s' := by
  cases e with
  | text run =>
    rw [Stream.trimmed?] at h
    split at h
    · cases h
    · cases h
      rw [step_text_eq_ok_iff, step_text_eq_ok_iff, all_isBlankSymbol_trimSpace]
  | _ =>
    cases h
    rfl

theorem isIdle_of_trimmed?_eq_none {e : Event} (h : Stream.trimmed? e = none) :
    isIdle e = true := by
  cases e with
  | text run =>
    rw [Stream.trimmed?] at h
    split at h
    · rename_i hspace
      exact List.all_eq_true.2 fun s hs =>
        isBlankSymbol_of_isSpace (List.all_eq_true.1 hspace s hs)
    · cases h
  | _ => cases h

theorem foldlM_significant {es : List Event} {s s' : State} :
    (significant es).foldlM step s = .ok s' ↔ es.foldlM step s = .ok s' := by
  induction es generalizing s with
  | nil => rfl
  | cons e es ih =>
    cases hidle : isIdle e with
    | true =>
      rw [significant, List.filter_cons_of_neg (by simp [hidle]), foldlM_cons_eq_ok_iff]
      simp only [step_idle hidle]
      exact ih.trans ⟨fun h => ⟨s, rfl, h⟩, fun ⟨_, hs, h⟩ => Except.ok.inj hs ▸ h⟩
    | false =>
      rw [significant, List.filter_cons_of_pos (by simp [hidle]), foldlM_cons_eq_ok_iff,
        foldlM_cons_eq_ok_iff]
      exact exists_congr fun u => and_congr_right fun _ => ih

theorem foldlM_trimmed {es : List Event} {s s' : State} :
    (es.filterMap Stream.trimmed?).foldlM step s = .ok s' ↔ es.foldlM step s = .ok s' := by
  induction es generalizing s with
  | nil => rfl
  | cons e es ih =>
    cases htrim : Stream.trimmed? e with
    | none =>
      have hidle := isIdle_of_trimmed?_eq_none htrim
      rw [List.filterMap_cons_none htrim, foldlM_cons_eq_ok_iff]
      simp only [step_idle hidle]
      exact ih.trans ⟨fun h => ⟨s, rfl, h⟩, fun ⟨_, hs, h⟩ => Except.ok.inj hs ▸ h⟩
    | some e' =>
      rw [List.filterMap_cons_some htrim, foldlM_cons_eq_ok_iff, foldlM_cons_eq_ok_iff]
      exact exists_congr fun u => and_congr (step_trimmed_iff htrim) ih

theorem isTag_of_foldlM {es : List Event} {s s' : State} (h : es.foldlM step s = .ok s') :
    ∀ e ∈ significant es, e.isTag = true := by
  induction es generalizing s with
  | nil => exact List.forall_mem_nil _
  | cons e es ih =>
    obtain ⟨u, hu, hes⟩ := foldlM_cons_eq_ok_iff.1 h
    cases hidle : isIdle e with
    | true =>
      rw [significant, List.filter_cons_of_neg (by simp [hidle])]
      exact ih hes
    | false =>
      rw [significant, List.filter_cons_of_pos (by simp [hidle])]
      exact List.forall_mem_cons.2 ⟨isTag_of_step hu hidle, ih hes⟩

/-! ### Whole documents -/

theorem length_attach {s s' : State} {t : Ast} (h : s.attach t = .ok s') :
    s'.opened.length = s.opened.length := by
  unfold attach at h
  split at h
  · rename_i hopened
    cases h
    simp [hopened]
  · cases h
    rfl
  · cases h

theorem length_foldlM {es : List Event} {s s' : State} {opened inner : List (List Symbol)}
    (hopen : Stream.openAfter? opened es = some inner)
    (hlength : s.opened.length = opened.length) (h : es.foldlM step s = .ok s') :
    s'.opened.length = inner.length := by
  induction es generalizing s opened with
  | nil =>
    cases hopen
    cases h
    exact hlength
  | cons e es ih =>
    obtain ⟨u, hu, hes⟩ := foldlM_cons_eq_ok_iff.1 h
    cases e with
    | start t =>
      obtain ⟨tag, -, rfl⟩ := eq_of_map_eq_ok hu
      exact ih hopen (congrArg (· + 1) hlength) hes
    | empty t =>
      obtain ⟨tag, -, hattach⟩ := eq_of_bind_eq_ok hu
      exact ih hopen ((length_attach hattach).trans hlength) hes
    | finish name =>
      obtain ⟨outer, rfl, hrest⟩ := Stream.openAfter?_finish hopen
      rw [step] at hu
      split at hu
      · rename_i o os hopened
        rw [hopened] at hlength
        exact ih hrest ((length_attach hu).trans (Nat.succ.inj hlength)) hes
      · cases hu
    | text run =>
      obtain ⟨-, rfl⟩ := step_text_eq_ok_iff.1 hu
      exact ih hopen hlength hes
    | _ =>
      cases hu
      exact ih hopen hlength hes

theorem finish_eq_ok_iff {s : State} {tree : Ast} :
    s.finish = .ok tree ↔ s.opened.length = 0 ∧ s.root = some tree := by
  unfold finish
  cases hopened : s.opened with
  | nil => cases hroot : s.root <;> simp
  | cons o os => simp

end State

theorem treesOf_eq_singleton_iff {above : List StartTag} {ts : List (Rose StartTag)} {tree : Ast} :
    treesOf above ts = [tree] ↔ ∃ e, ts = [e] ∧ tree = treeOf above e := by
  match ts with
  | [] => simp [treesOf]
  | [e] => simp [treesOf, eq_comm]
  | e :: f :: ts => simp [treesOf]

open State in
/-- Events in which every end tag fits are read as a tree exactly if they spell it. -/
theorem foldlM_finish_iff {es : List Event} {inner : List (List Symbol)}
    (hopen : Stream.openAfter? [] es = some inner) {tree : Ast} :
    (∃ s, es.foldlM step {} = .ok s ∧ s.finish = .ok tree) ↔
      ∃ e, Spells (significant es) [e] ∧ e.Every IsNode ∧ tree = treeOf [] e := by
  have hline : ({} : State).line = lineWithin [] := rfl
  constructor
  · intro ⟨s, hread, hfinish⟩
    obtain ⟨hclosed, hroot⟩ := finish_eq_ok_iff.1 hfinish
    have hlength := length_foldlM hopen rfl hread
    rw [hclosed] at hlength
    rw [List.length_eq_zero_iff.1 hlength.symm] at hopen
    have hsignificant : Stream.openAfter? [] (significant es) = some [] := by
      rw [significant, Stream.openAfter?_filter fun e he => ?_, hopen]
      cases e with
      | start _ => rfl
      | finish _ => rfl
      | _ => cases he
    obtain ⟨ts, hspells⟩ := Stream.exists_spells hsignificant (isTag_of_foldlM hread)
    obtain ⟨hnodes, hattach⟩ := (foldlM_spells hspells hline).1 (foldlM_significant.2 hread)
    obtain ⟨e, rfl, htree⟩ := treesOf_eq_singleton_iff.1 (attachAll_root.1 ⟨s, hattach, hroot⟩)
    exact ⟨e, hspells, hnodes e List.mem_cons_self, htree⟩
  · intro ⟨e, hspells, hnode, htree⟩
    obtain ⟨s, hattach, hroot⟩ := attachAll_root.2 (treesOf_eq_singleton_iff.2 ⟨e, rfl, htree⟩)
    have hnodes : ∀ t ∈ [e], t.Every IsNode := by
      intro t ht
      rw [List.mem_singleton.1 ht]
      exact hnode
    have hread := (foldlM_spells hspells hline).2 ⟨hnodes, hattach⟩
    have hclosed : s.opened.length = 0 := by
      cases hattach
      rfl
    exact ⟨s, foldlM_significant.1 hread, finish_eq_ok_iff.2 ⟨hclosed, hroot⟩⟩

/-- A document without a fault is read as a tree exactly if its tags spell one element whose tags
all describe nodes, and nothing but what carries nothing stands between them. -/
theorem read_eq_ok_iff (document : String)
    (h : (Stream.ofSymbols (Symbols.ofString document)).fault = none) (tree : Ast) :
    read document = .ok tree ↔
      ∃ e, Spells (significant (Stream.ofSymbols (Symbols.ofString document)).events) [e] ∧
        e.Every IsNode ∧ tree = treeOf [] e := by
  obtain ⟨hevents, inner, hopen⟩ := Stream.of_balanced h
  rw [← foldlM_finish_iff (hevents ▸ hopen)]
  constructor
  · intro hread
    obtain ⟨s, hs, hfinish⟩ := eq_of_bind_eq_ok hread
    rw [show (Stream.ofSymbols (Symbols.ofString document)).trimmed.fault = none from h] at hfinish
    exact ⟨s, State.foldlM_trimmed.1 hs, hfinish⟩
  · intro ⟨s, hs, hfinish⟩
    have htrim := State.foldlM_trimmed.2 hs
    rw [read, ofSymbols, ofStream, Stream.trimmed, htrim, h]
    exact hfinish

def commented : String :=
  "<tree kind='Unit'><!-- a --><tree line='7' kind='Class'>\u2003" ++
    "<tree kind='Name' value='a&amp;b'/></tree>&any;</tree>"

theorem read_eq_ok_iff_commented : read commented =
    .ok (.node ⟨⟨"Unit", none⟩, none, 1⟩
      [.node ⟨⟨"Class", none⟩, none, 7⟩ [.node ⟨⟨"Name", some "a&b"⟩, none, 7⟩ []]]) := by
  set unit : StartTag := ⟨Symbols.ofString "tree kind='Unit'"⟩
  set inner : StartTag := ⟨Symbols.ofString "tree line='7' kind='Class'"⟩
  set leaf : StartTag := ⟨Symbols.ofString "tree kind='Name' value='a&amp;b'"⟩
  have hstream : Stream.ofSymbols (Symbols.ofString commented) =
      ⟨[.start unit, .aside, .start inner, .text [.char '\u2003'], .empty leaf,
        .finish inner.name, .reference (Symbols.ofString "any"), .finish unit.name], none⟩ := by
    decide +kernel
  have htags : nodeOf [] unit = ⟨⟨"Unit", none⟩, none, 1⟩ ∧
      nodeOf [unit] inner = ⟨⟨"Class", none⟩, none, 7⟩ ∧
        nodeOf [inner, unit] leaf = ⟨⟨"Name", some "a&b"⟩, none, 7⟩ := by
    decide +kernel
  have hnodes : IsNode unit ∧ IsNode inner ∧ IsNode leaf := by decide +kernel
  refine (read_eq_ok_iff commented (by rw [hstream]) _).2
    ⟨.node unit [.node inner [.node leaf []]], ?_, ?_, ?_⟩
  · rw [hstream]
    exact .pair (.pair (.empty .nil) .nil) .nil
  · simp [Rose.every_node, hnodes]
  · simp only [treeOf, treesOf, htags]

end Relocate.Interchange
