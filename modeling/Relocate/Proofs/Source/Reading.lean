import Mathlib.Tactic.SplitIfs
import Relocate.Source.Reading

/-!
# How far a reader gets

At every place of a text its line and the line feeds still ahead make up the same number. So neither
a place that a reader has come to nor a token that it has read is on a line behind the last, however
readings part, merge and are dropped.
-/

set_option autoImplicit false

namespace Relocate.Source

variable {limit : Nat}

/-! ## Tokens -/

def Spot.Within (limit : Nat) (p : Spot) : Prop := p.line + p.rest.count '\n' ≤ limit

namespace Spot

theorem within_ofText (source : List Char) : (ofText source).Within (1 + source.count '\n') := by
  unfold ofText
  split
  · simp [Within]
  · simp [Within]

theorem within_default : (default : Spot).Within limit := Nat.zero_le limit

variable {p : Spot}

theorem Within.line_le (h : p.Within limit) : p.line ≤ limit :=
  Nat.le_trans (Nat.le_add_right _ _) h

theorem Within.skip (h : p.Within limit) (n : Nat) : (p.skip n).Within limit := by
  have hcount : p.rest.count '\n' = (p.rest.take n).count '\n' + (p.rest.drop n).count '\n' := by
    rw [← List.count_append, List.take_append_drop]
  simp only [Within, Spot.skip] at h ⊢
  omega

end Spot

namespace Token

structure Within (limit : Nat) (t : Token) : Prop where
  extent : t.extent.line ≤ limit
  comments : ∀ c ∈ t.comments, c.extent.line ≤ limit

theorem within_readFrom {mode : Mode} {operators : List String} {accepts : Terminal → Bool}
    {fuel : Nat} {comments : List Piece} {p behind : Spot} {t : Token} (hp : p.Within limit)
    (hcomments : ∀ c ∈ comments, c.extent.line ≤ limit)
    (h : readFrom mode operators accepts fuel comments p = some (t, behind)) :
    t.Within limit ∧ behind.Within limit := by
  induction fuel generalizing comments p with
  | zero => cases h
  | succ fuel ih =>
    unfold readFrom at h
    split at h
    · cases h
    · exact ih (hp.skip 1) hcomments h
    · exact ih (hp.skip _) (List.forall_mem_cons.2 ⟨hp.line_le, hcomments⟩) h
    · cases h
      exact ⟨⟨hp.line_le, fun c hc => hcomments c (List.mem_reverse.1 hc)⟩, hp.skip _⟩

theorem within_read? {operators : List String} {accepts : Terminal → Bool} {fuel : Nat}
    {p behind : Spot} {t : Token} (hp : p.Within limit)
    (h : read? operators accepts fuel p = some (t, behind)) :
    t.Within limit ∧ behind.Within limit :=
  within_readFrom hp (List.forall_mem_nil _) h

end Token

/-! ## Derivations -/

namespace Derivation

inductive Within (limit : Nat) : Derivation → Prop where
  | token {symbol : Nat} {t : Token} (h : t.Within limit) : Within limit (.token symbol t)
  | construct {symbol : Nat} {labels : List Label} {weight : Nat} {extent : Extent}
      {parts : List Derivation} (h : ∀ d ∈ parts, Within limit d) :
      Within limit (.construct symbol labels weight extent parts)

theorem within_ofItem {parts : List Derivation} (h : ∀ d ∈ parts, d.Within limit) (item : Item) :
    (ofItem item parts).Within limit :=
  .construct h

theorem within_better {d e : Derivation} (hd : d.Within limit) (he : e.Within limit) :
    (better d e).Within limit := by
  unfold better
  split
  · exact he
  · exact hd

end Derivation

/-! ## Stacks -/

/-- Neither what has been read below the cell nor what is ahead of it is behind the limit. -/
structure Cell.Within (limit : Nat) (c : Cell) : Prop where
  links : ∀ l ∈ c.links, l.derivation.Within limit
  spot : c.spot.Within limit

namespace Stacks

def Within (limit : Nat) (s : Stacks) : Prop := ∀ i, (s.cell i).Within limit

theorem cell_push (cells : Array Cell) (c : Cell) (i : Nat) :
    (⟨cells.push c⟩ : Stacks).cell i = if i = cells.size then c else (⟨cells⟩ : Stacks).cell i := by
  simp only [cell, Array.getD_eq_getD_getElem?, Array.getElem?_push]
  split_ifs <;> rfl

theorem cell_modify (s : Stacks) (f : Cell → Cell) (i j : Nat) :
    (⟨s.cells.modify i f⟩ : Stacks).cell j = s.cell j ∨
      (⟨s.cells.modify i f⟩ : Stacks).cell j = f (s.cell i) := by
  simp only [cell, Array.getD_eq_getD_getElem?, Array.getElem?_modify]
  split_ifs with h
  · subst h
    cases s.cells[i]? <;> simp
  · simp

theorem within_base (state : Nat) {spot : Spot} (h : spot.Within limit) :
    (base state spot).Within limit := by
  intro i
  cases i with
  | zero => exact ⟨List.forall_mem_nil _, h⟩
  | succ i => exact ⟨List.forall_mem_nil _, Spot.within_default⟩

namespace Within

section

variable {s : Stacks} (hs : s.Within limit)

include hs

theorem modify {f : Cell → Cell} {i : Nat} (hf : (f (s.cell i)).Within limit) :
    Within limit ⟨s.cells.modify i f⟩ := by
  intro j
  rcases cell_modify s f i j with h | h
  · rw [h]
    exact hs j
  · rw [h]
    exact hf

theorem push {d : Derivation} {spot : Spot} (hd : d.Within limit) (hspot : spot.Within limit)
    (below state : Nat) : (s.push below d state spot).1.Within limit := by
  intro i
  simp only [Stacks.push]
  rw [cell_push]
  split_ifs
  · exact ⟨by simpa using hd, hspot⟩
  · exact hs i

theorem raise (i weight : Nat) : (s.raise i weight).Within limit :=
  hs.modify ⟨(hs i).links, (hs i).spot⟩

theorem relink {i : Nat} {links : List Link} (hlinks : ∀ l ∈ links, l.derivation.Within limit)
    (weight : Cell → Nat) :
    Within limit ⟨s.cells.modify i fun c => { c with links, weight := weight c }⟩ :=
  hs.modify ⟨hlinks, (hs i).spot⟩

theorem lower {ways : List (Nat × List Derivation)}
    (hways : ∀ w ∈ ways, ∀ d ∈ w.2, d.Within limit) :
    ∀ w ∈ s.lower ways, ∀ d ∈ w.2, d.Within limit := by
  have hgo : ∀ w ∈ ways, ∀ l ∈ (s.cell w.1).links, ∀ d ∈ l.derivation :: w.2, d.Within limit :=
    fun w hw l hl => List.forall_mem_cons.2 ⟨(hs w.1).links l hl, hways w hw⟩
  intro w hw
  rcases List.mem_append.1 (List.mem_of_mem_take hw) with hw | hw
  · obtain ⟨v, hv, hw⟩ := List.mem_flatMap.1 hw
    obtain ⟨l, hl, rfl⟩ := List.mem_map.1 hw
    exact hgo v hv l (List.mem_of_mem_take hl)
  · obtain ⟨v, hv, hw⟩ := List.mem_flatMap.1 hw
    obtain ⟨l, hl, rfl⟩ := List.mem_map.1 hw
    exact hgo v hv l (List.mem_of_mem_drop hl)

theorem waysFrom (n : Nat) {ways : List (Nat × List Derivation)}
    (hways : ∀ w ∈ ways, ∀ d ∈ w.2, d.Within limit) :
    ∀ w ∈ s.waysFrom n ways, ∀ d ∈ w.2, d.Within limit := by
  induction n generalizing ways with
  | zero => exact hways
  | succ n ih => exact ih (hs.lower hways)

theorem ways (n i : Nat) : ∀ w ∈ s.ways n i, ∀ d ∈ w.2, d.Within limit :=
  hs.waysFrom n (by simp)

end

theorem addLink (fuel : Nat) {s : Stacks} (hs : s.Within limit) {l : Link}
    (hl : l.derivation.Within limit) (i : Nat) : (addLink fuel s i l).Within limit := by
  induction fuel generalizing s i l with
  | zero => exact hs
  | succ fuel ih =>
    have hmerged : ∀ known : Nat, Within limit
        ((s.cell l.below).links.foldl (fun s k => Stacks.addLink fuel s known k) s) :=
      fun known => List.foldlRecOn _ _ hs fun s hs' k hk => ih hs' ((hs l.below).links k hk) known
    simp only [Stacks.addLink]
    split
    · exact hs
    split
    · split
      · split
        · apply hs.relink
          intro k hk
          rcases List.mem_or_eq_of_mem_set hk with hk | rfl
          · exact (hs i).links k hk
          · exact hl
        · exact hs
      · exact (hmerged _).raise i _
    · split
      · apply raise
        apply hs.relink
        intro k hk
        rcases List.mem_append.1 hk with hk | hk
        · exact (hs i).links k hk
        · rw [List.mem_singleton.1 hk]
          exact hl
      · exact hs

theorem merge {s : Stacks} (hs : s.Within limit) (i j : Nat) : (s.merge i j).Within limit :=
  List.foldlRecOn _ _ hs fun _ hs' l hl => hs'.addLink _ ((hs j).links l hl) i

end Within

end Stacks

/-! ## Reading -/

namespace Reader

structure Within (limit : Nat) (r : Reader) : Prop where
  stack : r.stack.Within limit
  finished : ∀ x ∈ r.finished, x.2.Within limit ∧ ∀ d ∈ x.1, d.Within limit

theorem mem_gatherWays {ways : List (Nat × List Derivation)} {w : Nat × List (List Derivation)}
    (h : w ∈ gatherWays ways) : ∀ ds ∈ w.2, ∃ v ∈ ways, ds = v.2 := by
  obtain ⟨i, -, rfl⟩ := List.mem_map.1 h
  intro ds hds
  obtain ⟨v, hv, rfl⟩ := List.mem_map.1 hds
  exact ⟨v, (List.mem_filter.1 hv).1, rfl⟩

namespace Within

section

variable {r : Reader} (hr : r.Within limit)

include hr

theorem withHeads (heads : Array (Option Nat)) : Within limit { r with heads } :=
  ⟨hr.stack, hr.finished⟩

theorem addHead (i cell : Nat) : (r.addHead i cell).Within limit := by
  simp only [Reader.addHead]
  split
  · exact ⟨hr.stack.merge _ _, hr.finished⟩
  · exact hr.withHeads _

theorem drop (i : Nat) (t : Token) : (r.drop i t).Within limit := ⟨hr.stack, hr.finished⟩

theorem shift {t : Token} {behind : Spot} (ht : t.Within limit) (hbehind : behind.Within limit)
    (i cell symbol state : Nat) : (r.shift i cell symbol state t behind).Within limit :=
  ⟨hr.stack.push (.token ht) hbehind cell state, hr.finished⟩

theorem finish {t : Token} (ht : t.Within limit) (i cell : Nat) :
    (r.finish i cell t).Within limit := by
  have hd : ∀ d ∈ (r.stack.cell cell).links.head?.map Link.derivation, d.Within limit := by
    intro d hd
    obtain ⟨l, hl, rfl⟩ := Option.map_eq_some_iff.1 hd
    exact (hr.stack cell).links l (List.mem_of_mem_head? hl)
  refine ⟨hr.stack, ?_⟩
  simp only [Reader.finish]
  split
  · rename_i e u d hfinished hlink
    intro x hx
    cases hx
    have hold := hr.finished _ hfinished
    refine ⟨hold.1, fun b hb => ?_⟩
    cases hb
    exact Derivation.within_better (hold.2 e rfl) (hd d hlink)
  · rename_i other hfinished _
    intro x hx
    cases hx
    exact hr.finished other hfinished
  · intro x hx
    cases hx
    exact ⟨ht, hd⟩

end

theorem reduce (a : Automaton) {r : Reader} (hr : r.Within limit) (i cell : Nat) (item : Item) :
    (reduce a r i cell item).Within limit := by
  have hways := hr.stack.ways item.read cell
  -- The stack grows with every way, so the spot is that of the cell in the stack so far.
  apply List.foldlRecOn _ _ hr
  intro r' hr' w hw
  have hitems : ∀ d ∈ w.2.map (Derivation.ofItem item), d.Within limit := by
    intro d hd
    obtain ⟨ds, hds, rfl⟩ := List.mem_map.1 hd
    obtain ⟨v, hv, rfl⟩ := mem_gatherWays hw ds hds
    exact Derivation.within_ofItem (hways v hv) item
  simp only
  split
  · rename_i state d ds _ hparts
    rw [hparts] at hitems
    split
    · exact hr'
    · have hbest : (ds.foldl Derivation.better d).Within limit :=
        List.foldlRecOn _ _ (hitems d List.mem_cons_self) fun _ hb e he =>
          Derivation.within_better hb (hitems e (List.mem_cons_of_mem d he))
      have hstack := hr'.stack.push hbest (hr'.stack cell).spot w.1 state
      exact addHead (r := { r' with stack := _ }) ⟨hstack, hr'.finished⟩ i _
  · exact hr'

theorem reduceAll (a : Automaton) {r : Reader} (hr : r.Within limit) (i cell : Nat)
    (items : List Item) : (reduceAll a r i cell items).1.Within limit :=
  List.foldlRecOn (motive := fun x : Reader × Option Nat => x.1.Within limit) _ _ hr
    fun _ hx item _ => reduce a hx i cell item

theorem take (a : Automaton) (bound fuel : Nat) {r : Reader} (hr : r.Within limit) (i : Nat)
    {t : Token} {behind : Spot} (ht : t.Within limit) (hbehind : behind.Within limit) :
    (take a bound fuel r i t behind).Within limit := by
  induction fuel generalizing r t with
  | zero => exact hr.drop i t
  | succ fuel ih =>
    simp only [Reader.take]
    split
    · rename_i cell symbol _ _
      generalize (if t.terminal.isKeyword = true then a.number? .identifier else none) = other
      generalize Action.ofCell a r.stack bound symbol other cell = action
      have hreduced := reduceAll a hr i cell action.reduced
      generalize Reader.reduceAll a r i cell action.reduced = reduced at hreduced ⊢
      split
      · split
        · exact hreduced.finish ht i cell
        · exact hreduced.shift ht hbehind i cell symbol _
      · exact ih (hreduced.withHeads _) ht
      · split
        · exact ih hreduced ⟨ht.extent, ht.comments⟩
        · exact hreduced.drop i t
    · exact hr.drop i t

theorem advance (a : Automaton) (bound : Nat) {r : Reader} (hr : r.Within limit) (i : Nat) :
    (advance a bound r i).Within limit := by
  simp only [Reader.advance]
  split
  · exact hr
  · rename_i cell _
    split
    · rename_i t behind htoken
      have hread := Token.within_read? (hr.stack cell).spot htoken
      exact take a bound bound hr i hread.1 hread.2
    · exact ⟨hr.stack, hr.finished⟩

theorem catchUp (a : Automaton) (bound fuel : Nat) {r : Reader} (hr : r.Within limit)
    (i reached : Nat) : (catchUp a bound fuel r i reached).1.Within limit := by
  induction fuel generalizing r with
  | zero => exact hr
  | succ fuel ih =>
    have hnext := advance a bound hr i
    simp only [Reader.catchUp]
    split
    · exact hnext
    · split
      · exact hnext
      · exact ih hnext

theorem catchUpAll (a : Automaton) (bound fuel : Nat) {r : Reader} (hr : r.Within limit)
    (i reached : Nat) : (catchUpAll a bound fuel r i reached).1.Within limit := by
  induction fuel generalizing r i reached with
  | zero => exact hr
  | succ fuel ih =>
    simp only [Reader.catchUpAll]
    split
    · split
      · exact ih (catchUp a bound bound hr i reached) _ _
      · exact ih hr _ _
    · exact hr

theorem insert (weight : Nat) {s : Stacks} (hs : s.Within limit) (cells : List Nat) (cell : Nat) :
    (insert s weight cells cell).1.Within limit := by
  induction cells generalizing cell with
  | nil => exact hs
  | cons c cs ih =>
    simp only [Reader.insert]
    split
    · exact hs.merge c cell
    · exact ih _

theorem condense {r : Reader} (hr : r.Within limit) : r.condense.Within limit := by
  refine ⟨?_, hr.finished⟩
  exact List.foldlRecOn (motive := fun x : Stacks × List Nat => x.1.Within limit) _ _ hr.stack
    fun x hx cell _ => insert _ hx x.2 cell

theorem run (a : Automaton) (bound fuel : Nat) {r : Reader} (hr : r.Within limit) (reached : Nat) :
    (run a bound fuel r reached).Within limit := by
  induction fuel generalizing r reached with
  | zero => exact hr
  | succ fuel ih =>
    simp only [Reader.run]
    split
    · exact hr
    · exact ih (catchUpAll a bound bound hr 0 reached).condense _

end Within

end Reader

end Relocate.Source
