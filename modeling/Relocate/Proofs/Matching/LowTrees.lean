import Relocate.Proofs.EditDistance.Diagonal
import Relocate.Proofs.Matching.Diagonal

/-!
# Trees that the top-down phase leaves alone

Of trees up to the least height only the roots are paired, and what is below them is aligned by an
edit script, unless the trees are too large for that. Between trees of one shape the script costs
nothing, and aligns every node with its counterpart.
-/

set_option autoImplicit false

namespace Relocate

namespace Rose

mutual
theorem postOrder_prune (mix : Mix) (taken : Nat → Bool) (above : List Wrapped) (next : Nat) :
    (t : Rose Tag) → (∀ id, next < id → taken id = false) →
      (Place.prune taken above (wrapFrom mix next t)).postOrder.map label =
        (⟨wrapFrom mix next t, above⟩ : Place).postOrder
  | node tag cs => by
    intro h
    rw [wrapFrom, Place.prune, postOrder, Place.postOrder_eq, Place.children_mk_node,
      List.map_append, postOrderAll_pruneAll mix taken _ (next + 1) cs fun id hid => h id hid]
    rfl

theorem postOrderAll_pruneAll (mix : Mix) (taken : Nat → Bool) (above : List Wrapped)
    (next : Nat) : (cs : List (Rose Tag)) → (∀ id, next ≤ id → taken id = false) →
      (postOrderAll (Place.pruneAll taken above (wrapAllFrom mix next cs))).map label =
        ((wrapAllFrom mix next cs).map fun c => (⟨c, above⟩ : Place)).flatMap Place.postOrder
  | [] => fun _ => rfl
  | c :: cs => by
    intro h
    have hid : (wrapFrom mix next c).id = next := by cases c; rfl
    rw [wrapAllFrom, Place.pruneAll, hid, h next (Nat.le_refl next), if_neg Bool.false_ne_true,
      postOrderAll, List.map_append, List.map_cons, List.flatMap_cons,
      postOrder_prune mix taken above next c fun id hid => h id (Nat.le_of_lt hid),
      postOrderAll_pruneAll mix taken above (next + c.size) cs fun id hid => h id (by omega)]
end

end Rose

theorem Reduced.items_ofPlace_root {mix : Mix} {t : Ast} {taken : Nat → Bool}
    (h : ∀ id, 0 < id → taken id = false) :
    (Reduced.ofPlace taken (Place.root (Rose.wrap mix t))).items.map Item.label =
      (Place.root (Rose.wrap mix t)).postOrder := by
  rw [items, ← Rose.map_label_postOrder, ofPlace, Rose.map_label_numberPost]
  exact Rose.postOrder_prune mix taken [] 0 t h

namespace Matching

open Store

variable {mix : Mix} {config : Config} {a b : Ast} {S D : Wrapped} {s d : Place}

theorem Marks.lookup_blank (T : Wrapped) (id : Nat) : (Marks.blank T).lookup id = {} := by
  rw [blank, lookup, Array.getElem?_replicate]
  split <;> rfl

theorem TopDown.run_of_low {minHeight : Nat} (st : Store) (hs : s.height ≤ minHeight)
    (hd : d.height ≤ minHeight) : TopDown.run minHeight s d st = st := by
  have hstep : step? minHeight (start st s d) = none := by
    simp [step?, start, Pool.top, hs, hd]
  have hexhaust : exhaust minHeight (start st s d) = start st s d := by
    rw [exhaust, hstep]
  rw [run, hexhaust]
  simp [ranked, start]

theorem BottomUp.visit_empty (hs : s.above ≠ []) (dsts : List Place) :
    visit config d dsts (Store.empty S D) s = Store.empty S D := by
  have hblank : (Store.empty S D).src.lookup s.id = {} := Marks.lookup_blank S s.id
  simp [visit, isMappedSrc, hblank, Place.isRoot, hs]

theorem BottomUp.foldl_visit_empty (dsts : List Place) {ps : List Place}
    (hps : ∀ p ∈ ps, p.above ≠ []) :
    ps.foldl (visit config d dsts) (Store.empty S D) = Store.empty S D := by
  induction ps with
  | nil => rfl
  | cons p ps ih =>
    rw [List.foldl_cons, visit_empty (hps p List.mem_cons_self)]
    exact ih fun q hq => hps q (List.mem_cons_of_mem p hq)

theorem admits_empty (S D : Wrapped) (s d : Place) : (Store.empty S D).admits s d = true := by
  simp [admits, isMappedSrc, isMappedDst, Store.empty, Marks.lookup_blank]

def rooted (S D : Wrapped) : Store := (Store.empty S D).commit (Place.root S) (Place.root D)

theorem BottomUp.run_empty (config : Config) (S D : Wrapped) :
    run config (Place.root S) (Place.root D) (Store.empty S D) =
      refine config.maxSize (rooted S D) (Place.root S) (Place.root D) := by
  have hbelow : ∀ p ∈ (Place.root S).children.flatMap Place.postOrder, p.above ≠ [] := by
    intro p hp
    obtain ⟨c, hc, hpc⟩ := List.mem_flatMap.1 hp
    exact Place.above_ne_nil_of_mem_descendants
      (Place.mem_descendants.2 ⟨c, hc, Place.mem_postOrder.1 hpc⟩)
  have hroot : visit config (Place.root D) (Place.root D).postOrder (Store.empty S D)
      (Place.root S) = pair config (Store.empty S D) (Place.root S) (Place.root D) := by
    simp [visit, isMappedSrc, Store.empty, Marks.lookup_blank, Place.isRoot, Place.root]
  rw [run, Place.postOrder_eq (Place.root S), List.foldl_append, foldl_visit_empty _ hbelow,
    List.foldl_cons, List.foldl_nil, hroot, pair, if_pos (admits_empty S D _ _), rooted]

/-- Of two low trees the roots are paired first, and then refined. -/
theorem matchWrapped_of_low (hs : S.height ≤ config.minHeight) (hd : D.height ≤ config.minHeight) :
    matchWrapped config S D =
      BottomUp.refine config.maxSize (rooted S D) (Place.root S) (Place.root D) := by
  rw [matchWrapped, TopDown.run_of_low _ hs hd, BottomUp.run_empty]

theorem Marks.isMapped_lookup_root (mix : Mix) (t : Ast) (p : Place) (id : Nat) :
    (((Marks.blank (Rose.wrap mix t)).adjust (Place.root (Rose.wrap mix t)).id
      (·.withPartner p)).lookup id).isMapped = (id == 0) := by
  have hroot : (Place.root (Rose.wrap mix t)).id = 0 := Rose.id_wrap mix t
  have hsize : 0 < Array.size (Marks.blank (Rose.wrap mix t)) := by
    rw [blank, Array.size_replicate]
    exact Rose.size_pos _
  rw [hroot]
  cases id with
  | zero =>
    rw [lookup_adjust _ 0 0 _ hsize, if_pos rfl]
    rfl
  | succ id =>
    rw [lookup_adjust_of_ne _ _ (Nat.succ_ne_zero id).symm, lookup_blank]
    rfl

def whole (mix : Mix) (t : Ast) : Reduced :=
  Reduced.ofPlace (· == 0) (Place.root (Rose.wrap mix t))

def freePairs (mix : Mix) (a b : Ast) : List (Place × Place) :=
  (EditDistance.placeScript (EditDistance.alignment (whole mix a) (whole mix b))).filterMap
    EditDistance.PlaceOp.freePair?

theorem items_whole (mix : Mix) (t : Ast) :
    (whole mix t).items.map Item.label = (Place.root (Rose.wrap mix t)).postOrder := by
  apply Reduced.items_ofPlace_root
  intro id hid
  exact beq_false_of_ne hid.ne'

theorem size_whole (mix : Mix) (t : Ast) : (whole mix t).size = t.size := by
  have hlength := congrArg List.length (items_whole mix t)
  rwa [List.length_map, Reduced.items, List.length_map, Rose.length_postOrder,
    (Place.postOrder_perm _).length_eq, Place.length_preOrder, Place.size, Place.root,
    Rose.size_wrap] at hlength

theorem count_whole (mix : Mix) (t : Ast) : (whole mix t).count = t.size := by
  have hpos := Rose.size_pos (whole mix t)
  rw [← size_whole mix t, Reduced.count, Item.size]
  simp only [whole, Reduced.ofPlace, Rose.order_numberPost, Rose.leftmost_numberPost,
    Rose.size_numberPost] at hpos ⊢
  omega

theorem refine_rooted (maxSize : Nat) (mix : Mix) (a b : Ast) :
    BottomUp.refine maxSize (rooted (Rose.wrap mix a) (Rose.wrap mix b))
        (Place.root (Rose.wrap mix a)) (Place.root (Rose.wrap mix b)) =
      if a.size + b.size < maxSize then
        (rooted (Rose.wrap mix a) (Rose.wrap mix b)).linkAll (freePairs mix a b)
      else rooted (Rose.wrap mix a) (Rose.wrap mix b) := by
  have hsrc : BottomUp.reducedSrc (rooted (Rose.wrap mix a) (Rose.wrap mix b))
      (Place.root (Rose.wrap mix a)) = whole mix a := by
    rw [BottomUp.reducedSrc, whole]
    congr 1
    funext id
    exact Marks.isMapped_lookup_root mix a _ id
  have hdst : BottomUp.reducedDst (rooted (Rose.wrap mix a) (Rose.wrap mix b))
      (Place.root (Rose.wrap mix b)) = whole mix b := by
    rw [BottomUp.reducedDst, whole]
    congr 1
    funext id
    exact Marks.isMapped_lookup_root mix b _ id
  rw [BottomUp.refine, hsrc, hdst, count_whole, count_whole, freePairs]

section Copies

variable (h : a.outline = b.outline)

include h

theorem items_bare_eq (mix : Mix) : (whole mix a).items.map (Item.map (Place.relabel (.bare id))) =
    (whole mix b).items.map (Item.map (Place.relabel (.bare id))) := by
  rw [whole, whole, ← Reduced.items_relabel, ← Reduced.items_relabel, Place.root_relabel,
    Place.root_relabel, Rose.map_wrap_bare, Rose.map_wrap_bare, h]

omit h in
theorem content_eq_of_relabel_eq (p q : Place)
    (h : p.relabel (.bare id) = q.relabel (.bare id)) : p.node.content = q.node.content := by
  have htag := congrArg (fun r : Place => r.tag.toContent) h
  simp only [Place.tag_relabel] at htag
  exact htag

theorem mem_freePairs_iff (mix : Mix) {s d : Place} : (s, d) ∈ freePairs mix a b ↔
    ∃ (k : Nat) (x y : Item Place), (whole mix a).items[k]? = some x ∧
      (whole mix b).items[k]? = some y ∧ x.label = s ∧ y.label = d :=
  EditDistance.mem_freePairs_iff (EditDistance.numbered_ofPlace _ _)
    (EditDistance.numbered_ofPlace _ _) (EditDistance.leftmost_size _ _)
    (EditDistance.leftmost_size _ _) (items_bare_eq h mix) content_eq_of_relabel_eq

theorem inside_freePairs (mix : Mix) {s d : Place} (hsd : (s, d) ∈ freePairs mix a b) :
    (s ∈ nodes (Rose.wrap mix a) ∧ d ∈ nodes (Rose.wrap mix b)) ∧ s.id = d.id := by
  obtain ⟨k, x, y, hx, hy, rfl, rfl⟩ := (mem_freePairs_iff h mix).1 hsd
  obtain ⟨y', hy', hxy, -⟩ := EditDistance.exists_item_of_map_eq (items_bare_eq h mix) hx
  rw [hy] at hy'
  cases hy'
  have hids := congrArg Place.id hxy
  rw [Place.id_relabel, Place.id_relabel] at hids
  exact ⟨⟨Reduced.mem_preOrder_of_items (List.mem_of_getElem? hx),
    Reduced.mem_preOrder_of_items (List.mem_of_getElem? hy)⟩, hids⟩

theorem exists_mem_freePairs (mix : Mix) {s : Place} (hs : s ∈ nodes (Rose.wrap mix a)) :
    ∃ d, (s, d) ∈ freePairs mix a b := by
  rw [nodes, ← Place.mem_postOrder, ← items_whole] at hs
  obtain ⟨x, hx, rfl⟩ := List.mem_map.1 hs
  obtain ⟨k, hk⟩ := List.getElem?_of_mem hx
  obtain ⟨y, hy, -, -⟩ := EditDistance.exists_item_of_map_eq (items_bare_eq h mix) hk
  exact ⟨y.label, (mem_freePairs_iff h mix).2 ⟨k, x, y, hk, hy, rfl, rfl⟩⟩

omit h in
theorem diagonal_rooted (mix : Mix) (a b : Ast) :
    (rooted (Rose.wrap mix a) (Rose.wrap mix b)).Diagonal := by
  have hempty : (Store.empty (Rose.wrap mix a) (Rose.wrap mix b)).Diagonal :=
    fun pair hpair => absurd hpair List.not_mem_nil
  exact hempty.adds (Adds.commit ((Rose.id_wrap mix a).trans (Rose.id_wrap mix b).symm) _)

theorem mirrors_linkAll (mix : Mix) :
    ((rooted (Rose.wrap mix a) (Rose.wrap mix b)).linkAll (freePairs mix a b)).Mirrors
      (Rose.wrap mix a) (Rose.wrap mix b) := by
  have hagrees : (rooted (Rose.wrap mix a) (Rose.wrap mix b)).Agrees (Rose.wrap mix a)
      (Rose.wrap mix b) :=
    (agrees_empty _ _).commit (root_mem_nodes _) (root_mem_nodes _) (admits_empty _ _ _ _)
  obtain ⟨hdiagonal, hmem⟩ := (diagonal_rooted mix a b).linkAll hagrees
    (fun pair hpair => (inside_freePairs h mix hpair).1)
    fun pair hpair => (inside_freePairs h mix hpair).2
  refine ⟨hdiagonal, ?_⟩
  intro s hs
  obtain ⟨d, hd⟩ := exists_mem_freePairs h mix hs
  exact ⟨d, hmem (s, d) hd⟩

end Copies

end Matching

end Relocate
