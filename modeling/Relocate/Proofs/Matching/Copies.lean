import Relocate.Proofs.Matching.Pruning
import Relocate.Proofs.Matching.Unique
import Relocate.Proofs.Tree.Numbering
import Relocate.Proofs.Tree.Relabel

/-!
# What a reduced copy contains

A reduced copy contains the root and those places below it that are reached without passing a taken
place, each of them once and in the post-order of the tree. A taken place hides everything below
it, taken or not.
-/

set_option autoImplicit false

namespace Relocate

namespace Place

def wayTo (r q : Place) : List Place := q.upward.takeWhile fun c => c.id != r.id

/-- No place on the way up to `r` is taken. -/
def spared (taken : Nat → Bool) (r q : Place) : Bool := (wayTo r q).all fun c => !taken c.id

variable {mix : Mix} {t : Ast} {taken : Nat → Bool} {p q c r : Place}

theorem parent?_eq_some : p.parent? = some q ↔ p.ancestors.head? = some q := by
  obtain ⟨n, above⟩ := p
  cases above <;> rfl

theorem parent?_of_mem_children (h : c ∈ p.children) : c.parent? = some p := by
  rw [parent?_eq_some, ancestors_of_mem_children h]
  rfl

theorem mem_descendants_of_way {way : List Place} (hc : c ∈ p.children)
    (h : ∀ e ∈ way, e ∈ c.descendants) : ∀ e ∈ way ++ [c], e ∈ p.descendants := by
  intro e he
  rw [mem_descendants]
  rcases List.mem_append.1 he with he | he
  · exact ⟨c, hc, mem_preOrder_of_mem_descendants (h e he)⟩
  · exact ⟨c, hc, by rw [List.mem_singleton.1 he]; exact mem_preOrder_self c⟩

theorem upward_eq_of_way {way : List Place} (hc : c ∈ p.children)
    (h : q.upward = way ++ c.upward) : q.upward = (way ++ [c]) ++ p.upward := by
  rw [h, upward_of_mem_children hc, List.append_assoc]
  rfl

/-- The way up from below a place reaches it after places below it only. -/
theorem exists_way (h : q ∈ p.preOrder) :
    ∃ way, q.upward = way ++ p.upward ∧ ∀ e ∈ way, e ∈ p.descendants := by
  induction p using childInduction with
  | h p ih =>
    rcases mem_preOrder.1 h with rfl | ⟨c, hc, hq⟩
    · exact ⟨[], rfl, by simp⟩
    · obtain ⟨way, hway, hbelow⟩ := ih c hc hq
      exact ⟨way ++ [c], upward_eq_of_way hc hway, mem_descendants_of_way hc hbelow⟩

theorem id_lt_of_mem_descendants (hp : p ∈ nodes (Rose.wrap mix t)) (hq : q ∈ p.descendants) :
    p.id < q.id :=
  Matching.id_lt_of_mem_ancestors (mem_nodes_of_mem_descendants hp hq)
    (mem_ancestors_of_mem_descendants hq)

theorem wayTo_of_upward {way : List Place} (hp : p ∈ nodes (Rose.wrap mix t))
    (hway : q.upward = way ++ p.upward) (hbelow : ∀ e ∈ way, e ∈ p.descendants) :
    wayTo p q = way := by
  rw [wayTo, hway, List.takeWhile_append_of_pos, upward, List.takeWhile_cons_of_neg (by simp),
    List.append_nil]
  intro e he
  have := id_lt_of_mem_descendants hp (hbelow e he)
  simp only [bne_iff_ne, ne_eq]
  omega

theorem spared_self (taken : Nat → Bool) (p : Place) : spared taken p p = true := by
  rw [spared, wayTo, upward, List.takeWhile_cons_of_neg (by simp)]
  rfl

theorem spared_of_mem_children (hp : p ∈ nodes (Rose.wrap mix t)) (hc : c ∈ p.children)
    (hq : q ∈ c.preOrder) : spared taken p q = (!taken c.id && spared taken c q) := by
  obtain ⟨way, hway, hbelow⟩ := exists_way hq
  rw [spared, spared, wayTo_of_upward (mem_nodes_of_mem_children hp hc) hway hbelow,
    wayTo_of_upward hp (upward_eq_of_way hc hway) (mem_descendants_of_way hc hbelow),
    List.all_append, List.all_cons, List.all_nil, Bool.and_true, Bool.and_comm]

theorem pruneAll_eq (taken : Nat → Bool) (above : List Wrapped) (cs : List Wrapped) :
    pruneAll taken above cs = ((cs.map fun c => (⟨c, above⟩ : Place)).filter fun c =>
      !taken c.id).map fun c => prune taken c.above c.node := by
  induction cs with
  | nil => rfl
  | cons c cs ih =>
    rw [pruneAll, ih]
    by_cases h : taken c.id = true
    · simp [h, id]
    · simp [h, id]

theorem prune_eq (taken : Nat → Bool) (p : Place) : prune taken p.above p.node =
    .node p ((p.children.filter fun c => !taken c.id).map fun c => prune taken c.above c.node) := by
  obtain ⟨⟨l, cs⟩, above⟩ := p
  rw [prune, pruneAll_eq]
  rfl

theorem flatMap_spared {cs : List Place} (hp : p ∈ nodes (Rose.wrap mix t))
    (hcs : cs ⊆ p.children) :
    cs.flatMap (fun c => c.postOrder.filter (spared taken p)) =
      (cs.filter fun c => !taken c.id).flatMap fun c => c.postOrder.filter (spared taken c) := by
  induction cs with
  | nil => rfl
  | cons c cs ih =>
    obtain ⟨hc, hcs⟩ := List.cons_subset.1 hcs
    have hspared : c.postOrder.filter (spared taken p) =
        c.postOrder.filter fun q => !taken c.id && spared taken c q :=
      List.filter_congr fun q hq => spared_of_mem_children hp hc (mem_postOrder.1 hq)
    rw [List.flatMap_cons, hspared, ih hcs]
    cases htaken : taken c.id <;> simp [htaken]

/-- What is spared on the way up to the root is what pruning leaves. -/
theorem postOrder_prune_eq_filter (hp : p ∈ nodes (Rose.wrap mix t)) :
    (prune taken p.above p.node).postOrder.map Rose.label =
      p.postOrder.filter (spared taken p) := by
  induction p using childInduction with
  | h p ih =>
    have hbelow : ∀ c ∈ p.children.filter fun c => !taken c.id,
        (prune taken c.above c.node).postOrder.map Rose.label =
          c.postOrder.filter (spared taken c) := by
      intro c hc
      have hchild := (List.mem_filter.1 hc).1
      exact ih c hchild (mem_nodes_of_mem_children hp hchild)
    rw [prune_eq, Rose.postOrder, Rose.postOrderAll_eq_flatMap, postOrder_eq, List.map_append,
      List.filter_append, List.filter_cons_of_pos (spared_self taken p), List.filter_nil,
      List.filter_flatMap, List.flatMap_map, List.map_flatMap, List.flatMap_congr hbelow,
      flatMap_spared hp (List.Subset.refl _)]
    rfl

end Place

namespace Reduced

variable {mix : Mix} {t : Ast} {taken : Nat → Bool} {r : Place} {A u v : Reduced}

theorem map_label_items_ofPlace (hr : r ∈ nodes (Rose.wrap mix t)) :
    (ofPlace taken r).items.map Item.label = r.postOrder.filter (Place.spared taken r) := by
  rw [items, ← Rose.map_label_postOrder, ofPlace, Rose.map_label_numberPost,
    Place.postOrder_prune_eq_filter hr]

theorem exists_address (h : u ∈ A.postOrder) : ∃ x, A.subtree? x = some u := by
  rw [← Rose.map_snd_located] at h
  obtain ⟨⟨x, u⟩, hu, rfl⟩ := List.mem_map.1 h
  exact ⟨x, (Rose.subtree?_eq_some_iff A u x).2 hu⟩

theorem Keeps.subtree {x : Address} (h : Keeps taken A) (hx : A.subtree? x = some u) :
    Keeps taken u := by
  induction x generalizing A with
  | nil =>
    cases hx
    exact h
  | cons i x ih =>
    obtain ⟨c, hc, hu⟩ := Option.bind_eq_some_iff.1 hx
    exact ih (h.of_mem_children (List.mem_of_getElem? hc)).1 hu

theorem Keeps.map_place_children (h : Keeps taken u) :
    u.children.map place = (place u).children.filter fun c => !taken c.id := by
  cases h with
  | node children _ => exact children

theorem Keeps.mem_children_iff (h : Keeps taken A) (hA : place A ∈ nodes (Rose.wrap mix t))
    {x y : Address} (hu : A.subtree? x = some u) (hv : A.subtree? y = some v) :
    v ∈ u.children ↔ (place v).parent? = some (place u) := by
  constructor
  · intro hchild
    exact Place.parent?_of_mem_children ((h.subtree hu).of_mem_children hchild).2.1
  · intro hparent
    rcases List.eq_nil_or_concat y with rfl | ⟨y, i, rfl⟩
    -- the parent of the copy's root is not in the copy
    · exfalso
      obtain rfl : A = v := Option.some.inj hv
      have habove : place u ∈ (place A).ancestors := by
        rw [Place.parent?_eq_some] at hparent
        exact List.mem_of_mem_head? hparent
      have hup := Matching.id_lt_of_mem_ancestors hA habove
      have hdown := bounds_of_mem_preOrder hA (h.mem_preOrder hu)
      omega
    · rw [List.concat_eq_append, Rose.subtree?_append] at hv
      obtain ⟨w, hw, hv⟩ := Option.bind_eq_some_iff.1 hv
      rw [Rose.subtree?_singleton] at hv
      have hchild := List.mem_of_getElem? hv
      have hsame := Place.parent?_of_mem_children ((h.subtree hw).of_mem_children hchild).2.1
      rw [hparent, Option.some.injEq] at hsame
      obtain rfl := h.address_eq hA hu hw (congrArg Place.id hsame)
      obtain rfl : u = w := Option.some.inj (hu.symm.trans hw)
      exact hchild

/-- A copy of the places below `r` that are reached without passing a taken one, and of `r`, with
the parents and the order of the tree. -/
structure Copies (taken : Nat → Bool) (r : Place) (A : Reduced) : Prop where
  places : A.items.map Item.label = r.postOrder.filter (Place.spared taken r)
  parent : ∀ u ∈ A.postOrder, ∀ v ∈ A.postOrder,
    v ∈ u.children ↔ (place v).parent? = some (place u)
  siblings : ∀ u ∈ A.postOrder,
    u.children.map place = (place u).children.filter fun c => !taken c.id

/-- Whatever is taken, the reduced copy of a place copies what is left below it, and its post-order
numbers give every subtree as an interval. -/
theorem ofPlace_copies (mix : Mix) (t : Ast) (taken : Nat → Bool) (r : Place)
    (hr : r ∈ nodes (Rose.wrap mix t)) :
    Copies taken r (ofPlace taken r) ∧ (ofPlace taken r).Intervals := by
  have hkeeps := keeps_ofPlace taken r
  have hroot : place (ofPlace taken r) ∈ nodes (Rose.wrap mix t) := by
    rwa [place_ofPlace]
  refine ⟨⟨map_label_items_ofPlace hr, ?_, ?_⟩, Rose.intervals_numberPost _⟩
  · intro u hu v hv
    obtain ⟨x, hx⟩ := exists_address hu
    obtain ⟨y, hy⟩ := exists_address hv
    exact hkeeps.mem_children_iff hroot hx hy
  · intro u hu
    obtain ⟨x, hx⟩ := exists_address hu
    exact (hkeeps.subtree hx).map_place_children

/-- Of the sample block, with its call taken, the literal and the block are left. The name in the
call is not taken, but cannot be reached. -/
theorem ofPlace_copies_moved :
    let block := Place.root (Rose.wrap Mix.standard Matching.Moved.before)
    block ∈ nodes (Rose.wrap Mix.standard Matching.Moved.before) ∧
      (block.postOrder.filter (Place.spared (· == 1) block)).map Place.id = [3, 0] ∧
      (ofPlace (· == 1) block).postOrder.map (fun u => u.label.order) = [1, 2] := by
  intro block
  have hblock : block ∈ nodes (Rose.wrap Mix.standard Matching.Moved.before) := root_mem_nodes _
  obtain ⟨hcopies, hintervals⟩ :=
    ofPlace_copies Mix.standard Matching.Moved.before (· == 1) block hblock
  refine ⟨hblock, ?_, ?_⟩
  · rw [← hcopies.places]
    decide +kernel
  · rw [hintervals.orders]
    decide +kernel

end Reduced

end Relocate
