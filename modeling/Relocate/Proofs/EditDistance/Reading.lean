import Relocate.Proofs.EditDistance.Distance
import Relocate.Proofs.EditDistance.Route

/-!
# Reading a script

The stack of blocks is worked off block by block. Each block is filled again from the settled trees,
which changes none of them, and its route yields at least one operation, so the blocks that it adds
to the stack are smaller than it is together. In the end the operations treat every node of the two
trees once and cost the edit distance.
-/

set_option autoImplicit false

namespace Relocate.EditDistance

variable {α : Type} {p : Problem α}

def AlignsTrees (p : Problem α) (u : Nat × Nat) (ops : List EditOp) : Prop :=
  Aligns p (p.srcLeftmost u.1) u.1 (p.dstLeftmost u.2) u.2 ops

def blockSize (p : Problem α) (u : Nat × Nat) : Nat :=
  (u.1 + 1 - p.srcLeftmost u.1) + (u.2 + 1 - p.dstLeftmost u.2)

def stackSize (p : Problem α) (stack : List (Nat × Nat)) : Nat := (stack.map (blockSize p)).sum

namespace Route

variable {a b r c : Nat} {trace : Trace}

theorem aligns (h : Route p a b r c trace) (hp : p.Ordered) (ha : 1 ≤ a) (hb : 1 ≤ b)
    {parts : List (List EditOp)} (hparts : List.Forall₂ (AlignsTrees p) trace.blocks parts) :
    Aligns p a r b c (trace.ops ++ parts.flatten) := by
  induction h generalizing parts with
  | corner hr hc =>
    cases hparts
    exact Aligns.nil p hr hc
  | delete hr hcost _ ih => exact (ih hparts).delete hr (by omega) hcost
  | insert hc hcost _ ih => exact (ih hparts).insert hc (by omega) hcost
  | change hr hc hlr hlc hcost _ ih => exact (ih hparts).change hlr hlc ha hb hr hc hcost
  | block hrange har hbc _ hcost _ ih =>
    cases hparts with
    | cons hfirst hrest =>
      have hlr := hp.src.le _ hrange.src_pos hrange.src_le
      have hlc := hp.dst.le _ hrange.dst_pos hrange.dst_le
      have hall := (ih hrest).block hfirst hp hrange.src_le hrange.dst_le ha hb har hbc hlr hlc
        hcost
      apply hall.perm
      rw [List.flatten_cons, Trace.withBlock, List.append_assoc]
      exact List.perm_append_comm.append_left _

theorem inRange (h : Route p a b r c trace) {u : Nat × Nat} (hu : u ∈ trace.blocks) :
    Tables.InRange p u.1 u.2 := by
  induction h with
  | corner => cases hu
  | delete _ _ _ ih => exact ih hu
  | insert _ _ _ ih => exact ih hu
  | change _ _ _ _ _ _ ih => exact ih hu
  | block hrange _ _ _ _ _ ih =>
    rcases List.mem_cons.1 hu with rfl | hu
    · exact hrange
    · exact ih hu

/-- The blocks and the operations share the nodes of the window. -/
theorem stackSize_le (h : Route p a b r c trace) (hp : p.Ordered) (ha : 1 ≤ a) (hb : 1 ≤ b) :
    stackSize p trace.blocks + trace.ops.length ≤ (r + 1 - a) + (c + 1 - b) := by
  induction h with
  | corner => exact Nat.zero_le _
  | delete hr _ _ ih =>
    simp only [Trace.withOp, List.length_cons]
    omega
  | insert hc _ _ ih =>
    simp only [Trace.withOp, List.length_cons]
    omega
  | change hr hc _ _ _ _ ih =>
    simp only [Trace.withOp, List.length_cons]
    omega
  | block hrange har hbc _ _ _ ih =>
    have hlr := hp.src.le _ hrange.src_pos hrange.src_le
    have hlc := hp.dst.le _ hrange.dst_pos hrange.dst_le
    simp only [stackSize, Trace.withBlock, List.map_cons, List.sum_cons, blockSize] at ih ⊢
    omega

theorem ops_ne_nil (h : Route p a b r c trace) (hr : p.srcLeftmost r = a)
    (hc : p.dstLeftmost c = b) (har : a ≤ r) : trace.ops ≠ [] := by
  cases h with
  | corner hlt => omega
  | delete => exact List.cons_ne_nil _ _
  | insert => exact List.cons_ne_nil _ _
  | change => exact List.cons_ne_nil _ _
  | block _ _ _ hne => exact absurd ⟨hr, hc⟩ hne

theorem stackSize_lt (h : Route p (p.srcLeftmost r) (p.dstLeftmost c) r c trace) (hp : p.Ordered)
    (hrc : Tables.InRange p r c) (stack : List (Nat × Nat)) :
    stackSize p (trace.blocks.reverse ++ stack) < stackSize p ((r, c) :: stack) := by
  have hsize := h.stackSize_le hp (hp.src.pos r hrc.src_pos hrc.src_le)
    (hp.dst.pos c hrc.dst_pos hrc.dst_le)
  have hops := List.length_pos_iff.2
    (h.ops_ne_nil rfl rfl (hp.src.le r hrc.src_pos hrc.src_le))
  simp only [stackSize, List.map_append, List.sum_append, List.map_reverse, List.sum_reverse,
    List.map_cons, List.sum_cons, blockSize] at hsize ⊢
  omega

end Route

/-- Working off the stack, block by block, every block by a walk without a start step. -/
inductive Reads (p : Problem α) : List (Nat × Nat) → Tables → List EditOp → Tables → Prop
  | done (t : Tables) : Reads p [] t [] t
  | block {i j : Nat} {stack : List (Nat × Nat)} {t last : Tables} {trace : Trace}
      {ops : List EditOp} :
      Walk p (t.fillBlock p i j) (p.srcLeftmost i - 1) (p.dstLeftmost j - 1) i j trace →
      Reads p (trace.blocks.reverse ++ stack) (t.fillBlock p i j) ops last →
      Reads p ((i, j) :: stack) t (trace.ops ++ ops) last

namespace Tables

structure AllSettled (p : Problem α) (t : Tables) : Prop where
  sized : t.Sized p
  trees : ∀ x y, InRange p x y → t.trees.get x y = some (p.treeCost x y)

theorem allSettled_complete (hp : Numbered p) : AllSettled p (complete p) where
  sized := (completed_complete hp).sized
  trees := fun _ _ => trees_complete hp

variable {t : Tables} {i j : Nat}

theorem AllSettled.provided (h : AllSettled p t) (hp : p.Ordered) (hij : InRange p i j) :
    Provided p i j t := by
  obtain ⟨hi1, hin, hj1, hjm⟩ := hij
  intro x y hx hxi hy hyj _
  have hi := hp.src.pos i hi1 hin
  have hj := hp.dst.pos j hj1 hjm
  exact h.trees x y ⟨by omega, by omega, by omega, by omega⟩

theorem AllSettled.fillBlock (h : AllSettled p t) (hp : p.Ordered) (hij : InRange p i j) :
    AllSettled p (fillBlock p i j t) := by
  have hprog := progress_fillBlock hp hij h.sized (h.provided hp hij)
  refine ⟨hprog.settled.sized, ?_⟩
  intro x y hxy
  have hlx := hp.src.le x hxy.src_pos hxy.src_le
  have hly := hp.dst.le y hxy.dst_pos hxy.dst_le
  by_cases hb : x ≤ i ∧ y ≤ j ∧ p.srcLeftmost x = p.srcLeftmost i ∧
      p.dstLeftmost y = p.dstLeftmost j
  · exact hprog.trees x y hb.1 hb.2.1 hb.2.2.1 hb.2.2.2 (by omega) (by omega) (by omega)
  · rw [hprog.frame x y hb]
    exact h.trees x y hxy

end Tables

def AlignsStack (p : Problem α) (stack : List (Nat × Nat)) (ops : List EditOp) : Prop :=
  ∃ parts, List.Forall₂ (AlignsTrees p) stack parts ∧ ops.Perm parts.flatten

theorem AlignsStack.block {i j : Nat} {stack : List (Nat × Nat)} {trace : Trace}
    {ops : List EditOp} (hp : p.Ordered) (hij : Tables.InRange p i j)
    (hroute : Route p (p.srcLeftmost i) (p.dstLeftmost j) i j trace)
    (h : AlignsStack p (trace.blocks.reverse ++ stack) ops) :
    AlignsStack p ((i, j) :: stack) (trace.ops ++ ops) := by
  obtain ⟨parts, hparts, hperm⟩ := h
  let n := trace.blocks.reverse.length
  have hfirst := List.forall₂_take n hparts
  have hrest := List.forall₂_drop n hparts
  rw [List.take_left] at hfirst
  rw [List.drop_left] at hrest
  have hblocks : List.Forall₂ (AlignsTrees p) trace.blocks (parts.take n).reverse := by
    rw [← List.reverse_reverse trace.blocks]
    exact List.rel_reverse hfirst
  have hall := hroute.aligns hp (hp.src.pos i hij.src_pos hij.src_le)
    (hp.dst.pos j hij.dst_pos hij.dst_le) hblocks
  refine ⟨(trace.ops ++ (parts.take n).reverse.flatten) :: parts.drop n, .cons hall hrest, ?_⟩
  rw [List.flatten_cons, List.append_assoc]
  apply List.Perm.append_left
  rw [← List.take_append_drop n parts, List.flatten_append] at hperm
  exact hperm.trans ((List.reverse_perm (parts.take n)).symm.flatten.append_right _)

/-- The stack is worked off within as many steps as its blocks have nodes. -/
theorem reads_readPending (hp : p.Ordered) (fuel : Nat) (stack : List (Nat × Nat)) {t : Tables}
    (ht : Tables.AllSettled p t) (hstack : ∀ u ∈ stack, Tables.InRange p u.1 u.2)
    (hfuel : stackSize p stack < fuel) :
    Reads p stack t (readPending p fuel stack t).1 (readPending p fuel stack t).2 ∧
      AlignsStack p stack (readPending p fuel stack t).1 := by
  induction fuel generalizing stack t with
  | zero => omega
  | succ fuel ih =>
    cases stack with
    | nil => exact ⟨.done t, [], .nil, List.Perm.refl []⟩
    | cons u stack =>
      obtain ⟨i, j⟩ := u
      have hij : Tables.InRange p i j := hstack (i, j) List.mem_cons_self
      have hfilled := Tables.filled_fillBlock hp hij ht.sized (ht.provided hp hij)
      have hli := hp.src.le i hij.src_pos hij.src_le
      have hlj := hp.dst.le j hij.dst_pos hij.dst_le
      obtain ⟨walk, route⟩ := Tables.walk_traceBack hp hij hfilled (i + j) i j
        (by omega) (Nat.le_refl i) (by omega) (Nat.le_refl j) (Nat.le_refl _)
      -- a block leaves fewer nodes on the stack than it had, so the fuel lasts
      have hsize := route.stackSize_lt hp hij stack
      have hrest := ih ((readBlock p (t.fillBlock p i j) i j).blocks.reverse ++ stack)
        (ht.fillBlock hp hij)
        (by
          intro u hu
          rcases List.mem_append.1 hu with hu | hu
          · exact route.inRange (List.mem_reverse.1 hu)
          · exact hstack u (List.mem_cons_of_mem _ hu))
        (by
          simp only [readBlock]
          omega)
      exact ⟨.block walk hrest.1, AlignsStack.block hp hij route hrest.2⟩

theorem aligns_script {A B : Reduced} (hA : A.Numbered) (hB : B.Numbered)
    (hla : A.leftmost A.size = 1) (hlb : B.leftmost B.size = 1) :
    (∃ last, Reads (alignment A B) [(A.size, B.size)] (.complete (alignment A B))
      (alignment A B).script last) ∧
    Aligns (alignment A B) 1 A.size 1 B.size (alignment A B).script := by
  have hp := numbered_alignment hA hB
  have hs := Rose.size_pos A
  have hd := Rose.size_pos B
  have hroot : Tables.InRange (alignment A B) A.size B.size :=
    ⟨hs, by rw [size_src_alignment], hd, by rw [size_dst_alignment]⟩
  have hread := reads_readPending hp.toOrdered (A.size + B.size + 1)
    [(A.size, B.size)] (Tables.allSettled_complete hp)
    (by intro u hu; rw [List.mem_singleton.1 hu]; exact hroot)
    (by
      simp only [stackSize, List.map_singleton, List.sum_singleton, blockSize,
        srcLeftmost_alignment, dstLeftmost_alignment, hla, hlb]
      omega)
  rw [Problem.script, scriptFrom, size_src_alignment, size_dst_alignment]
  obtain ⟨reads, parts, hparts, hperm⟩ := hread
  refine ⟨⟨_, reads⟩, ?_⟩
  cases hparts with
  | cons hfirst hrest =>
    cases hrest
    rw [AlignsTrees, srcLeftmost_alignment, dstLeftmost_alignment, hla, hlb] at hfirst
    rw [List.flatten_cons, List.flatten_nil, List.append_nil] at hperm
    exact hfirst.perm hperm.symm

/-- A cheapest script: every node is treated once, the changes form an edit mapping and cost nothing
exactly where the contents agree, and the whole costs the edit distance. -/
structure CheapestScript (A B : Reduced) (ops : List EditOp) : Prop where
  sources : (ops.filterMap EditOp.source?).Perm (List.range' 1 A.size)
  targets : (ops.filterMap EditOp.target?).Perm (List.range' 1 B.size)
  mapping : EditMapping A B ((changed ops).image (addressed A B))
  free : ∀ i j cost, .change i j cost ∈ ops →
    (cost = 0 ↔ A.content? (A.address i) = B.content? (B.address j))
  cost : scriptCost ops = (alignment A B).distance

theorem Aligns.cheapestScript {A B : Reduced} {ops : List EditOp} (hA : A.Numbered)
    (hB : B.Numbered) (h : Aligns (alignment A B) 1 A.size 1 B.size ops)
    (hdist : (alignment A B).distance = (alignment A B).least 1 A.size 1 B.size) :
    CheapestScript A B ops where
  sources := by simpa [span] using h.sources
  targets := by simpa [span] using h.targets
  mapping := (editMapping_image_iff hA hB h.within).2 h.aligned
  free := by
    intro i j cost hmem
    have hpair : (i, j) ∈ changed ops := mem_changed.2 ⟨cost, hmem⟩
    rw [h.costs i j cost hmem, changeCost_alignment hA hB (h.within (i, j) hpair)]
    simp
  cost := by rw [h.cost, hdist]

theorem forall₂_filterMap {β γ : Type} {f : β → Option γ} {L : List β}
    (h : ∀ x ∈ L, ∃ y, f x = some y) :
    List.Forall₂ (fun x y => f x = some y) L (L.filterMap f) := by
  induction L with
  | nil => exact .nil
  | cons x L ih =>
    obtain ⟨y, hy⟩ := h x List.mem_cons_self
    rw [List.filterMap_cons_some hy]
    exact .cons hy (ih fun z hz => h z (List.mem_cons_of_mem x hz))

theorem Aligns.exists_placeOp {A B : Reduced} {ops : List EditOp}
    (h : Aligns (alignment A B) 1 A.size 1 B.size ops) {op : EditOp} (hop : op ∈ ops) :
    ∃ placed, placeOp? (alignment A B) op = some placed := by
  have hsrc : ∀ i, op.source? = some i → ∃ s, (alignment A B).src[i - 1]? = some s := by
    intro i hi
    have hm := mem_span.1 (h.sources.subset (List.mem_filterMap.2 ⟨op, hop, hi⟩))
    have hn := size_src_alignment A B
    exact ⟨_, Array.getElem?_eq_getElem (by omega)⟩
  have hdst : ∀ j, op.target? = some j → ∃ d, (alignment A B).dst[j - 1]? = some d := by
    intro j hj
    have hm := mem_span.1 (h.targets.subset (List.mem_filterMap.2 ⟨op, hop, hj⟩))
    have hn := size_dst_alignment A B
    exact ⟨_, Array.getElem?_eq_getElem (by omega)⟩
  cases op with
  | delete i =>
    obtain ⟨s, hs⟩ := hsrc i rfl
    exact ⟨.delete s.label, by rw [placeOp?, hs, Option.map_some]⟩
  | insert j =>
    obtain ⟨d, hd⟩ := hdst j rfl
    exact ⟨.insert d.label, by rw [placeOp?, hd, Option.map_some]⟩
  | change i j cost =>
    obtain ⟨s, hs⟩ := hsrc i rfl
    obtain ⟨d, hd⟩ := hdst j rfl
    exact ⟨.change s.label d.label cost, by simp only [placeOp?, hs, hd]⟩

/-- Reading the script of two reduced trees comes to an end without meeting a start step, and gives
a cheapest script; the script on places is the same, operation by operation. -/
theorem cheapestScript_script (takenA takenB : Nat → Bool) (a b : Place) :
    let A := Reduced.ofPlace takenA a
    let B := Reduced.ofPlace takenB b
    (∃ last, Reads (alignment A B) [(A.size, B.size)] (.complete (alignment A B))
      (alignment A B).script last) ∧
    CheapestScript A B (alignment A B).script ∧
    List.Forall₂ (fun op placed => placeOp? (alignment A B) op = some placed)
      (alignment A B).script (placeScript (alignment A B)) := by
  intro A B
  have hA : A.Numbered := numbered_ofPlace takenA a
  have hB : B.Numbered := numbered_ofPlace takenB b
  obtain ⟨hread, halign⟩ := aligns_script hA hB (leftmost_size takenA a) (leftmost_size takenB b)
  exact ⟨hread, halign.cheapestScript hA hB (distance_alignment takenA takenB a b),
    forall₂_filterMap fun _ => halign.exists_placeOp⟩

end Relocate.EditDistance
