import Mathlib.Data.Rat.Defs
import Mathlib.Tactic.Positivity
import Relocate.Proofs.Matching.LowTrees
import Relocate.Proofs.Matching.Unique

/-!
# Matching a tree with a copy of it

Between two trees of one shape a node is only ever mapped to the node with its number. Trees above
the least height are linked as wholes by the top-down phase, lower ones are mirrored by refining
their roots, or left at that when they are too large.
-/

set_option autoImplicit false

namespace Relocate.Matching

theorem eq_of_mem_zip {α β γ : Type} {f : α → γ} {g : β → γ} {l : List α} {k : List β}
    (h : l.map f = k.map g) {u : α × β} (hu : u ∈ l.zip k) : f u.1 = g u.2 := by
  induction l generalizing k with
  | nil => cases hu
  | cons x l ih =>
    cases k with
    | nil => cases hu
    | cons y k =>
      rw [List.map_cons, List.map_cons, List.cons.injEq] at h
      rcases List.mem_cons.1 hu with rfl | hu
      · exact h.1
      · exact ih h.2 hu

section High

open Store

variable {mix : Mix} {config : Config} {a b : Ast}

theorem height_wrap (mix : Mix) (t : Ast) : (Rose.wrap mix t).height = t.height := by
  rw [← Rose.height_map (fun l => l.tag.toContent), ← Rose.height_map Tag.toContent t]
  exact congrArg Rose.height (Rose.shape_wrapFrom mix 0 t)

theorem eq_root_of_shape_eq {T : Wrapped} {p : Place} (hp : p ∈ nodes T)
    (h : p.node.shape = (Place.root T).node.shape) : p = Place.root T := by
  have hheight := Place.height_eq_of_shape_eq h
  exact (Place.height_le_of_mem_preOrder hp).resolve_right (by omega)

theorem twins_roots (mix : Mix) (h : a.outline = b.outline) :
    Twins (Rose.wrap mix a) (Rose.wrap mix b) (Place.root (Rose.wrap mix a))
      (Place.root (Rose.wrap mix b)) where
  src := root_mem_nodes _
  dst := root_mem_nodes _
  shape := (Rose.shape_wrapFrom mix 0 a).trans (h.trans (Rose.shape_wrapFrom mix 0 b).symm)
  onlySrc := fun _ => eq_root_of_shape_eq
  onlyDst := fun _ => eq_root_of_shape_eq

theorem size_eq_of_outline_eq (h : a.outline = b.outline) : a.size = b.size := by
  rw [← Rose.size_map Tag.toContent a, ← Rose.size_map Tag.toContent b]
  exact congrArg Rose.size h

/-- A tree above the least height is linked with its copy as a whole. -/
theorem mirrors_of_high (h : a.outline = b.outline) (hheight : config.minHeight < a.height) :
    (matchWrapped config (Rose.wrap mix a) (Rose.wrap mix b)).Mirrors
      (Rose.wrap mix a) (Rose.wrap mix b) := by
  have htwins := twins_roots mix h
  have hcarries :=
    carries_matchWrapped config htwins (by rwa [Place.height, Place.root, height_wrap])
  have hagrees := agrees_matchWrapped mix config a b
  have hpartner : ∀ s ∈ nodes (Rose.wrap mix a), ∃ d, s.id = d.id ∧
      (s, d) ∈ (matchWrapped config (Rose.wrap mix a) (Rose.wrap mix b)).pairs.toList := by
    intro s hs
    obtain ⟨x, hx⟩ := Place.exists_descend? hs
    obtain ⟨d, hd, -⟩ := Place.exists_descend?_of_shape_eq htwins.shape hx
    refine ⟨d, ?_, hcarries x s d hx hd⟩
    have hids :
        (nodes (Rose.wrap mix a)).map Place.id = (nodes (Rose.wrap mix b)).map Place.id := by
      rw [map_id_nodes, map_id_nodes, size_eq_of_outline_eq h]
    exact eq_of_mem_zip hids (Place.mem_zip_preOrder htwins.shape hx hd)
  constructor
  · rintro ⟨s, e⟩ hpair
    have hs := hagrees.src.inside (s, e) hpair
    obtain ⟨d, hid, hd⟩ := hpartner s hs
    have hdest := (hagrees.destinationOf?_eq_some_iff hs).2 hpair
    rw [(hagrees.destinationOf?_eq_some_iff hs).2 hd] at hdest
    rwa [← Option.some.inj hdest]
  · intro s hs
    obtain ⟨d, -, hd⟩ := hpartner s hs
    exact ⟨d, hd⟩

end High

section Matched

open Store

variable {mix : Mix} {config : Config} {a b : Ast}

theorem mirrors_matchWrapped (mix : Mix) (config : Config) (h : a.outline = b.outline)
    (hreached : config.minHeight < a.height ∨ 2 * a.size < config.maxSize ∨ a.size = 1) :
    (matchWrapped config (Rose.wrap mix a) (Rose.wrap mix b)).Mirrors
      (Rose.wrap mix a) (Rose.wrap mix b) := by
  by_cases hhigh : config.minHeight < a.height
  · exact mirrors_of_high h hhigh
  · have hsize := size_eq_of_outline_eq h
    have hheight := Place.height_eq_of_shape_eq (twins_roots mix h).shape
    simp only [Place.height, Place.root, height_wrap] at hheight
    rw [matchWrapped_of_low (by rw [height_wrap]; omega) (by rw [height_wrap]; omega),
      refine_rooted]
    by_cases hfit : a.size + b.size < config.maxSize
    · rw [if_pos hfit]
      exact mirrors_linkAll h mix
    · rw [if_neg hfit]
      refine ⟨diagonal_rooted mix a b, ?_⟩
      intro s hs
      have hlt := id_lt_size hs
      have hid : s.id = (Place.root (Rose.wrap mix a)).id := by
        rw [show (Place.root (Rose.wrap mix a)).id = 0 from Rose.id_wrap mix a]
        omega
      rw [eq_of_id_eq hs (root_mem_nodes _) hid]
      exact ⟨_, List.mem_singleton_self _⟩

theorem pairs_matchWrapped (h : a.outline = b.outline) (hlow : a.height ≤ config.minHeight)
    (hlarge : config.maxSize ≤ 2 * a.size) :
    (matchWrapped config (Rose.wrap mix a) (Rose.wrap mix b)).pairs.toList =
      [(Place.root (Rose.wrap mix a), Place.root (Rose.wrap mix b))] := by
  have hsize := size_eq_of_outline_eq h
  have hheight := Place.height_eq_of_shape_eq (twins_roots mix h).shape
  simp only [Place.height, Place.root, height_wrap] at hheight
  rw [matchWrapped_of_low (by rwa [height_wrap]) (by rw [height_wrap]; omega), refine_rooted,
    if_neg (by omega)]
  rfl

theorem diagonal_matchWrapped (mix : Mix) (config : Config) (h : a.outline = b.outline) :
    (matchWrapped config (Rose.wrap mix a) (Rose.wrap mix b)).Diagonal := by
  by_cases hreached : config.minHeight < a.height ∨ 2 * a.size < config.maxSize ∨ a.size = 1
  · exact (mirrors_matchWrapped mix config h hreached).diagonal
  · intro pair hpair
    rw [pairs_matchWrapped h (by omega) (by omega), List.mem_singleton] at hpair
    rw [hpair]
    exact (Rose.id_wrap mix a).trans (Rose.id_wrap mix b).symm

/-- Between trees of one shape, nodes are only mapped to their counterparts: all of them, or the two
roots alone. -/
theorem matchWith_copy (mix : Mix) (config : Config) (a b : Ast) (h : a.outline = b.outline) :
    (∀ pair ∈ (matchWith mix config a b).pairs, pair.1.id = pair.2.id) ∧
    (config.minHeight < a.height ∨ 2 * a.size < config.maxSize ∨ a.size = 1 →
      (∀ s ∈ nodes (Rose.wrap mix a), ∃ d ∈ nodes (Rose.wrap mix b), d.id = s.id ∧
        (matchWith mix config a b).store.destinationOf? s = some d) ∧
      (matchWith mix config a b).isComplete = true ∧
      (1 < a.size →
        let roots := (matchWith mix config a b).store.dice (Place.root (Rose.wrap mix a))
          (Place.root (Rose.wrap mix b))
        (roots.common : ℚ) / roots.total = 1)) ∧
    (¬ (config.minHeight < a.height ∨ 2 * a.size < config.maxSize ∨ a.size = 1) →
      (matchWith mix config a b).pairs =
        [(Place.root (Rose.wrap mix a), Place.root (Rose.wrap mix b))]) := by
  have hagrees := agrees_matchWrapped mix config a b
  refine ⟨diagonal_matchWrapped mix config h, ?_, ?_⟩
  · intro hreached
    have hmirrors := mirrors_matchWrapped mix config h hreached
    refine ⟨fun s hs => hmirrors.exists_destination hagrees hs,
      hmirrors.isComplete hagrees (size_eq_of_outline_eq h), ?_⟩
    intro hn roots
    obtain ⟨hcommon, htotal⟩ := hmirrors.dice_roots hagrees (size_eq_of_outline_eq h) hn
    have hpos : (roots.total : ℚ) ≠ 0 := by exact_mod_cast htotal.ne'
    rw [show roots.common = roots.total from hcommon, div_self hpos]
  · intro hreached
    exact pairs_matchWrapped h (by omega) (by omega)

end Matched

namespace Reflowed

def call (line : Nat) : Ast :=
  .node ⟨⟨"call", some "f"⟩, none, line⟩
    [.leaf "identifier" (some "a") line, .leaf "identifier" (some "a") (line + 1)]

end Reflowed

/-- Two equal arguments keep their places when the call moves to other lines. -/
theorem matchWith_copy_reflowed :
    (Reflowed.call 1).outline = (Reflowed.call 5).outline ∧
      ((∀ pair ∈ (matchWith Mix.standard {} (Reflowed.call 1) (Reflowed.call 5)).pairs,
        pair.1.id = pair.2.id) ∧
      (matchWith Mix.standard {} (Reflowed.call 1) (Reflowed.call 5)).isComplete = true) := by
  have hshape : (Reflowed.call 1).outline = (Reflowed.call 5).outline := rfl
  obtain ⟨hids, hall, -⟩ :=
    matchWith_copy Mix.standard {} (Reflowed.call 1) (Reflowed.call 5) hshape
  exact ⟨hshape, hids, (hall (Or.inr (Or.inl (by decide)))).2.1⟩

end Relocate.Matching
