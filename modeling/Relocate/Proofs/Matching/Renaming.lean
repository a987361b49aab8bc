import Mathlib.Logic.Function.Basic
import Relocate.Proofs.Matching.Relabel

/-!
# Matching under other names

The matcher asks of kinds and values only which of them are equal. So renaming them one-to-one,
alike in both trees, changes nothing about which nodes are mapped to which, in which order, and how
they are marked. Lines, fields and the way digests are mixed make no difference either.
-/

set_option autoImplicit false

namespace Relocate

/-- Kinds and present values get other names; an absent value stays absent. -/
def Content.rename (κ ω : String → String) (c : Content) : Content := ⟨κ c.kind, c.value.map ω⟩

theorem Content.rename_injective {κ ω : String → String} (hκ : Function.Injective κ)
    (hω : Function.Injective ω) : Function.Injective (Content.rename κ ω) := by
  rintro ⟨k, v⟩ ⟨k', v'⟩ h
  rw [rename, rename, Content.mk.injEq] at h
  rw [mk.injEq]
  exact ⟨hκ h.1, Option.map_injective hω h.2⟩

namespace Rose

mutual
theorem eq_of_map_eq {α β : Type} {f : α → β} (hf : Function.Injective f) :
    (t u : Rose α) → t.map f = u.map f → t = u
  | node a as, node b bs => by
    intro h
    rw [map, map, node.injEq] at h
    rw [hf h.1, eq_of_mapAll_eq hf as bs h.2]

theorem eq_of_mapAll_eq {α β : Type} {f : α → β} (hf : Function.Injective f) :
    (ts us : List (Rose α)) → mapAll f ts = mapAll f us → ts = us
  | [], [] => fun _ => rfl
  | t :: ts, u :: us => by
    intro h
    rw [mapAll, mapAll, List.cons.injEq] at h
    rw [eq_of_map_eq hf t u h.1, eq_of_mapAll_eq hf ts us h.2]
  | [], _ :: _ => by simp [mapAll]
  | _ :: _, [] => by simp [mapAll]
end

theorem shape_map_bare (f : Content → Content) (n : Wrapped) :
    (n.map (Relabelling.bare f).label).shape = n.shape.map f := by
  rw [shape, shape, map_map, map_map]
  rfl

end Rose

namespace Relabelling

variable {f : Content → Content} {mix : Mix}

theorem relabel_bare_mem_nodes (f : Content → Content) {t : Ast} {p : Place}
    (hp : p ∈ nodes (Rose.wrap mix t)) : p.relabel (bare f) ∈
      nodes (Rose.wrap bareMix (t.outline.map fun c => bareTag (f c))) := by
  rw [← Rose.map_wrap_bare f mix t, Place.nodes_map]
  exact List.mem_map_of_mem hp

theorem faithful_bare (hf : Function.Injective f)
    (hkind : ∀ c c', (f c).kind = (f c').kind ↔ c.kind = c'.kind) (mix : Mix) (a b : Ast) :
    (bare f).Faithful (Rose.wrap mix a) (Rose.wrap mix b) where
  kind := fun s t => hkind s.toContent t.toContent
  content := fun _ _ => hf.eq_iff
  isomorphic := by
    intro s hs d hd
    rw [Bool.eq_iff_iff, isomorphic_iff_shape_eq hs hd,
      isomorphic_iff_shape_eq (relabel_bare_mem_nodes f hs) (relabel_bare_mem_nodes f hd),
      Place.relabel, Place.relabel, Rose.shape_map_bare, Rose.shape_map_bare]
    exact ⟨Rose.eq_of_map_eq hf _ _, congrArg _⟩

end Relabelling

namespace Matching

def Mark.flags (m : Mark) : Bool × Bool × Nat := (m.isMapped, m.matchedBelow, m.times)

def pairIds (st : Store) : List (Nat × Nat) :=
  st.pairs.toList.map fun pair => (pair.1.id, pair.2.id)

section Relabelled

variable (ρ : Relabelling) (st : Store)

theorem pairIds_relabel : pairIds (st.relabel ρ) = pairIds st := by
  rw [pairIds, pairIds, Store.relabel, Array.toList_map, List.map_map]
  apply List.map_congr_left
  intro pair _
  rw [Function.comp_apply, Place.relabelPair, Place.id_relabel, Place.id_relabel]

theorem flags_src_relabel (id : Nat) :
    ((st.relabel ρ).src.lookup id).flags = (st.src.lookup id).flags := by
  rw [Store.relabel, Marks.lookup_relabel]
  rfl

theorem flags_dst_relabel (id : Nat) :
    ((st.relabel ρ).dst.lookup id).flags = (st.dst.lookup id).flags := by
  rw [Store.relabel, Marks.lookup_relabel]
  rfl

end Relabelled

/-- Trees that differ in names, lines and fields are matched alike: the same numbers are paired in
the same order, and every node gets the same marks. -/
theorem matchWith_rename (mix mix' : Mix) (config : Config) (κ ω : String → String)
    (hκ : Function.Injective κ) (hω : Function.Injective ω) (a b a' b' : Ast)
    (ha : a'.outline = a.outline.map (Content.rename κ ω))
    (hb : b'.outline = b.outline.map (Content.rename κ ω)) :
    pairIds (matchWith mix' config a' b').store = pairIds (matchWith mix config a b).store ∧
    ∀ id,
      ((matchWith mix' config a' b').store.src.lookup id).flags =
        ((matchWith mix config a b).store.src.lookup id).flags ∧
      ((matchWith mix' config a' b').store.dst.lookup id).flags =
        ((matchWith mix config a b).store.dst.lookup id).flags := by
  have hrun := matchWrapped_map (Relabelling.faithful_bare (Content.rename_injective hκ hω)
    (fun c c' => hκ.eq_iff) mix a b) config
  have hrun' := matchWrapped_map (Relabelling.faithful_bare Function.injective_id
    (fun c c' => Iff.rfl) mix' a' b') config
  have hbare : ∀ t t' : Ast, t'.outline = t.outline.map (Content.rename κ ω) →
      (Rose.wrap mix' t').map (Relabelling.bare id).label =
        (Rose.wrap mix t).map (Relabelling.bare (Content.rename κ ω)).label := by
    intro t t' h
    rw [Rose.map_wrap_bare, Rose.map_wrap_bare, h, Rose.map_map]
    rfl
  -- both runs become one run on trees without digests, fields and lines
  rw [hbare a a' ha, hbare b b' hb, hrun] at hrun'
  simp only [matchWith]
  refine ⟨?_, ?_⟩
  · rw [← pairIds_relabel (.bare id), ← hrun', pairIds_relabel]
  · intro k
    rw [← flags_src_relabel (.bare id), ← flags_dst_relabel (.bare id), ← hrun',
      flags_src_relabel, flags_dst_relabel]
    exact ⟨rfl, rfl⟩

namespace Prefixed

def marked (s : String) : String := "x" ++ s

theorem marked_injective : Function.Injective marked := by
  intro s t h
  exact (String.append_right_inj "x").1 h

def plain (argument : String) : Ast :=
  .node ⟨⟨"call", some "f"⟩, none, 1⟩ [.leaf "identifier" (some argument) 1, .leaf "end" none 2]

def renamed (argument : String) : Ast :=
  .node ⟨⟨"xcall", some "xf"⟩, some "body", 7⟩
    [.leaf "xidentifier" (some argument) 3, .leaf "xend" none 1]

end Prefixed

/-- A call and its changed copy, against both under prefixed names and on other lines. -/
theorem matchWith_rename_prefixed :
    Function.Injective Prefixed.marked ∧
      (Prefixed.renamed "xa").outline =
        (Prefixed.plain "a").outline.map (Content.rename Prefixed.marked Prefixed.marked) ∧
      (Prefixed.renamed "xb").outline =
        (Prefixed.plain "b").outline.map (Content.rename Prefixed.marked Prefixed.marked) ∧
      pairIds (matchWith Mix.standard {} (Prefixed.renamed "xa") (Prefixed.renamed "xb")).store =
        pairIds (matchWith Mix.standard {} (Prefixed.plain "a") (Prefixed.plain "b")).store := by
  have ha : (Prefixed.renamed "xa").outline =
      (Prefixed.plain "a").outline.map (Content.rename Prefixed.marked Prefixed.marked) := rfl
  have hb : (Prefixed.renamed "xb").outline =
      (Prefixed.plain "b").outline.map (Content.rename Prefixed.marked Prefixed.marked) := rfl
  exact ⟨Prefixed.marked_injective, ha, hb, (matchWith_rename Mix.standard Mix.standard {}
    Prefixed.marked Prefixed.marked Prefixed.marked_injective Prefixed.marked_injective
    (Prefixed.plain "a") (Prefixed.plain "b") (Prefixed.renamed "xa") (Prefixed.renamed "xb")
    ha hb).1⟩

end Matching

end Relocate
