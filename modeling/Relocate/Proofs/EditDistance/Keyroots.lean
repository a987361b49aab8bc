import Mathlib.Data.Nat.Find
import Relocate.Proofs.EditDistance.Block

/-!
# Keyroots and completed tables

The keyroots are the nodes without a higher one on the same leftmost leaf. Their pairs are scheduled
so that whatever a block reads was settled by an earlier one, and every pair of nodes belongs to the
block of exactly one pair of keyroots. So the completed tables hold the least cost for every pair of
whole trees.
-/

set_option autoImplicit false

namespace Relocate.EditDistance

variable {α : Type}

theorem keyrootsFrom_sublist (seen : List Nat) (L : List (Item α)) :
    (keyrootsFrom seen L).Sublist (L.map Item.order) := by
  induction L generalizing seen with
  | nil => exact List.Sublist.refl []
  | cons u L ih =>
    rw [keyrootsFrom, List.map_cons]
    split
    · exact (ih seen).cons _
    · exact (ih _).cons_cons _

/-- Read from the last node on, the first node on each new leftmost leaf is the highest. -/
theorem mem_keyrootsFrom {seen : List Nat} {L : List (Item α)} {k : Nat}
    (hL : L.Pairwise fun u v => v.order < u.order) :
    k ∈ keyrootsFrom seen L ↔ ∃ u ∈ L, u.order = k ∧ u.leftmost ∉ seen ∧
      ∀ v ∈ L, u.order < v.order → v.leftmost ≠ u.leftmost := by
  -- the leaves seen grow from node to node, and every later node has a lower number
  induction L generalizing seen with
  | nil => simp [keyrootsFrom]
  | cons i L ih =>
    obtain ⟨hlow, hL⟩ := List.pairwise_cons.1 hL
    rw [keyrootsFrom]
    by_cases hs : i.leftmost ∈ seen
    · rw [if_pos (List.elem_eq_true_of_mem hs), ih hL]
      constructor
      · rintro ⟨u, hu, rfl, hnew, hhigh⟩
        refine ⟨u, List.mem_cons_of_mem i hu, rfl, hnew, ?_⟩
        intro v hv huv
        rcases List.mem_cons.1 hv with rfl | hv
        · exact fun he => hnew (he ▸ hs)
        · exact hhigh v hv huv
      · rintro ⟨u, hu, rfl, hnew, hhigh⟩
        rcases List.mem_cons.1 hu with rfl | hu
        · exact absurd hs hnew
        · exact ⟨u, hu, rfl, hnew, fun v hv => hhigh v (List.mem_cons_of_mem i hv)⟩
    · rw [if_neg (by simpa using hs), List.mem_cons, ih hL]
      constructor
      · rintro (rfl | ⟨u, hu, rfl, hnew, hhigh⟩)
        · refine ⟨i, List.mem_cons_self, rfl, hs, ?_⟩
          intro v hv hiv
          rcases List.mem_cons.1 hv with rfl | hv
          · exact absurd hiv (Nat.lt_irrefl _)
          · exact absurd hiv (Nat.lt_asymm (hlow v hv))
        · rw [List.mem_cons, not_or] at hnew
          refine ⟨u, List.mem_cons_of_mem i hu, rfl, hnew.2, ?_⟩
          intro v hv huv
          rcases List.mem_cons.1 hv with rfl | hv
          · exact fun he => hnew.1 he.symm
          · exact hhigh v hv huv
      · rintro ⟨u, hu, rfl, hnew, hhigh⟩
        rcases List.mem_cons.1 hu with rfl | hu
        · exact Or.inl rfl
        · refine Or.inr ⟨u, hu, rfl, ?_, fun v hv => hhigh v (List.mem_cons_of_mem i hv)⟩
          rw [List.mem_cons, not_or]
          exact ⟨fun he => hhigh i List.mem_cons_self (hlow u hu) he.symm, hnew⟩

def Listed (items : List (Item α)) : Prop :=
  items.map Item.order = List.range' 1 items.length

theorem Listed.getElem {items : List (Item α)} (h : Listed items) {k : Nat}
    (hk : k < items.length) : items[k].order = k + 1 := by
  have := congrArg (fun L => L[k]?) h
  simp only [List.getElem?_map, List.getElem?_eq_getElem hk, Option.map_some,
    List.getElem?_range' hk, Option.some.injEq] at this
  omega

theorem Listed.sorted {items : List (Item α)} (h : Listed items) :
    items.Pairwise fun u v => u.order < v.order := by
  rw [← List.pairwise_map, h]
  exact List.pairwise_lt_range'

theorem keyroots_sorted {items : List (Item α)} (h : Listed items) :
    (keyroots items).Pairwise (· < ·) := by
  rw [keyroots, List.pairwise_reverse]
  apply List.Pairwise.sublist (keyrootsFrom_sublist [] items.reverse)
  rw [List.map_reverse, List.pairwise_reverse, List.pairwise_map]
  exact h.sorted

theorem mem_keyroots {items : List (Item α)} (h : Listed items) {k : Nat} :
    k ∈ keyroots items ↔ ∃ u ∈ items, u.order = k ∧
      ∀ v ∈ items, u.order < v.order → v.leftmost ≠ u.leftmost := by
  rw [keyroots, List.mem_reverse, mem_keyrootsFrom (List.pairwise_reverse.2 h.sorted)]
  simp

def highest (n : Nat) (l : Nat → Nat) (x : Nat) : Nat := Nat.findGreatest (fun k => l k = l x) n

section Highest

variable {n x : Nat} {l : Nat → Nat}

theorem le_highest (h : x ≤ n) : x ≤ highest n l x := Nat.le_findGreatest h rfl

theorem highest_le (n : Nat) (l : Nat → Nat) (x : Nat) : highest n l x ≤ n :=
  Nat.findGreatest_le n

theorem leftmost_highest (h : x ≤ n) : l (highest n l x) = l x :=
  Nat.findGreatest_spec (P := fun k => l k = l x) h rfl

theorem ne_of_highest_lt {k : Nat} (hk : highest n l x < k) (hn : k ≤ n) : l k ≠ l x :=
  Nat.findGreatest_is_greatest (P := fun k => l k = l x) hk hn

/-- No higher node lies on the leftmost leaf of a keyroot. -/
def IsKeyroot (n : Nat) (l : Nat → Nat) (i : Nat) : Prop :=
  (1 ≤ i ∧ i ≤ n) ∧ ∀ k, i < k → k ≤ n → l k ≠ l i

theorem isKeyroot_highest (h1 : 1 ≤ x) (h : x ≤ n) : IsKeyroot n l (highest n l x) := by
  refine ⟨⟨h1.trans (le_highest h), highest_le n l x⟩, ?_⟩
  intro k hk hn
  rw [leftmost_highest (l := l) h]
  exact ne_of_highest_lt hk hn

/-- Below a keyroot, keyroots are not higher; one on another leftmost leaf is lower. -/
theorem IsKeyroot.highest_le {i : Nat} (hi : IsKeyroot n l i) (hl : Nested n l) (hx : 1 ≤ x)
    (hlx : l i ≤ x) (hxi : x ≤ i) : highest n l x ≤ i ∧ (l x ≠ l i → highest n l x < i) := by
  obtain ⟨⟨h1, hn⟩, htop⟩ := hi
  have hxn : x ≤ n := hxi.trans hn
  have hsame := leftmost_highest (l := l) hxn
  have hle : highest n l x ≤ i := by
    by_contra hgt
    have hkn := EditDistance.highest_le n l x
    have hin := hl.nested x i hx hxi hn hlx
    have hout := hl.nested i (highest n l x) h1 (by omega) hkn
    have := hl.le x hx hxn
    exact htop _ (by omega) hkn (by omega)
  refine ⟨hle, ?_⟩
  intro hne
  have : highest n l x ≠ i := by
    intro he
    rw [he] at hsame
    exact hne hsame.symm
  omega

end Highest

theorem foldl_prefix {β γ : Type} {f : β → γ → β} {P : List γ → β → Prop} {L : List γ} {s : β}
    (h₀ : P [] s)
    (step : ∀ before a after s, L = before ++ a :: after → P before s → P (before ++ [a]) (f s a)) :
    P L (L.foldl f s) := by
  have main : ∀ after before s, L = before ++ after → P before s → P L (after.foldl f s) := by
    intro after
    induction after with
    | nil =>
      intro before s hL hs
      rwa [hL, List.append_nil]
    | cons a after ih =>
      intro before s hL hs
      exact ih (before ++ [a]) (f s a) (by simp [hL]) (step before a after s hL hs)
  exact main L [] s rfl h₀

namespace Tables

variable {p : Problem α}

structure Numbered (p : Problem α) : Prop extends p.Ordered where
  srcListed : Listed p.src.toList
  dstListed : Listed p.dst.toList

theorem mem_keyroots_iff {items : Array (Item α)} (h : Listed items.toList) {l : Nat → Nat}
    (hl : ∀ k, l k = (items[k - 1]?).elim 0 Item.leftmost) {k : Nat} :
    k ∈ keyroots items.toList ↔ IsKeyroot items.size l k := by
  have at_number : ∀ i (hi : i < items.size), items[i].order = i + 1 ∧
      l (i + 1) = items[i].leftmost := by
    intro i hi
    refine ⟨h.getElem hi, ?_⟩
    rw [hl, Nat.add_sub_cancel, Array.getElem?_eq_getElem hi]
    rfl
  rw [mem_keyroots h]
  constructor
  · rintro ⟨u, hu, rfl, hhigh⟩
    obtain ⟨i, hi, rfl⟩ := Array.mem_iff_getElem.1 (Array.mem_toList_iff.1 hu)
    obtain ⟨ho, hli⟩ := at_number i hi
    rw [ho]
    refine ⟨⟨by omega, by omega⟩, ?_⟩
    intro k hk hkn
    obtain ⟨hko, hlk⟩ := at_number (k - 1) (by omega)
    have := hhigh items[k - 1] (Array.getElem_mem_toList (by omega)) (by omega)
    rwa [← hlk, ← hli, Nat.sub_add_cancel (by omega)] at this
  · rintro ⟨⟨h1, hn⟩, hhigh⟩
    obtain ⟨ho, hlk⟩ := at_number (k - 1) (by omega)
    rw [Nat.sub_add_cancel h1] at ho hlk
    refine ⟨items[k - 1], Array.getElem_mem_toList (by omega), ho, ?_⟩
    intro v hv hkv
    obtain ⟨i, hi, rfl⟩ := Array.mem_iff_getElem.1 (Array.mem_toList_iff.1 hv)
    obtain ⟨hio, hli⟩ := at_number i hi
    rw [← hli, ← hlk]
    exact hhigh (i + 1) (by omega) (by omega)

/-- The pair of keyroots in whose block a pair of whole trees is settled. -/
def home (p : Problem α) (x y : Nat) : Nat × Nat :=
  (highest p.src.size p.srcLeftmost x, highest p.dst.size p.dstLeftmost y)

theorem mem_schedule (hp : Numbered p) {i j : Nat} :
    (i, j) ∈ schedule p ↔
      IsKeyroot p.src.size p.srcLeftmost i ∧ IsKeyroot p.dst.size p.dstLeftmost j := by
  rw [← mem_keyroots_iff (l := p.srcLeftmost) hp.srcListed (fun _ => rfl),
    ← mem_keyroots_iff (l := p.dstLeftmost) hp.dstListed (fun _ => rfl)]
  simp [schedule]

theorem home_mem_schedule (hp : Numbered p) {x y : Nat} (h : InRange p x y) :
    home p x y ∈ schedule p :=
  (mem_schedule hp).2
    ⟨isKeyroot_highest h.src_pos h.src_le, isKeyroot_highest h.dst_pos h.dst_le⟩

def Earlier (u v : Nat × Nat) : Prop := u.1 < v.1 ∨ u.1 = v.1 ∧ u.2 < v.2

theorem schedule_sorted (hp : Numbered p) : (schedule p).Pairwise Earlier := by
  rw [schedule, List.pairwise_flatMap]
  constructor
  · intro i _
    rw [List.pairwise_map]
    exact (keyroots_sorted hp.dstListed).imp fun h => Or.inr ⟨rfl, h⟩
  · apply (keyroots_sorted hp.srcListed).imp
    intro i i' hi u hu v hv
    obtain ⟨j, -, rfl⟩ := List.mem_map.1 hu
    obtain ⟨j', -, rfl⟩ := List.mem_map.1 hv
    exact Or.inl hi

theorem mem_before_of_earlier (hp : Numbered p) {before after : List (Nat × Nat)} {u v : Nat × Nat}
    (hs : schedule p = before ++ u :: after) (hv : v ∈ schedule p) (hvu : Earlier v u) :
    v ∈ before := by
  have hsorted := schedule_sorted hp
  rw [hs] at hv hsorted
  rcases List.mem_append.1 hv with hv | hv
  · exact hv
  · exfalso
    have hafter := (List.pairwise_cons.1 (List.pairwise_append.1 hsorted).2.1).1
    rcases List.mem_cons.1 hv with rfl | hv
    · simp only [Earlier] at hvu
      omega
    · have := hafter v hv
      simp only [Earlier] at hvu this
      omega

/-- The trees whose blocks have been filled are settled. -/
structure Completed (p : Problem α) (done : List (Nat × Nat)) (t : Tables) : Prop where
  sized : t.Sized p
  trees : ∀ x y, InRange p x y → home p x y ∈ done → t.trees.get x y = some (p.treeCost x y)

/-- The blocks before a scheduled pair provide what its block reads. -/
theorem Completed.provided (hp : Numbered p) {before after : List (Nat × Nat)} {i j : Nat}
    {t : Tables} (hs : schedule p = before ++ (i, j) :: after) (h : Completed p before t) :
    Provided p i j t := by
  have hmem : (i, j) ∈ schedule p := by simp [hs]
  obtain ⟨hi, hj⟩ := (mem_schedule hp).1 hmem
  intro x y hx hxi hy hyj hne
  have hin := hi.1
  have hjm := hj.1
  have hi1 := hp.src.pos i hin.1 hin.2
  have hj1 := hp.dst.pos j hjm.1 hjm.2
  have hrange : InRange p x y := ⟨by omega, by omega, by omega, by omega⟩
  obtain ⟨hxle, hxlt⟩ := hi.highest_le hp.src hrange.src_pos hx hxi
  obtain ⟨hyle, hylt⟩ := hj.highest_le hp.dst hrange.dst_pos hy hyj
  apply h.trees x y hrange
  apply mem_before_of_earlier hp hs (home_mem_schedule hp hrange)
  simp only [Earlier, home]
  by_cases hxe : p.srcLeftmost x = p.srcLeftmost i
  · have := hylt fun hye => hne ⟨hxe, hye⟩
    omega
  · have := hxlt hxe
    omega

theorem Completed.fillBlock (hp : Numbered p) {before after : List (Nat × Nat)} {i j : Nat}
    {t : Tables} (hs : schedule p = before ++ (i, j) :: after) (h : Completed p before t) :
    Completed p (before ++ [(i, j)]) (fillBlock p i j t) := by
  have hmem : (i, j) ∈ schedule p := by simp [hs]
  obtain ⟨hi, hj⟩ := (mem_schedule hp).1 hmem
  have hin := hi.1
  have hjm := hj.1
  have hprog := progress_fillBlock hp.toOrdered ⟨hin.1, hin.2, hjm.1, hjm.2⟩ h.sized
    (h.provided hp hs)
  refine ⟨hprog.settled.sized, ?_⟩
  intro x y hxy hhome
  have hlx := hp.src.le x hxy.src_pos hxy.src_le
  have hly := hp.dst.le y hxy.dst_pos hxy.dst_le
  by_cases hb : x ≤ i ∧ y ≤ j ∧ p.srcLeftmost x = p.srcLeftmost i ∧
      p.dstLeftmost y = p.dstLeftmost j
  · exact hprog.trees x y hb.1 hb.2.1 hb.2.2.1 hb.2.2.2 (by omega) (by omega) (by omega)
  · rw [hprog.frame x y hb]
    apply h.trees x y hxy
    rcases List.mem_append.1 hhome with hold | hnew
    · exact hold
    -- a pair of trees that is at home in this block lies in it
    · exfalso
      have heq := List.mem_singleton.1 hnew
      have hxi := congrArg Prod.fst heq
      have hyj := congrArg Prod.snd heq
      simp only [home] at hxi hyj
      have hx := leftmost_highest (l := p.srcLeftmost) hxy.src_le
      have hy := leftmost_highest (l := p.dstLeftmost) hxy.dst_le
      have hx' := le_highest (l := p.srcLeftmost) hxy.src_le
      have hy' := le_highest (l := p.dstLeftmost) hxy.dst_le
      rw [hxi] at hx hx'
      rw [hyj] at hy hy'
      exact hb ⟨hx', hy', hx.symm, hy.symm⟩

theorem completed_complete (hp : Numbered p) : Completed p (schedule p) (complete p) := by
  apply foldl_prefix
  · exact ⟨sized_blank p, fun x y _ h => absurd h List.not_mem_nil⟩
  · intro before a after t hs h
    exact h.fillBlock hp hs

/-- The completed tables hold the least cost for every pair of whole trees. -/
theorem trees_complete (hp : Numbered p) {x y : Nat} (h : InRange p x y) :
    (complete p).trees.get x y = some (p.treeCost x y) :=
  (completed_complete hp).trees x y h (home_mem_schedule hp h)

theorem distance_eq_treeCost (hp : Numbered p) (hs : 1 ≤ p.src.size) (hd : 1 ≤ p.dst.size) :
    p.distance = p.treeCost p.src.size p.dst.size := by
  rw [Problem.distance, distance, treeDistance,
    trees_complete hp ⟨hs, Nat.le_refl _, hd, Nat.le_refl _⟩]
  rfl

end Tables

end Relocate.EditDistance
