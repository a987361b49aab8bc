import Mathlib.Data.Prod.Lex
import Relocate.Mutation.Vote
import Relocate.Proofs.Best

/-!
# What a vote decides

The line that wins is the one that most mapped nodes of the old line lead to, the lowest one on a
tie, in whatever order the pairs are committed. The anchor is the first of the nodes behind those
votes. A line goes nowhere only if nothing on it is mapped.
-/

set_option autoImplicit false

namespace Relocate

namespace Vote

open Matching

section Winner

variable {votes votes' : List Nat} {a b c target target' : Nat}

theorem beats_iff : beats votes a b = true ↔
    votes.count b < votes.count a ∨ votes.count a = votes.count b ∧ a < b := by
  simp [beats]

theorem not_beats_iff : beats votes a b = false ↔
    votes.count a ≤ votes.count b ∧ (a < b → votes.count a < votes.count b) := by
  rw [← Bool.not_eq_true, beats_iff]
  omega

def standing (votes : List Nat) (line : Nat) : Nat ×ₗ Natᵒᵈ :=
  toLex (votes.count line, OrderDual.toDual line)

theorem beats_iff_standing : beats votes a b = true ↔ standing votes b < standing votes a := by
  rw [beats_iff, standing, standing, Prod.Lex.toLex_lt_toLex, OrderDual.toDual_lt_toDual, eq_comm]

theorem leader_eq (votes : List Nat) : leader votes = keepBest (beats votes) := by
  funext best line
  cases best <;> rfl

structure Leads (votes : List Nat) (target : Nat) : Prop where
  mem : target ∈ votes
  most : ∀ other, votes.count other ≤ votes.count target
  lowest : ∀ other < target, votes.count other < votes.count target

theorem Leads.of_votes (hmem : target ∈ votes) (h : ∀ other ∈ votes,
    votes.count other ≤ votes.count target ∧
      (other < target → votes.count other < votes.count target)) : Leads votes target := by
  have hall : ∀ other, votes.count other ≤ votes.count target ∧
      (other < target → votes.count other < votes.count target) := by
    intro other
    by_cases hother : other ∈ votes
    · exact h other hother
    · rw [List.count_eq_zero_of_not_mem hother]
      exact ⟨Nat.zero_le _, fun _ => List.count_pos_iff.2 hmem⟩
  exact ⟨hmem, fun other => (hall other).1, fun other => (hall other).2⟩

theorem Leads.unique (h : Leads votes target) (h' : Leads votes target') : target = target' := by
  rcases Nat.lt_trichotomy target target' with hlt | heq | hlt
  · exact absurd (h'.lowest target hlt) (Nat.not_lt.2 (h.most target'))
  · exact heq
  · exact absurd (h.lowest target' hlt) (Nat.not_lt.2 (h'.most target))

theorem Leads.perm (h : Leads votes target) (hperm : votes.Perm votes') : Leads votes' target where
  mem := hperm.mem_iff.1 h.mem
  most := by
    intro other
    rw [← hperm.count_eq, ← hperm.count_eq]
    exact h.most other
  lowest := by
    intro other hother
    rw [← hperm.count_eq, ← hperm.count_eq]
    exact h.lowest other hother

theorem exists_winner? (h : votes ≠ []) :
    ∃ target, winner? votes = some target ∧ Leads votes target := by
  obtain ⟨target, hfold, hbest⟩ :=
    foldl_keepBest (standing votes) h fun x _ y _ => beats_iff_standing
  refine ⟨target, ?_, .of_votes hbest.mem fun other hother => ?_⟩
  · rw [winner?, leader_eq, hfold]
  · have hle := not_lt.2 (hbest.le hother)
    rw [← beats_iff_standing, Bool.not_eq_true, not_beats_iff] at hle
    exact hle

theorem winner?_eq_some_iff : winner? votes = some target ↔ Leads votes target := by
  constructor
  · intro hwinner
    have hvotes : votes ≠ [] := by
      rintro rfl
      cases hwinner
    obtain ⟨other, hother, hleads⟩ := exists_winner? hvotes
    rw [hwinner] at hother
    rwa [Option.some.inj hother]
  · intro hleads
    obtain ⟨other, hother, hother'⟩ := exists_winner? (List.ne_nil_of_mem hleads.mem)
    rw [hother, hleads.unique hother']

theorem winner?_perm (h : votes.Perm votes') : winner? votes = winner? votes' := by
  apply Option.ext
  intro target
  rw [winner?_eq_some_iff, winner?_eq_some_iff]
  exact ⟨fun hleads => hleads.perm h, fun hleads => hleads.perm h.symm⟩

end Winner

section Ballots

variable {pairs : List (Place × Place)} {line target : Nat} {p : Place}

def votesFor (pairs : List (Place × Place)) (line target : Nat) : Nat :=
  pairs.countP fun p => p.1.line == line && p.2.line == target

theorem count_ballots (pairs : List (Place × Place)) (line target : Nat) :
    (ballots pairs line).count target = votesFor pairs line target := by
  rw [ballots, List.count, List.countP_map, List.countP_filter, votesFor]
  apply List.countP_congr
  intro pair _
  simp [and_comm]

theorem mem_ballots : target ∈ ballots pairs line ↔
    ∃ pair ∈ pairs, pair.1.line = line ∧ pair.2.line = target := by
  simp [ballots, and_assoc]

theorem ballots_eq_nil_iff : ballots pairs line = [] ↔ ∀ pair ∈ pairs, pair.1.line ≠ line := by
  simp [ballots]

theorem anchor?_eq_some_iff : anchor? pairs line target = some p ↔
    ∃ before s after, pairs = before ++ (s, p) :: after ∧ s.line = line ∧ p.line = target ∧
      ∀ pair ∈ before, pair.1.line = line → pair.2.line ≠ target := by
  rw [anchor?, Option.map_eq_some_iff]
  constructor
  · rintro ⟨⟨s, p⟩, hfind, rfl⟩
    rw [List.find?_eq_some_iff_append] at hfind
    obtain ⟨hlines, before, after, rfl, hbefore⟩ := hfind
    simp only [Bool.and_eq_true, beq_iff_eq] at hlines
    refine ⟨before, s, after, rfl, hlines.1, hlines.2, ?_⟩
    intro pair hpair hfrom hto
    have hskip := hbefore pair hpair
    simp [hfrom, hto] at hskip
  · rintro ⟨before, s, after, rfl, hline, htarget, hbefore⟩
    refine ⟨(s, p), ?_, rfl⟩
    rw [List.find?_eq_some_iff_append]
    refine ⟨by simp [hline, htarget], before, after, rfl, ?_⟩
    intro pair hpair
    have hskip := hbefore pair hpair
    simpa [imp_iff_not_or] using hskip

theorem exists_anchor? (h : target ∈ ballots pairs line) :
    ∃ p, anchor? pairs line target = some p := by
  obtain ⟨pair, hpair, hfrom, hto⟩ := mem_ballots.1 h
  have hfind : (pairs.find? fun p => p.1.line == line && p.2.line == target).isSome = true := by
    rw [List.find?_isSome]
    exact ⟨pair, hpair, by simp [hfrom, hto]⟩
  obtain ⟨first, hfirst⟩ := Option.isSome_iff_exists.1 hfind
  exact ⟨first.2, by rw [anchor?, hfirst, Option.map_some]⟩

end Ballots

section Line

variable {r : Result} {line target : Nat} {p : Place}

theorem ofLine?_eq_some_iff : ofLine? r line = some (target, p) ↔
    winner? (ballots r.pairs line) = some target ∧ anchor? r.pairs line target = some p := by
  rw [ofLine?]
  split
  · rename_i elected hwinner
    rw [Option.map_eq_some_iff, hwinner]
    constructor
    · rintro ⟨q, hanchor, heq⟩
      cases heq
      exact ⟨rfl, hanchor⟩
    · rintro ⟨heq, hanchor⟩
      cases heq
      exact ⟨p, hanchor, rfl⟩
  · rename_i hnone
    simp [hnone]

/-- The second scan agrees with the vote. -/
theorem map_fst_ofLine? (r : Result) (line : Nat) :
    (ofLine? r line).map Prod.fst = winner? (ballots r.pairs line) := by
  cases hwinner : winner? (ballots r.pairs line) with
  | none =>
    rw [ofLine?, hwinner]
    rfl
  | some target =>
    obtain ⟨p, hanchor⟩ := exists_anchor? (winner?_eq_some_iff.1 hwinner).mem
    rw [ofLine?_eq_some_iff.2 ⟨hwinner, hanchor⟩, Option.map_some]

theorem of_ofLine? (h : ofLine? r line = some (target, p)) :
    p.line = target ∧ ∃ s, (s, p) ∈ r.pairs ∧ s.line = line := by
  obtain ⟨before, s, after, hpairs, hline, htarget, -⟩ :=
    anchor?_eq_some_iff.1 (ofLine?_eq_some_iff.1 h).2
  refine ⟨htarget, s, ?_, hline⟩
  rw [hpairs]
  exact List.mem_append_right before List.mem_cons_self

theorem exists_ofLine? {pair : Place × Place} (hpair : pair ∈ r.pairs)
    (hline : pair.1.line = line) :
    ∃ target p, ofLine? r line = some (target, p) := by
  have hballots : ballots r.pairs line ≠ [] :=
    List.ne_nil_of_mem (mem_ballots.2 ⟨pair, hpair, hline, rfl⟩)
  obtain ⟨target, hwinner, hleads⟩ := exists_winner? hballots
  obtain ⟨p, hanchor⟩ := exists_anchor? hleads.mem
  exact ⟨target, p, ofLine?_eq_some_iff.2 ⟨hwinner, hanchor⟩⟩

/-- A line that no other one exceeds in votes and no lower one equals, with the first node on it
that the old line leads to. -/
structure Elected (pairs : List (Place × Place)) (line target : Nat) (anchor : Place) : Prop where
  most : ∀ other, votesFor pairs line other ≤ votesFor pairs line target
  lowest : ∀ other < target, votesFor pairs line other < votesFor pairs line target
  first : ∃ before s after, pairs = before ++ (s, anchor) :: after ∧ s.line = line ∧
    anchor.line = target ∧ ∀ pair ∈ before, pair.1.line = line → pair.2.line ≠ target

theorem elected_iff : Elected r.pairs line target p ↔ ofLine? r line = some (target, p) := by
  rw [ofLine?_eq_some_iff, winner?_eq_some_iff]
  constructor
  · intro h
    have hanchor := anchor?_eq_some_iff.2 h.first
    obtain ⟨before, s, after, hpairs, hline, htarget, -⟩ := h.first
    refine ⟨⟨mem_ballots.2 ⟨(s, p), ?_, hline, htarget⟩, ?_, ?_⟩, hanchor⟩
    · rw [hpairs]
      exact List.mem_append_right before List.mem_cons_self
    · simpa only [count_ballots] using h.most
    · simpa only [count_ballots] using h.lowest
  · rintro ⟨hleads, hanchor⟩
    refine ⟨?_, ?_, anchor?_eq_some_iff.1 hanchor⟩
    · simpa only [count_ballots] using hleads.most
    · simpa only [count_ballots] using hleads.lowest

theorem ofLine?_eq_none_iff : ofLine? r line = none ↔ ∀ pair ∈ r.pairs, pair.1.line ≠ line := by
  constructor
  · intro hnone pair hpair hline
    obtain ⟨target, p, hsome⟩ := exists_ofLine? hpair hline
    rw [hnone] at hsome
    cases hsome
  · intro hlines
    rw [ofLine?, ballots_eq_nil_iff.2 hlines]
    rfl

/-- A line goes nowhere exactly if no mapped node is on it. Otherwise the majority decides, the
lower line on a tie, and the first node behind it is the anchor. The order of the pairs does not
matter for the line. -/
theorem ofLine?_majority (r : Result) (line : Nat) :
    (ofLine? r line = none ↔ ∀ pair ∈ r.pairs, pair.1.line ≠ line) ∧
      (∀ target anchor, ofLine? r line = some (target, anchor) ↔
        Elected r.pairs line target anchor) ∧
      ∀ r' : Result, r'.pairs.Perm r.pairs →
        (ofLine? r' line).map Prod.fst = (ofLine? r line).map Prod.fst := by
  refine ⟨ofLine?_eq_none_iff, fun target anchor => elected_iff.symm, ?_⟩
  intro r' hperm
  rw [map_fst_ofLine?, map_fst_ofLine?]
  exact winner?_perm ((hperm.filter _).map _)

end Line

namespace Tied

def leaf (line : Nat) : Place := .root (.node ⟨line, 0, ⟨⟨"leaf", none⟩, none, line⟩⟩ [])

def pairs : List (Place × Place) := [9, 9, 7, 7].map fun target => (leaf 5, leaf target)

def result (pairs : List (Place × Place)) : Result where
  src := default
  dst := default
  store := { pairs := pairs.toArray, src := #[], dst := #[] }

end Tied

/-- The lower of two lines with as many votes is chosen, also in the reverse order. -/
theorem ofLine?_majority_tied :
    (Tied.result Tied.pairs.reverse).pairs.Perm (Tied.result Tied.pairs).pairs ∧
      (ofLine? (Tied.result Tied.pairs.reverse) 5).map Prod.fst = some 7 ∧
      Elected Tied.pairs 5 7 (Tied.leaf 7) ∧ ofLine? (Tied.result Tied.pairs) 6 = none := by
  obtain ⟨-, helected, horder⟩ := ofLine?_majority (Tied.result Tied.pairs) 5
  obtain ⟨hnone, -, -⟩ := ofLine?_majority (Tied.result Tied.pairs) 6
  have hperm : (Tied.result Tied.pairs.reverse).pairs.Perm (Tied.result Tied.pairs).pairs :=
    List.reverse_perm Tied.pairs
  have hline : ofLine? (Tied.result Tied.pairs) 5 = some (7, Tied.leaf 7) := rfl
  refine ⟨hperm, ?_, (helected 7 _).1 hline, hnone.2 (by decide)⟩
  rw [horder _ hperm, hline, Option.map_some]

end Vote

end Relocate
