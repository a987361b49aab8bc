import Mathlib.Tactic.SplitIfs
import Relocate.Markup.Entity

/-!
# Escaped text

Escaping spells the five markup characters as predefined entities and leaves every other character
alone. What it leaves is plain, and unescaping brings every text back.
-/

set_option autoImplicit false

namespace Relocate.Markup

def entity? (c : Char) : Option (List Char) :=
  if c = '<' then some ['l', 't']
  else if c = '>' then some ['g', 't']
  else if c = '&' then some ['a', 'm', 'p']
  else if c = '\'' then some ['a', 'p', 'o', 's']
  else if c = '"' then some ['q', 'u', 'o', 't']
  else none

def IsPlain (c : Char) : Prop := entity? c = none

instance (c : Char) : Decidable (IsPlain c) := inferInstanceAs (Decidable (entity? c = none))

theorem escapeChar_eq (c : Char) :
    escapeChar c = match entity? c with
      | some name => '&' :: (name ++ [';'])
      | none => [c] := by
  unfold escapeChar entity?
  split_ifs <;> rfl

theorem escapeChar_of_entity? {c : Char} {name : List Char} (h : entity? c = some name) :
    escapeChar c = '&' :: (name ++ [';']) := by
  rw [escapeChar_eq, h]

theorem escapeChar_of_isPlain {c : Char} (h : IsPlain c) : escapeChar c = [c] := by
  rw [escapeChar_eq, h]

theorem entity?_cases {c : Char} {name : List Char} (h : entity? c = some name) :
    (c = '<' ∧ name = ['l', 't']) ∨ (c = '>' ∧ name = ['g', 't']) ∨
      (c = '&' ∧ name = ['a', 'm', 'p']) ∨ (c = '\'' ∧ name = ['a', 'p', 'o', 's']) ∨
      (c = '"' ∧ name = ['q', 'u', 'o', 't']) := by
  unfold entity? at h
  split_ifs at h <;> simp_all

theorem predefined?_entity {c : Char} {name : List Char} (h : entity? c = some name) :
    predefined? name = some c := by
  rcases entity?_cases h with ⟨rfl, rfl⟩ | ⟨rfl, rfl⟩ | ⟨rfl, rfl⟩ | ⟨rfl, rfl⟩ | ⟨rfl, rfl⟩ <;> rfl

theorem of_mem_entity {c d : Char} {name : List Char} (h : entity? c = some name) (hd : d ∈ name) :
    IsPlain d ∧ d ≠ '#' ∧ d ≠ ';' := by
  have hall : name.all (fun d => decide (IsPlain d ∧ d ≠ '#' ∧ d ≠ ';')) = true := by
    rcases entity?_cases h with ⟨-, rfl⟩ | ⟨-, rfl⟩ | ⟨-, rfl⟩ | ⟨-, rfl⟩ | ⟨-, rfl⟩ <;> decide
  exact of_decide_eq_true (List.all_eq_true.1 hall d hd)

theorem IsPlain.ne {c d : Char} (h : IsPlain c) (hd : ¬ IsPlain d) : c ≠ d := fun hc => hd (hc ▸ h)

theorem mem_escape {cs : List Char} {d : Char} (h : d ∈ escape cs) : d = '&' ∨ IsPlain d := by
  obtain ⟨c, -, hd⟩ := List.mem_flatMap.1 h
  cases hc : entity? c with
  | none =>
    rw [escapeChar_of_isPlain hc, List.mem_singleton] at hd
    exact .inr (hd ▸ hc)
  | some name =>
    rw [escapeChar_of_entity? hc] at hd
    rcases List.mem_cons.1 hd with rfl | hd
    · exact .inl rfl
    · rcases List.mem_append.1 hd with hd | hd
      · exact .inr (of_mem_entity hc hd).1
      · rw [List.mem_singleton.1 hd]
        exact .inr (by decide)

theorem not_mem_escape {cs : List Char} {d : Char} (hd : ¬ IsPlain d) (hamp : d ≠ '&') :
    d ∉ escape cs := fun h => (mem_escape h).elim hamp hd

@[simp] theorem escape_nil : escape [] = [] := rfl

@[simp] theorem escape_cons (c : Char) (cs : List Char) :
    escape (c :: cs) = escapeChar c ++ escape cs := List.flatMap_cons

theorem escape_of_isPlain {cs : List Char} (h : ∀ c ∈ cs, IsPlain c) : escape cs = cs := by
  induction cs with
  | nil => rfl
  | cons c cs ih =>
    rw [escape_cons, escapeChar_of_isPlain (h c List.mem_cons_self),
      ih fun d hd => h d (List.mem_cons_of_mem _ hd), List.singleton_append]

theorem entityName?_append {name : List Char} (hname : ∀ d ∈ name, d ≠ ';' ∧ d ≠ '&')
    (rest : List Char) : entityName? (name ++ ';' :: rest) = some (name, rest) := by
  have hpass : ∀ d ∈ name, (fun c => c != ';' && c != '&') d = true := by
    intro d hd
    simp [hname d hd]
  rw [entityName?, List.dropWhile_append_of_pos hpass, List.takeWhile_append_of_pos hpass,
    List.dropWhile_cons_of_neg (by decide), List.takeWhile_cons_of_neg (by decide), List.append_nil]
  rfl

theorem resolveName_entity {c : Char} {name : List Char} (h : entity? c = some name)
    (position : Nat) : resolveName position name = .ok c := by
  unfold resolveName
  split
  · exact absurd rfl (of_mem_entity h List.mem_cons_self).2.1
  · rw [predefined?_entity h]

section

variable (total position : Nat) (cs : List Char)

theorem unescapeFrom_entity {c : Char} {name : List Char} (h : entity? c = some name) :
    unescapeFrom total position ('&' :: (name ++ ';' :: cs)) =
      (unescapeFrom total (position + 2 + byteLength name) cs).map (c :: ·) := by
  have hname : entityName? (name ++ ';' :: cs) = some (name, cs) :=
    entityName?_append (fun d hd => ⟨(of_mem_entity h hd).2.2,
      (of_mem_entity h hd).1.ne (by decide)⟩) cs
  rw [unescapeFrom, if_pos rfl]
  split
  · rename_i found rest heq
    cases hname.symm.trans heq
    rw [resolveName_entity h]
  · rename_i heq
    cases hname.symm.trans heq

theorem unescapeFrom_plain {c : Char} (h : c ≠ '&') :
    unescapeFrom total position (c :: cs) =
      (unescapeFrom total (position + c.utf8Size) cs).map (c :: ·) := by
  rw [unescapeFrom, if_neg h]

end

theorem unescapeFrom_escape (total position : Nat) (cs : List Char) :
    unescapeFrom total position (escape cs) = .ok cs := by
  induction cs generalizing position with
  | nil => rw [escape_nil, unescapeFrom]
  | cons c cs ih =>
    rw [escape_cons]
    cases hc : entity? c with
    | none =>
      rw [escapeChar_of_isPlain hc, List.singleton_append,
        unescapeFrom_plain _ _ _ (IsPlain.ne hc (by decide)), ih]
      rfl
    | some name =>
      rw [escapeChar_of_entity? hc, List.cons_append, List.append_assoc, List.singleton_append,
        unescapeFrom_entity _ _ _ hc, ih]
      rfl

/-- Unescaping undoes escaping. -/
theorem unescape_escape (cs : List Char) : unescape (escape cs) = .ok cs :=
  unescapeFrom_escape (byteLength (escape cs)) 0 cs

end Relocate.Markup
