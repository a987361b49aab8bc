import Relocate.Proofs.Text.Segments

/-!
# The grammar of descriptors

A field descriptor is a letter for a primitive type, a class name in internal form between `L` and
`;`, or a bracket in front of the descriptor of the elements. A method descriptor is a row of those
in parentheses, and what the method returns behind them. The grammar is unambiguous: where a field
descriptor ends can be told from the text, so a descriptor determines its types.
-/

set_option autoImplicit false

namespace Relocate.Descriptor

open Relocate.Text

/-! ## Names -/

def delimiters : List Char := ['.', ';', '[', '/']

def IsUnqualified (s : List Char) : Prop := s ≠ [] ∧ ∀ c ∈ s, c ∉ delimiters

instance (s : List Char) : Decidable (IsUnqualified s) :=
  -- by going through the name, not through all characters
  have : Decidable (∀ c ∈ s, c ∉ delimiters) := List.decidableBAll _ s
  inferInstanceAs (Decidable (_ ∧ _))

def IsInternal (cs : List Char) : Prop := ∀ s ∈ cut '/' cs, IsUnqualified s

instance (cs : List Char) : Decidable (IsInternal cs) :=
  inferInstanceAs (Decidable (∀ s ∈ cut '/' cs, IsUnqualified s))

structure ClassName where
  text : String
  internal : IsInternal text.toList

section Names

variable {a b s : List Char} {c : Char}

theorem IsUnqualified.internal (h : IsUnqualified s) : IsInternal s := by
  have hslash : '/' ∉ s := fun hmem => h.2 _ hmem (by decide)
  rw [IsInternal, cut_of_not_mem hslash]
  exact List.forall_mem_singleton.2 h

theorem IsInternal.append_cons (ha : IsInternal a) (hb : IsInternal b) :
    IsInternal (a ++ '/' :: b) := by
  intro s hs
  rw [cut_append_cons, List.mem_append] at hs
  exact hs.elim (ha s) (hb s)

theorem IsInternal.append (ha : IsInternal a) (hb : ∀ c ∈ b, c ∉ delimiters) :
    IsInternal (a ++ b) := by
  have hslash : '/' ∉ b := fun hmem => hb _ hmem (by decide)
  obtain ⟨front, last, hcut, happend⟩ := exists_cut_append hslash a
  rw [IsInternal, hcut] at ha
  rw [IsInternal, happend]
  obtain ⟨hfront, hlast⟩ := List.forall_mem_append.1 ha
  obtain ⟨hne, hchars⟩ := List.forall_mem_singleton.1 hlast
  apply List.forall_mem_append.2 ⟨hfront, List.forall_mem_singleton.2 ⟨?_, ?_⟩⟩
  · exact List.append_ne_nil_of_left_ne_nil hne b
  · exact List.forall_mem_append.2 ⟨hchars, hb⟩

theorem IsInternal.eq_slash_of_mem_delimiters (h : IsInternal a) (hc : c ∈ a)
    (hdelimiter : c ∈ delimiters) : c = '/' := by
  rcases mem_cut_of_mem hc with heq | ⟨s, hs, hmem⟩
  · exact heq
  · exact absurd hdelimiter ((h s hs).2 c hmem)

end Names

/-! ## Types -/

inductive BaseType where
  | byte | char | double | float | int | long | short | boolean
  deriving DecidableEq

def BaseType.letter : BaseType → Char
  | byte => 'B'
  | char => 'C'
  | double => 'D'
  | float => 'F'
  | int => 'I'
  | long => 'J'
  | short => 'S'
  | boolean => 'Z'

inductive FieldType where
  | base (type : BaseType)
  | object (name : ClassName)
  | array (element : FieldType)

namespace FieldType

def chars : FieldType → List Char
  | base type => [type.letter]
  | object name => 'L' :: name.text.toList ++ [';']
  | array element => '[' :: element.chars

def dimensions : FieldType → Nat
  | base _ => 0
  | object _ => 0
  | array element => element.dimensions + 1

def arrays : Nat → FieldType → FieldType
  | 0, t => t
  | n + 1, t => array (arrays n t)

theorem chars_arrays (n : Nat) (t : FieldType) :
    (arrays n t).chars = List.replicate n '[' ++ t.chars := by
  induction n with
  | zero => rfl
  | succ n ih => rw [arrays, chars, ih, List.replicate_succ, List.cons_append]

theorem dimensions_arrays (n : Nat) (t : FieldType) :
    (arrays n t).dimensions = n + t.dimensions := by
  induction n with
  | zero => rw [arrays, Nat.zero_add]
  | succ n ih => rw [arrays, dimensions, ih, Nat.add_right_comm]

end FieldType

structure MethodType where
  parameters : List FieldType
  result : Option FieldType

namespace MethodType

def resultChars : Option FieldType → List Char
  | some type => type.chars
  | none => ['V']

def chars (m : MethodType) : List Char :=
  '(' :: m.parameters.flatMap FieldType.chars ++ ')' :: resultChars m.result

def text (m : MethodType) : String := String.ofList m.chars

end MethodType

/-! ## Descriptors determine their types -/

theorem BaseType.letter_injective : Function.Injective letter := by
  intro a b
  cases a <;> cases b <;> decide

theorem eq_of_append_cons_eq {a b r s : List Char} {c : Char} (ha : c ∉ a) (hb : c ∉ b)
    (h : a ++ c :: r = b ++ c :: s) : a = b ∧ r = s := by
  induction a generalizing b with
  | nil =>
    cases b with
    | nil =>
      rw [List.nil_append, List.nil_append, List.cons.injEq] at h
      exact ⟨rfl, h.2⟩
    | cons d b =>
      rw [List.nil_append, List.cons_append, List.cons.injEq] at h
      exact absurd (h.1 ▸ List.mem_cons_self) hb
  | cons d a ih =>
    cases b with
    | nil =>
      rw [List.nil_append, List.cons_append, List.cons.injEq] at h
      exact absurd (h.1 ▸ List.mem_cons_self) ha
    | cons e b =>
      rw [List.cons_append, List.cons_append, List.cons.injEq] at h
      obtain ⟨hab, hrs⟩ := ih (fun hc => ha (List.mem_cons_of_mem d hc))
        (fun hc => hb (List.mem_cons_of_mem e hc)) h.2
      exact ⟨by rw [h.1, hab], hrs⟩

theorem ClassName.semicolon_not_mem (name : ClassName) : ';' ∉ name.text.toList := by
  intro h
  have hslash : ';' = '/' := name.internal.eq_slash_of_mem_delimiters h (by decide)
  exact absurd hslash (by decide)

theorem ClassName.eq_of_text_eq {a b : ClassName} (h : a.text = b.text) : a = b := by
  cases a
  cases b
  cases h
  rfl

namespace FieldType

/-- A field descriptor ends where its type does, whatever follows. -/
theorem eq_of_chars_append_eq {t u : FieldType} {r s : List Char}
    (h : t.chars ++ r = u.chars ++ s) : t = u ∧ r = s := by
  induction t generalizing u with
  | base b =>
    cases u with
    | base b' =>
      rw [chars, chars, List.singleton_append, List.singleton_append, List.cons.injEq] at h
      rw [BaseType.letter_injective h.1]
      exact ⟨rfl, h.2⟩
    | object name => cases b <;> cases h
    | array element => cases b <;> cases h
  | object name =>
    cases u with
    | base b => cases b <;> cases h
    | object name' =>
      simp only [chars, List.cons_append, List.append_assoc, List.nil_append, List.cons.injEq,
        true_and] at h
      obtain ⟨hname, hrest⟩ :=
        eq_of_append_cons_eq name.semicolon_not_mem name'.semicolon_not_mem h
      rw [ClassName.eq_of_text_eq (String.toList_injective hname)]
      exact ⟨rfl, hrest⟩
    | array element => cases h
  | array element ih =>
    cases u with
    | base b => cases b <;> cases h
    | object name => cases h
    | array element' =>
      rw [chars, chars, List.cons_append, List.cons_append, List.cons.injEq] at h
      obtain ⟨helement, hrest⟩ := ih h.2
      rw [helement]
      exact ⟨rfl, hrest⟩

theorem cons_ne_chars_append {c : Char} (hc : c = ')' ∨ c = 'V') (t : FieldType) (r s : List Char) :
    c :: r ≠ t.chars ++ s := by
  intro h
  cases t with
  | base b => rcases hc with rfl | rfl <;> cases b <;> cases h
  | object name => rcases hc with rfl | rfl <;> cases h
  | array element => rcases hc with rfl | rfl <;> cases h

theorem eq_of_flatMap_chars_eq {ts us : List FieldType} {r s : List Char}
    (h : ts.flatMap chars ++ ')' :: r = us.flatMap chars ++ ')' :: s) : ts = us ∧ r = s := by
  induction ts generalizing us with
  | nil =>
    cases us with
    | nil => exact ⟨rfl, (List.cons.inj h).2⟩
    | cons u us =>
      rw [List.flatMap_cons, List.append_assoc] at h
      exact absurd h (cons_ne_chars_append (Or.inl rfl) u _ _)
  | cons t ts ih =>
    cases us with
    | nil =>
      rw [List.flatMap_cons, List.append_assoc] at h
      exact absurd h.symm (cons_ne_chars_append (Or.inl rfl) t _ _)
    | cons u us =>
      rw [List.flatMap_cons, List.flatMap_cons, List.append_assoc, List.append_assoc] at h
      obtain ⟨rfl, hrest⟩ := eq_of_chars_append_eq h
      obtain ⟨rfl, hbehind⟩ := ih hrest
      exact ⟨rfl, hbehind⟩

end FieldType

namespace MethodType

theorem eq_of_resultChars_eq {t u : Option FieldType} (h : resultChars t = resultChars u) :
    t = u := by
  have hnone : ∀ v : FieldType, resultChars none ≠ resultChars (some v) := by
    intro v
    rw [resultChars, resultChars, ← List.append_nil v.chars]
    exact FieldType.cons_ne_chars_append (Or.inr rfl) v [] []
  cases t with
  | none =>
    cases u with
    | none => rfl
    | some u => exact absurd h (hnone u)
  | some t =>
    cases u with
    | none => exact absurd h.symm (hnone t)
    | some u =>
      rw [resultChars, resultChars, ← List.append_nil t.chars, ← List.append_nil u.chars] at h
      rw [(FieldType.eq_of_chars_append_eq h).1]

/-- The grammar is unambiguous. -/
theorem text_injective : Function.Injective text := by
  intro m n h
  have hchars : m.chars = n.chars := by
    rw [← String.toList_ofList (l := m.chars), ← String.toList_ofList (l := n.chars)]
    exact congrArg String.toList h
  rw [chars, chars, List.cons_append, List.cons_append] at hchars
  obtain ⟨hparameters, hresult⟩ := FieldType.eq_of_flatMap_chars_eq (List.cons.inj hchars).2
  cases m
  cases n
  rw [mk.injEq]
  exact ⟨hparameters, eq_of_resultChars_eq hresult⟩

end MethodType

end Relocate.Descriptor
