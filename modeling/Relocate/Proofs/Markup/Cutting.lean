import Relocate.Proofs.Markup.Pieces

/-!
# Parts of a document

Where a part of a document ends is decided by the part alone: whatever stands behind it, the same
part is cut off and the rest is left. Only a run of text goes on for as long as more text follows.
-/

set_option autoImplicit false

namespace Relocate.Markup

open Relocate.Text

/-- A part in front of `behind` decides what `f` gives, whatever else stands behind the part. -/
def Takes {β : Type} (f : List Symbol → β) (ss behind : List Symbol) (result : List Symbol → β) :
    Prop :=
  ∃ part, ss = part ++ behind ∧ ∀ more, f (part ++ more) = result more

namespace Takes

variable {β γ : Type} {f : List Symbol → β} {g : List Symbol → γ} {ss behind : List Symbol}
  {result : List Symbol → β}

theorem one {s : Symbol} (h : ∀ more, f (s :: more) = result more) :
    Takes f (s :: behind) behind result := ⟨[s], rfl, h⟩

theorem under (h : Takes f ss behind result) (front : List Symbol) (k : β → γ)
    (hk : ∀ more, g (front ++ more) = k (f more)) :
    Takes g (front ++ ss) behind fun more => k (result more) := by
  obtain ⟨part, rfl, hpart⟩ := h
  refine ⟨front ++ part, (List.append_assoc front part behind).symm, fun more => ?_⟩
  rw [List.append_assoc, hk, hpart]

theorem suffix (h : Takes f ss behind result) : behind <:+ ss := by
  obtain ⟨part, rfl, -⟩ := h
  exact List.suffix_append part behind

theorem append (h : Takes f ss behind result) (more : List Symbol) :
    f (ss ++ more) = result (behind ++ more) := by
  obtain ⟨part, rfl, hpart⟩ := h
  rw [List.append_assoc, hpart]

end Takes

/-! ### What stands between two marks -/

theorem tagContent?_takes {quote : Option Symbol} {ss before behind : List Symbol}
    (h : tagContent? quote ss = some (before, behind)) :
    Takes (tagContent? quote) ss behind fun more => some (before, more) := by
  induction ss generalizing quote before with
  | nil => cases h
  | cons s ss ih =>
    by_cases hend : quote = none ∧ s = .char '>'
    · simp only [tagContent?, hend, and_self, if_true] at h ⊢
      cases h
      exact .one fun more => by simp [tagContent?]
    · simp only [tagContent?, hend, if_false] at h
      obtain ⟨⟨content, rest⟩, hrest, heq⟩ := Option.map_eq_some_iff.1 h
      cases heq
      exact (ih hrest).under [s] (Option.map fun p => (s :: p.1, p.2)) fun more => by
        simp [tagContent?, hend]

theorem doctypeContent?_takes {depth : Nat} {ss before behind : List Symbol}
    (h : doctypeContent? depth ss = some (before, behind)) :
    Takes (doctypeContent? depth) ss behind fun more => some (before, more) := by
  induction ss generalizing depth before with
  | nil => cases h
  | cons s ss ih =>
    by_cases hend : s = .char '>'
    · subst hend
      cases depth with
      | zero =>
        simp only [doctypeContent?, if_true] at h
        cases h
        exact .one fun more => by simp [doctypeContent?]
      | succ depth =>
        simp only [doctypeContent?, if_true] at h
        obtain ⟨⟨content, rest⟩, hrest, heq⟩ := Option.map_eq_some_iff.1 h
        cases heq
        have hstep : ∀ more, doctypeContent? (depth + 1) ([.char '>'] ++ more) =
            (doctypeContent? depth more).map fun p => (.char '>' :: p.1, p.2) := by
          intro more
          simp [doctypeContent?]
        exact (ih hrest).under [.char '>'] _ hstep
    · simp only [doctypeContent?, hend, if_false] at h
      obtain ⟨⟨content, rest⟩, hrest, heq⟩ := Option.map_eq_some_iff.1 h
      cases heq
      exact (ih hrest).under [s] (Option.map fun p => (s :: p.1, p.2)) fun more => by
        simp [doctypeContent?, hend]

section

variable {first : Char} {next : List Char}

theorem eq_of_splitAt? {pattern : List Char} {ss before behind : List Symbol}
    (h : splitAt? pattern ss = some (before, behind)) :
    ss = before ++ (Symbols.ofChars pattern ++ behind) := by
  induction ss generalizing before with
  | nil => cases h
  | cons s ss ih =>
    by_cases hfound : Symbols.ofChars pattern <+: s :: ss
    · simp only [splitAt?, hfound, if_true] at h
      cases h
      obtain ⟨rest, hrest⟩ := hfound
      rw [← hrest, List.nil_append, List.drop_left' (by simp [Symbols.ofChars])]
    · rw [splitAt?_cons hfound] at h
      obtain ⟨⟨content, rest⟩, hrest, heq⟩ := Option.map_eq_some_iff.1 h
      cases heq
      rw [ih hrest, List.cons_append]

theorem splitAt?_takes {ss before behind : List Symbol}
    (h : splitAt? (first :: next) ss = some (before, behind)) :
    Takes (splitAt? (first :: next)) ss behind fun more => some (before, more) := by
  induction ss generalizing before with
  | nil => cases h
  | cons s ss ih =>
    by_cases hfound : Symbols.ofChars (first :: next) <+: s :: ss
    · have hss := eq_of_splitAt? h
      simp only [splitAt?, hfound, if_true] at h
      cases h
      exact ⟨Symbols.ofChars (first :: next), hss, splitAt?_self⟩
    · rw [splitAt?_cons hfound] at h
      obtain ⟨⟨content, rest⟩, hrest, heq⟩ := Option.map_eq_some_iff.1 h
      cases heq
      obtain ⟨part, hpart, htake⟩ := ih hrest
      have hlength : (first :: next).length ≤ part.length := by
        have hss := congrArg List.length (hpart.symm.trans (eq_of_splitAt? hrest))
        simp [Symbols.ofChars] at hss ⊢
        omega
      refine ⟨s :: part, by rw [hpart, List.cons_append], fun more => ?_⟩
      -- An occurrence in front would lie in the part, and be found whatever follows.
      have hno : ¬ Symbols.ofChars (first :: next) <+: s :: (part ++ more) := by
        intro hprefix
        have hinside : Symbols.ofChars (first :: next) <+: s :: part :=
          List.prefix_of_prefix_length_le hprefix (List.prefix_append (s :: part) more)
            (by simp [Symbols.ofChars] at hlength ⊢; omega)
        rw [hpart] at hfound
        exact hfound (hinside.trans (List.prefix_append (s :: part) _))
      rw [List.cons_append, splitAt?_cons hno, htake]
      rfl

end

/-! ### Parts -/

theorem cutAt_takes {find : List Symbol → Option (List Symbol × List Symbol)} {missing : Fault}
    {event : List Symbol → Except Fault Event} {ss behind : List Symbol} {e : Event}
    (hfind : ∀ before behind, find ss = some (before, behind) →
      Takes find ss behind fun more => some (before, more))
    (h : cutAt (find ss) missing event = .ok (e, behind)) :
    Takes (fun ss => cutAt (find ss) missing event) ss behind fun more => .ok (e, more) := by
  cases hfound : find ss with
  | none =>
    rw [hfound] at h
    cases h
  | some p =>
    obtain ⟨before, rest⟩ := p
    rw [hfound, cutAt] at h
    cases hevent : event before with
    | error _ =>
      rw [hevent] at h
      cases h
    | ok _ =>
      rw [hevent] at h
      cases h
      obtain ⟨part, hpart, htake⟩ := hfind _ _ hfound
      refine ⟨part, hpart, fun more => ?_⟩
      simp only [htake, cutAt, hevent]
      rfl

theorem cutDoctype_takes {c : Char} {rest behind : List Symbol} {e : Event}
    (hcut : ∀ ss, cutBang (.char c :: ss) =
      cutAt (doctypeContent? 0 (.char c :: ss)) .unclosedDoctype doctypeEvent)
    (h : cutBang (.char c :: rest) = .ok (e, behind)) :
    Takes cutBang (.char c :: rest) behind fun more => .ok (e, more) := by
  rw [hcut] at h
  obtain ⟨part, hpart, htake⟩ := cutAt_takes (fun _ _ => doctypeContent?_takes) h
  cases part with
  | nil => cases htake []
  | cons s part =>
    cases (List.cons.inj hpart).1
    exact ⟨.char c :: part, hpart, fun more => (hcut _).trans (htake more)⟩

theorem cutBang_takes {ss behind : List Symbol} {e : Event} (h : cutBang ss = .ok (e, behind)) :
    Takes cutBang ss behind fun more => .ok (e, more) := by
  have hwhole := h
  unfold cutBang at h
  split at h
  · exact (cutAt_takes (fun _ _ => splitAt?_takes) h).under [.char '-', .char '-'] id fun _ => rfl
  · cases h
  · rename_i rest
    by_cases hopening : Symbols.ofString "CDATA[" <+: rest
    · rw [if_pos hopening] at h
      obtain ⟨run, rfl⟩ := hopening
      have hdrop : ∀ more, (Symbols.ofString "CDATA[" ++ more).drop 6 = more := fun _ => rfl
      rw [hdrop] at h
      have htake := cutAt_takes (fun _ _ => splitAt?_takes) h
      refine htake.under (.char '[' :: Symbols.ofString "CDATA[") id fun more => ?_
      rw [List.cons_append, cutBang, if_pos (List.prefix_append _ _), hdrop]
      rfl
    · rw [if_neg hopening] at h
      cases h
  · exact cutDoctype_takes (fun _ => rfl) hwhole
  · exact cutDoctype_takes (fun _ => rfl) hwhole
  · cases h

theorem cutMarkup_instruction {s : Symbol} (hs : s ≠ .char '>') (ss : List Symbol) :
    cutMarkup (.char '?' :: s :: ss) =
      cutAt (splitAt? ['?', '>'] (s :: ss)) .unclosedInstruction fun _ => .ok .aside := by
  rw [cutMarkup]
  intro rest heq
  exact hs (List.cons.inj heq).1

theorem cutMarkup_tag {s : Symbol} (hs : s ≠ .char '!' ∧ s ≠ .char '?') (ss : List Symbol) :
    cutMarkup (s :: ss) =
      cutAt (tagContent? none (s :: ss)) .unclosedTag fun c => .ok (tagEvent c) := by
  rw [cutMarkup]
  · intro rest heq
    exact hs.1 (List.cons.inj heq).1
  · intro rest heq
    exact hs.2 (List.cons.inj heq).1

theorem cutMarkup_takes {ss behind : List Symbol} {e : Event}
    (h : cutMarkup ss = .ok (e, behind)) : Takes cutMarkup ss behind fun more => .ok (e, more) := by
  unfold cutMarkup at h
  split at h
  · exact (cutBang_takes h).under [.char '!'] id fun _ => rfl
  · split at h
    · cases h
    · rename_i rest hopening
      obtain ⟨part, hpart, htake⟩ := cutAt_takes (fun _ _ => splitAt?_takes) h
      cases part with
      | nil => cases htake []
      | cons s part =>
        have hs : s ≠ .char '>' := by
          rintro rfl
          exact hopening _ hpart
        exact ⟨.char '?' :: s :: part, by rw [hpart]; rfl,
          fun more => (cutMarkup_instruction hs _).trans (htake more)⟩
  · rename_i hbang hinstruction
    obtain ⟨part, hpart, htake⟩ := cutAt_takes (fun _ _ => tagContent?_takes) h
    cases part with
    | nil => cases htake []
    | cons s part =>
      have hs : s ≠ .char '!' ∧ s ≠ .char '?' := by
        constructor <;> rintro rfl
        · exact hbang _ hpart
        · exact hinstruction _ hpart
      exact ⟨s :: part, hpart, fun more => (cutMarkup_tag hs _).trans (htake more)⟩

theorem cutReference_takes {ss behind : List Symbol} {e : Event}
    (h : cutReference ss = .ok (e, behind)) :
    Takes cutReference ss behind fun more => .ok (e, more) := by
  set p : Symbol → Bool := fun s => !isMark s && s != .char ';' with hp
  simp only [cutReference, ← hp] at h
  split at h
  · rename_i rest hrest
    cases h
    have hname : ∀ s ∈ ss.takeWhile p, p s = true := List.all_eq_true.1 List.all_takeWhile
    refine ⟨ss.takeWhile p ++ [.char ';'], ?_, fun more => ?_⟩
    · rw [List.append_assoc, List.singleton_append, ← hrest, List.takeWhile_append_dropWhile]
    · have hstop : ∀ s ∈ (Symbol.char ';' :: more).head?, p s = false := by
        intro s hs
        cases hs
        rfl
      rw [List.append_assoc, List.singleton_append]
      simp only [cutReference, ← hp, takeWhile_append_of_head hname hstop,
        dropWhile_append_of_head hname hstop]
  · cases h

/-- All but text ends where it ends by itself. -/
theorem cut_takes {s : Symbol} {ss behind : List Symbol} {e : Event}
    (h : cut s ss = .ok (e, behind)) (hs : isMark s = true) :
    Takes (cut s) ss behind fun more => .ok (e, more) := by
  by_cases hopening : s = .char '<'
  · subst hopening
    have hmarkup : cutMarkup ss = .ok (e, behind) := by simpa [cut] using h
    exact (cutMarkup_takes hmarkup).under [] id fun _ => by simp [cut]
  · have hamp : s = .char '&' := by simpa [isMark, hopening] using hs
    subst hamp
    have hreference : cutReference ss = .ok (e, behind) := by simpa [cut] using h
    exact (cutReference_takes hreference).under [] id fun _ => by simp [cut]

end Relocate.Markup
