import Mathlib
import Inquiry.Proofs.Text.Drafts

/-!
Texts that differ in what their literals say. Two texts are related if they are written from one
draft in two ways that tell the same literals apart; they are then read alike outside the literals.
-/

namespace Inquiry
namespace Text

def Unquoted (s : String) : Prop :=
  quoteMark ∉ s.toList

instance (s : String) : Decidable (Unquoted s) :=
  inferInstanceAs (Decidable (_ ∉ _))

theorem unquoted_append {s t : String} : Unquoted (s ++ t) ↔ Unquoted s ∧ Unquoted t := by
  simp [Unquoted]

theorem isDigit_of_mem_toString {n : Nat} {c : Char} (h : c ∈ (toString n).toList) : c.isDigit := by
  rw [Nat.toString_eq_repr, Nat.toList_repr] at h
  exact Nat.isDigit_of_mem_toDigits (by decide) (by decide) h

theorem unquoted_toString (n : Nat) : Unquoted (toString n) :=
  fun h => absurd (isDigit_of_mem_toString h) (by decide)

-- Two ways to fill in literals, which tell the same ones apart.
structure Coding (ι : Type) where
  left       : ι → List Char
  right      : ι → List Char
  left_bare  : ∀ i, quoteMark ∉ left i
  right_bare : ∀ i, quoteMark ∉ right i
  same       : ∀ i j, left i = left j ↔ right i = right j

namespace Coding

variable {ι : Type} (K : Coding ι)

-- The texts are written from one draft of a certain shape.
def Writes (P : Draft ι → Prop) (s s' : String) : Prop :=
  ∃ τ : Draft ι, τ.Bare ∧ P τ ∧ s.toList = τ.write K.left ∧ s'.toList = τ.write K.right

-- No two literals touch.
abbrev Like := K.Writes Draft.Parted

-- And the first character is outside the literals.
abbrev Led := K.Writes fun τ => τ.Parted ∧ τ.Led

-- Every literal stands after an underscore.
abbrev Rooted := K.Writes Draft.Rooted

-- The text is one literal or holds none.
abbrev Single := K.Writes fun τ => (∃ cs : List Char, τ = cs.map .inl) ∨ ∃ i, τ = [.inr i]

-- The name can be looked for without finding it in a literal, or right before one.
structure Avoids (t : String) : Prop where
  unquoted : Unquoted t
  ending   : t.toList.getLast? ≠ some '_'
  left     : t ≠ "" → ∀ i, ¬t.toList <:+: K.left i
  right    : t ≠ "" → ∀ i, ¬t.toList <:+: K.right i

variable {K} {P Q : Draft ι → Prop} {a a' b b' s s' t : String}

theorem avoids_empty : K.Avoids "" where
  unquoted := by decide
  ending   := by decide
  left     := fun h => absurd rfl h
  right    := fun h => absurd rfl h

theorem Writes.imp (h : K.Writes P s s') (hP : ∀ τ, P τ → Q τ) : K.Writes Q s s' := by
  obtain ⟨τ, hb, hp, hs, hs'⟩ := h
  exact ⟨τ, hb, hP τ hp, hs, hs'⟩

theorem writes_self (h : Unquoted s) (hP : P (s.toList.map .inl)) : K.Writes P s s :=
  ⟨s.toList.map .inl, Draft.bare_map_inl h, hP, Draft.write_map_inl.symm, Draft.write_map_inl.symm⟩

theorem Writes.eq_iff (h : K.Writes P a a') (h' : K.Writes Q b b') : a = b ↔ a' = b' := by
  obtain ⟨τ, hτ, _, ha, ha'⟩ := h
  obtain ⟨υ, hυ, _, hb, hb'⟩ := h'
  rw [← String.toList_inj, ← String.toList_inj, ha, hb, ha', hb']
  constructor
  · exact Draft.write_eq_of_eq K.left_bare (fun i j => (K.same i j).mp) hτ hυ
  · exact Draft.write_eq_of_eq K.right_bare (fun i j => (K.same i j).mpr) hτ hυ

theorem Writes.beq_eq (h : K.Writes P a a') (h' : K.Writes Q b b') : (a == b) = (a' == b') := by
  rw [Bool.eq_iff_iff, beq_iff_eq, beq_iff_eq, h.eq_iff h']

theorem Writes.isEmpty_eq (h : K.Writes P s s') : s.isEmpty = s'.isEmpty := by
  have hnil : K.Writes (fun _ => True) "" "" := writes_self (by decide) trivial
  rw [Bool.eq_iff_iff, String.isEmpty_iff, String.isEmpty_iff, h.eq_iff hnil]

theorem led_self (h : Unquoted s) : K.Led s s := by
  have hp : Draft.Parted (s.toList.map .inl : Draft ι) := Draft.rooted_map_inl.parted
  exact writes_self h ⟨hp, Draft.led_map_inl⟩

theorem rooted_self (h : Unquoted s) : K.Rooted s s :=
  writes_self h Draft.rooted_map_inl

theorem single_self (h : Unquoted s) : K.Single s s :=
  writes_self h (.inl ⟨_, rfl⟩)

theorem single_place (i : ι) :
    K.Single ("'" ++ String.ofList (K.left i) ++ "'") ("'" ++ String.ofList (K.right i) ++ "'") :=
  ⟨[.inr i], by simp [Draft.Bare], .inr ⟨i, rfl⟩, by simp [literal, quoteMark],
    by simp [literal, quoteMark]⟩

theorem Writes.like (h : K.Led s s') : K.Like s s' :=
  h.imp fun _ h => h.1

theorem Writes.led (h : K.Rooted s s') : K.Led s s' :=
  h.imp fun _ h => ⟨h.parted, h.led⟩

theorem Single.like (h : K.Single s s') : K.Like s s' := by
  refine h.imp ?_
  rintro _ (⟨cs, rfl⟩ | ⟨i, rfl⟩)
  · exact Draft.rooted_map_inl.parted
  · simp [Draft.Parted]

theorem like_append (h : K.Like a a') (h' : K.Led b b') : K.Like (a ++ b) (a' ++ b') := by
  obtain ⟨τ, hτ, hp, ha, ha'⟩ := h
  obtain ⟨υ, hυ, ⟨hq, hl⟩, hb, hb'⟩ := h'
  exact ⟨τ ++ υ, hτ.append hυ, hp.append hq hl, by simp [ha, hb], by simp [ha', hb']⟩

theorem led_append (h : K.Led a a') (h' : K.Led b b') : K.Led (a ++ b) (a' ++ b') := by
  obtain ⟨τ, hτ, ⟨hp, hl'⟩, ha, ha'⟩ := h
  obtain ⟨υ, hυ, ⟨hq, hl⟩, hb, hb'⟩ := h'
  exact ⟨τ ++ υ, hτ.append hυ, ⟨hp.append hq hl, hl'.append hl⟩, by simp [ha, hb], by simp [ha', hb']⟩

theorem led_word (hs : Unquoted s) (hn : s ≠ "") (h : K.Like b b') : K.Led (s ++ b) (s ++ b') := by
  obtain ⟨υ, hυ, hq, hb, hb'⟩ := h
  refine ⟨s.toList.map .inl ++ υ, (Draft.bare_map_inl hs).append hυ,
    ⟨Draft.parted_map_inl_append.mpr hq, ?_⟩, by simp [hb, Draft.write_map_inl],
    by simp [hb', Draft.write_map_inl]⟩
  have hne : s.toList ≠ [] := fun h => hn (String.toList_inj.mp h)
  obtain ⟨c, cs, hc⟩ := List.exists_cons_of_ne_nil hne
  simp [hc, Draft.Led]

theorem like_word (hs : Unquoted s) (h : K.Like b b') : K.Like (s ++ b) (s ++ b') := by
  by_cases hn : s = ""
  · simpa [hn] using h
  · exact (led_word hs hn h).like

theorem like_intercalate {ss ss' : List String} (hs : Unquoted s) (hn : s ≠ "")
    (h : List.Forall₂ K.Like ss ss') : K.Like (s.intercalate ss) (s.intercalate ss') := by
  induction h
  case nil => exact (led_self (by decide : Unquoted "")).like
  case cons a a' as as' ha hrest ih =>
    cases hrest
    case nil => simpa using ha
    case cons =>
      rw [String.intercalate_cons_cons, String.intercalate_cons_cons, String.append_assoc,
        String.append_assoc]
      exact like_append ha (led_word hs hn ih)

theorem led_join {ss ss' : List String} (h : List.Forall₂ K.Led ss ss') :
    K.Led (String.join ss) (String.join ss') := by
  induction h
  case nil          => exact led_self (by decide)
  case cons h _ ih =>
    rw [String.join_cons, String.join_cons]
    exact led_append h ih

theorem rooted_append (h : K.Rooted a a') (h' : K.Single b b') :
    K.Rooted (a ++ "_" ++ b) (a' ++ "_" ++ b') := by
  obtain ⟨τ, hτ, hr, ha, ha'⟩ := h
  obtain ⟨υ, hυ, hs, hb, hb'⟩ := h'
  refine ⟨τ ++ .inl '_' :: υ, hτ.append ?_, hr.append ?_, by simp [ha, hb], by simp [ha', hb']⟩
  · intro c hc
    obtain hc | hc := List.mem_cons.mp hc
    · rw [Sum.inl.inj hc]
      decide
    · exact hυ c hc
  · obtain ⟨cs, rfl⟩ | ⟨i, rfl⟩ := hs
    · exact (Draft.rooted_map_inl : Draft.Rooted (('_' :: cs).map Sum.inl))
    · exact Draft.rooted_place i

theorem rooted_replaceFirst (ht : K.Avoids t) (hn : t ≠ "") (h : K.Rooted s s')
    (h' : K.Rooted b b') : K.Rooted (replaceFirst t b s) (replaceFirst t b' s') := by
  obtain ⟨τ, hτ, hr, hs, hs'⟩ := h
  obtain ⟨υ, hυ, hq, hb, hb'⟩ := h'
  have hne : t.toList ≠ [] := fun h => hn (String.toList_inj.mp h)
  refine ⟨Draft.replaceFirst t.toList υ τ, hτ.replaceFirst hυ, hr.replaceFirst hq hne ht.ending,
    ?_, ?_⟩
  · simp [replaceFirst, hs, hb, Draft.write_replaceFirst hne ht.unquoted (ht.left hn)]
  · simp [replaceFirst, hs', hb', Draft.write_replaceFirst hne ht.unquoted (ht.right hn)]

theorem like_markNumbered {word mark : List Char} (hn : word ≠ []) (hw : quoteMark ∉ word)
    (hm : quoteMark ∉ mark) (hl : ∀ i, ¬Numbered word (K.left i))
    (hr : ∀ i, ¬Numbered word (K.right i)) (h : K.Like s s') :
    K.Like (String.ofList (markNumbered word mark s.toList))
      (String.ofList (markNumbered word mark s'.toList)) := by
  obtain ⟨τ, hτ, hp, hs, hs'⟩ := h
  refine ⟨τ.markNumbered word mark, hτ.markNumbered hm, hp.markNumbered, ?_, ?_⟩
  · rw [String.toList_ofList, hs, Draft.write_markNumbered hn hw hl]
  · rw [String.toList_ofList, hs', Draft.write_markNumbered hn hw hr]

-- Related texts are read alike outside the literals, and these are the same places.
theorem read_eq (h : K.Like s s') : ∃ (code : List Char) (places : List ι),
    read none s.toList = some (code, places.map K.left) ∧
      read none s'.toList = some (code, places.map K.right) := by
  obtain ⟨τ, hτ, hp, hs, hs'⟩ := h
  refine ⟨τ.write fun _ => [], τ.places, ?_, ?_⟩
  · rw [hs, Draft.read_write K.left_bare hτ hp]
  · rw [hs', Draft.read_write K.right_bare hτ hp]

end Coding

end Text
end Inquiry
