import Mathlib
import Inquiry.Text.Basic

/-!
Marking words that a number follows. A character that is neither in the word nor a digit parts a
text: what is marked before it does not depend on what comes after it.
-/

namespace Inquiry

open List

namespace Text

variable {word mark cs ds : List Char} {b : Char}

theorem isPrefixOf_append_cons (hw : b ∉ word) :
    word.isPrefixOf (cs ++ b :: ds) = word.isPrefixOf cs := by
  induction word generalizing cs
  case nil => simp
  case cons w word ih =>
    obtain ⟨hw, hword⟩ := not_or.mp (mem_cons.not.mp hw)
    cases cs
    case nil  => simp [List.isPrefixOf, Ne.symm hw]
    case cons => simp [List.isPrefixOf, ih hword]

theorem digit_append_cons {n : Nat} (hb : b.isDigit = false) (h : n ≤ cs.length) :
    ((cs ++ b :: ds).drop n).head?.any Char.isDigit = (cs.drop n).head?.any Char.isDigit := by
  rw [drop_append_of_le_length h]
  cases cs.drop n
  case nil  => simpa using hb
  case cons => rfl

theorem markNumbered_append_cons (hn : word ≠ []) (hw : b ∉ word) (hb : b.isDigit = false) :
    markNumbered word mark (cs ++ b :: ds)
      = markNumbered word mark cs ++ b :: markNumbered word mark ds := by
  induction cs
  case nil =>
    have hp : word.isPrefixOf (b :: ds) = false := by
      cases word
      case nil  => exact absurd rfl hn
      case cons =>
        have := (not_or.mp (mem_cons.not.mp hw)).left
        simp [List.isPrefixOf, Ne.symm this]
    simp [markNumbered, hp]
  case cons c cs ih =>
    have hp : word.isPrefixOf (c :: cs ++ b :: ds) = word.isPrefixOf (c :: cs) :=
      isPrefixOf_append_cons hw
    rw [cons_append] at hp
    rw [cons_append, markNumbered, markNumbered, hp, ih]
    cases hc : word.isPrefixOf (c :: cs)
    case false => simp
    case true =>
      have hd : ((c :: (cs ++ b :: ds)).drop word.length).head?.any Char.isDigit
          = ((c :: cs).drop word.length).head?.any Char.isDigit :=
        digit_append_cons hb (List.isPrefixOf_iff_prefix.mp hc).length_le
      rw [hd]
      split <;> simp

theorem mem_markNumbered {c : Char} (h : c ∈ markNumbered word mark cs) : c ∈ mark ∨ c ∈ cs := by
  induction cs
  case nil => simp [markNumbered] at h
  case cons d cs ih =>
    rw [markNumbered] at h
    split at h <;> simp at h ⊢ <;> tauto

def Numbered (word cs : List Char) : Prop :=
  ∃ d, d.isDigit ∧ word ++ [d] <:+: cs

theorem numbered_cons {c : Char} : Numbered word (c :: cs) ↔
    (word.isPrefixOf (c :: cs) && ((c :: cs).drop word.length).head?.any Char.isDigit) ∨
      Numbered word cs := by
  simp only [Numbered, infix_cons_iff, and_or_left, exists_or]
  refine or_congr ?_ Iff.rfl
  rw [Bool.and_eq_true, isPrefixOf_iff_prefix, Option.any_eq_true]
  constructor
  · rintro ⟨d, hd, hp⟩
    obtain ⟨rest, hrest⟩ := hp
    refine ⟨⟨d :: rest, by simpa using hrest⟩, d, ?_, hd⟩
    simp [← hrest]
  · rintro ⟨⟨rest, hrest⟩, d, hd, hdigit⟩
    rw [← hrest, drop_left] at hd
    obtain ⟨rest, rfl⟩ := head?_eq_some_iff.mp hd
    exact ⟨d, hdigit, rest, by simpa using hrest⟩

theorem count_le_markNumbered (a : Char) : cs.count a ≤ (markNumbered word mark cs).count a := by
  induction cs
  case nil => simp
  case cons c cs ih =>
    rw [markNumbered]
    split <;> simp only [count_append, count_cons] <;> omega

theorem markNumbered_eq_self (h : ¬Numbered word cs) : markNumbered word mark cs = cs := by
  induction cs
  case nil => rfl
  case cons c cs ih =>
    obtain ⟨hc, hcs⟩ := not_or.mp (numbered_cons.not.mp h)
    rw [markNumbered, if_neg hc, ih hcs]

theorem count_lt_markNumbered {a : Char} (ha : a ∈ mark) (h : Numbered word cs) :
    cs.count a < (markNumbered word mark cs).count a := by
  induction cs
  case nil =>
    obtain ⟨d, _, hd⟩ := h
    simp at hd
  case cons c cs ih =>
    have hle : cs.count a ≤ (markNumbered word mark cs).count a := count_le_markNumbered a
    have hpos := count_pos_iff.mpr ha
    rw [markNumbered]
    split
    case isTrue =>
      simp only [count_append, count_cons]
      omega
    case isFalse hc =>
      have := ih ((numbered_cons.mp h).resolve_left hc)
      simp only [count_cons]
      omega

theorem numbered_iff {a : Char} (ha : a ∈ mark) :
    Numbered word cs ↔ markNumbered word mark cs ≠ cs := by
  constructor
  · intro h he
    have := count_lt_markNumbered ha h
    rw [he] at this
    exact absurd this (lt_irrefl _)
  · exact fun h => not_not.mp fun hn => h (markNumbered_eq_self hn)

instance (word cs : List Char) : Decidable (Numbered word cs) :=
  decidable_of_iff (markNumbered word ['#'] cs ≠ cs) (numbered_iff (mem_singleton_self _)).symm

end Text
end Inquiry
