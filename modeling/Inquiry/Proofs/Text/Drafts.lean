import Mathlib
import Inquiry.Proofs.Text.Marking

/-!
Texts with literals. Reading a text gives what stands outside its literals and what the literals say.
A draft is a text with places for literals; however these are filled in, the text outside them is
the same, as long as no literal holds a quote and no two of them touch.
-/

namespace Inquiry

open List

namespace Text

abbrev quoteMark : Char := '\''

def literal (v : List Char) : List Char :=
  quoteMark :: (v ++ [quoteMark])

-- What stands outside the literals of a text, each of which leaves its quotes, and what the literals
-- say. The first argument is what a literal has said so far; a quote in it is written twice.
def read : Option (List Char) → List Char → Option (List Char × List (List Char))
  | none, []   => some ([], [])
  | some _, [] => none
  | none, c :: cs =>
    if c = quoteMark then read (some []) cs else (read none cs).map (Prod.map (c :: ·) id)
  | some v, c :: cs =>
    if c = quoteMark then
      match cs with
      | []       => some ([quoteMark, quoteMark], [v])
      | c' :: ds =>
        if c' = quoteMark then read (some (v ++ [quoteMark])) ds
        else (read none (c' :: ds)).map (Prod.map ([quoteMark, quoteMark] ++ ·) (v :: ·))
    else read (some (v ++ [c])) cs

-- The text is one literal that says `v`.
def IsLiteral (v cs : List Char) : Prop :=
  read none cs = some ([quoteMark, quoteMark], [v])

instance (v cs : List Char) : Decidable (IsLiteral v cs) :=
  inferInstanceAs (Decidable (_ = _))

variable {u v w cs ds : List Char} {c : Char}

theorem read_cons (hc : c ≠ quoteMark) :
    read none (c :: cs) = (read none cs).map (Prod.map (c :: ·) id) := by
  rw [read, if_neg hc]

-- A literal ends at its own last quote, unless another quote follows it.
theorem read_inside (hv : quoteMark ∉ v) (hcs : cs.head? ≠ some quoteMark) :
    read (some u) (v ++ quoteMark :: cs)
      = (read none cs).map (Prod.map ([quoteMark, quoteMark] ++ ·) ((u ++ v) :: ·)) := by
  induction v generalizing u
  case nil =>
    rw [nil_append, read.eq_def]
    cases cs
    case nil  => simp [read]
    case cons => simp_all
  case cons c v ih =>
    obtain ⟨hc, hv⟩ := not_or.mp (mem_cons.not.mp hv)
    rw [cons_append, read.eq_def]
    simp [Ne.symm hc, ih hv]

theorem read_literal (hv : quoteMark ∉ v) (hcs : cs.head? ≠ some quoteMark) :
    read none (literal v ++ cs)
      = (read none cs).map (Prod.map ([quoteMark, quoteMark] ++ ·) (v :: ·)) := by
  have h := read_inside (u := []) hv hcs
  rw [literal, cons_append, read.eq_def]
  simpa using h

section Escaping

def escaped (v : List Char) : List Char :=
  v.flatMap fun c => if c = quoteMark then [quoteMark, quoteMark] else [c]

theorem count_escaped (hc : c ≠ quoteMark) : (escaped v).count c = v.count c := by
  induction v
  case nil => rfl
  case cons d v ih =>
    rw [escaped, flatMap_cons, count_append, ← escaped, ih, count_cons]
    by_cases hd : d = quoteMark
    · simp [hd, Ne.symm hc]
    · simp [hd, count_cons, Nat.add_comm]

theorem escaped_eq_self_iff : escaped v = v ↔ quoteMark ∉ v := by
  have hlen : (escaped v).length = v.length + v.count quoteMark := by
    induction v
    case nil => rfl
    case cons c v ih =>
      rw [escaped, flatMap_cons, length_append, ← escaped, ih, count_cons]
      by_cases hc : c = quoteMark <;> simp [hc] <;> omega
  constructor
  · intro h
    rw [h] at hlen
    exact count_eq_zero.mp (by omega)
  · intro h
    have hf : ∀ c ∈ v, (if c = quoteMark then [quoteMark, quoteMark] else [c]) = [c] := by
      rintro c hc
      rw [if_neg]
      rintro rfl
      exact h hc
    rw [escaped, flatMap_congr hf, flatMap_singleton']

theorem escaped_of_read : (cs u : List Char) →
    read (some u) cs = some ([quoteMark, quoteMark], [w]) →
      ∃ v, cs = escaped v ++ [quoteMark] ∧ w = u ++ v
  | [], u, h => by simp [read] at h
  | [c], u, h => by
    rw [read] at h
    split_ifs at h with hc
    · exact ⟨[], by simp [hc, escaped], by simpa using h.symm⟩
    · simp [read] at h
  | c :: c' :: ds, u, h => by
    rw [read] at h
    split_ifs at h with hc hc'
    · obtain ⟨v, hv, rfl⟩ := escaped_of_read ds (u ++ [quoteMark]) h
      exact ⟨quoteMark :: v, by simp [hv, hc, hc', escaped], by simp⟩
    · rw [read_cons hc'] at h
      simp at h
    · obtain ⟨v, hv, rfl⟩ := escaped_of_read (c' :: ds) (u ++ [c]) h
      exact ⟨c :: v, by simp [hv, escaped, hc], by simp⟩

theorem read_escaped (u v : List Char) :
    read (some u) (escaped v ++ [quoteMark]) = some ([quoteMark, quoteMark], [u ++ v]) := by
  induction v generalizing u
  case nil => simp [escaped, read]
  case cons c v ih =>
    have hv : escaped (c :: v) = escaped [c] ++ escaped v := by simp [escaped]
    rw [hv, append_assoc]
    by_cases hc : c = quoteMark
    · have := ih (u ++ [quoteMark])
      simpa [escaped, hc, read] using this
    · have := ih (u ++ [c])
      rw [read.eq_def]
      simpa [escaped, hc] using this

/-- A text is one literal that says `v` if it is `v` in quotes, with the quotes in it doubled. -/
theorem isLiteral_iff : IsLiteral v cs ↔ cs = literal (escaped v) := by
  constructor
  · intro h
    cases cs
    case nil => simp [IsLiteral, read] at h
    case cons c cs =>
      by_cases hc : c = quoteMark
      · rw [IsLiteral, read, if_pos hc] at h
        obtain ⟨v', rfl, hv⟩ := escaped_of_read cs [] h
        simp [hc, hv, literal]
      · rw [IsLiteral, read_cons hc] at h
        simp_all
  · rintro rfl
    simpa [IsLiteral, literal, read] using read_escaped [] v

theorem literal_inj : literal u = literal v ↔ u = v := by
  simp [literal]

theorem literal_append_inj (hu : quoteMark ∉ u) (hv : quoteMark ∉ v)
    (h : literal u ++ cs = literal v ++ ds) : u = v ∧ cs = ds := by
  replace h : u ++ quoteMark :: cs = v ++ quoteMark :: ds := by simpa [literal] using h
  induction u generalizing v
  case nil =>
    obtain _ | ⟨d, v⟩ := v
    · simpa using h
    · exact absurd ((List.cons.inj h).1 ▸ mem_cons_self) hv
  case cons c u ih =>
    obtain _ | ⟨d, v⟩ := v
    · exact absurd ((List.cons.inj h).1 ▸ mem_cons_self) hu
    · obtain ⟨hcd, htail⟩ := List.cons.inj h
      obtain ⟨huv, hcs⟩ := ih (fun hm => hu (by simp [hm])) (fun hm => hv (by simp [hm])) htail
      exact ⟨by rw [hcd, huv], hcs⟩

theorem markNumbered_literal {word mark : List Char} (hn : word ≠ []) (hw : quoteMark ∉ word)
    (cs : List Char) :
    markNumbered word mark (literal v ++ cs)
      = literal (markNumbered word mark v) ++ markNumbered word mark cs := by
  calc markNumbered word mark (literal v ++ cs)
    _ = markNumbered word mark ([] ++ quoteMark :: (v ++ quoteMark :: cs)) := by simp [literal]
    _ = quoteMark :: (markNumbered word mark v ++ quoteMark :: markNumbered word mark cs) := by
      rw [markNumbered_append_cons hn hw rfl, markNumbered_append_cons hn hw rfl]
      rfl
    _ = literal (markNumbered word mark v) ++ markNumbered word mark cs := by simp [literal]

/-- A text in quotes is a literal that says it only if it holds no quote. -/
theorem isLiteral_literal_iff : IsLiteral v (literal v) ↔ quoteMark ∉ v := by
  rw [isLiteral_iff, literal_inj, eq_comm, escaped_eq_self_iff]

/-- If words are marked in it, it must not hold such a word either. -/
theorem isLiteral_marked_iff {word mark : List Char} {a : Char} (hn : word ≠ [])
    (hw : quoteMark ∉ word) (ha : a ∈ mark) (haq : a ≠ quoteMark) :
    IsLiteral v (markNumbered word mark (literal v)) ↔ quoteMark ∉ v ∧ ¬Numbered word v := by
  have hm : markNumbered word mark (literal v) = literal (markNumbered word mark v) := by
    simpa [markNumbered] using markNumbered_literal (v := v) hn hw []
  rw [hm, isLiteral_iff, literal_inj]
  constructor
  · intro h
    have hnum : ¬Numbered word v := by
      intro hnum
      have := count_lt_markNumbered ha hnum
      rw [h, count_escaped haq] at this
      exact lt_irrefl _ this
    rw [markNumbered_eq_self hnum] at h
    exact ⟨escaped_eq_self_iff.mp h.symm, hnum⟩
  · rintro ⟨hq, hnum⟩
    rw [markNumbered_eq_self hnum, escaped_eq_self_iff.mpr hq]

end Escaping

-- A text with places for literals.
abbrev Draft (ι : Type) := List (Char ⊕ ι)

namespace Draft

variable {ι : Type} {val : ι → List Char} {τ υ : Draft ι} {i j : ι}

def write (val : ι → List Char) (τ : Draft ι) : List Char :=
  τ.flatMap (Sum.elim (fun c => [c]) fun i => literal (val i))

def places (τ : Draft ι) : List ι :=
  τ.filterMap Sum.getRight?

def Bare (τ : Draft ι) : Prop :=
  ∀ c, .inl c ∈ τ → c ≠ quoteMark

def Parted (τ : Draft ι) : Prop :=
  τ.IsChain fun x y => x.isLeft ∨ y.isLeft

@[simp]
theorem write_nil : write val [] = [] := rfl

@[simp]
theorem write_inl : write val (.inl c :: τ) = c :: write val τ := rfl

@[simp]
theorem write_inr : write val (.inr i :: τ) = literal (val i) ++ write val τ := rfl

@[simp]
theorem write_append : write val (τ ++ υ) = write val τ ++ write val υ := by
  simp [write]

theorem write_map_inl : write val (cs.map .inl) = cs := by
  simp [write, flatMap_map]

theorem Bare.cons_inl (h : Bare (.inl c :: τ)) : c ≠ quoteMark ∧ Bare τ :=
  ⟨h c (by simp), fun d hd => h d (by simp [hd])⟩

theorem Bare.cons_inr (h : Bare (.inr i :: τ)) : Bare τ :=
  fun d hd => h d (by simp [hd])

theorem read_write (hval : ∀ i, quoteMark ∉ val i) (hb : τ.Bare) (hp : τ.Parted) :
    read none (write val τ) = some (write (fun _ => []) τ, τ.places.map val) := by
  induction τ
  case nil => rfl
  case cons x τ ih =>
    have ih := ih (fun c hc => hb c (by simp [hc])) hp.tail
    cases x
    case inl c =>
      rw [write_inl, read_cons hb.cons_inl.1, ih]
      rfl
    case inr i =>
      have hhead : (write val τ).head? ≠ some quoteMark := by
        obtain _ | ⟨c | j, τ⟩ := τ
        · simp
        · simpa using hb.cons_inr.cons_inl.1
        · simp [Parted] at hp
      rw [write_inr, read_literal (hval i) hhead, ih]
      rfl

-- Texts that are written alike in one way are so in the other, if the ways tell the same literals
-- apart.
theorem write_eq_of_eq {val' : ι → List Char} (hval : ∀ i, quoteMark ∉ val i)
    (hsame : ∀ i j, val i = val j → val' i = val' j) (hτ : τ.Bare) (hυ : υ.Bare)
    (h : write val τ = write val υ) : write val' τ = write val' υ := by
  induction τ generalizing υ
  case nil =>
    obtain _ | ⟨c | j, υ⟩ := υ
    · rfl
    · simp at h
    · simp [literal] at h
  case cons x τ ih =>
    obtain c | i := x <;> obtain _ | ⟨d | j, υ⟩ := υ
    · simp at h
    · obtain ⟨hcd, htail⟩ := List.cons.inj h
      rw [write_inl, write_inl, hcd, ih hτ.cons_inl.2 hυ.cons_inl.2 htail]
    · exact absurd (List.cons.inj h).1 hτ.cons_inl.1
    · simp [literal] at h
    · exact absurd (List.cons.inj h).1.symm hυ.cons_inl.1
    · obtain ⟨hij, h⟩ := literal_append_inj (hval i) (hval j) h
      rw [write_inr, write_inr, hsame i j hij, ih hτ.cons_inr hυ.cons_inr h]

section Words

variable {word : List Char}

-- The draft starts with a word.
def starts : List Char → Draft ι → Bool
  | [], _                => true
  | c :: cs, .inl d :: τ => c == d && starts cs τ
  | _ :: _, _            => false

theorem starts_iff : starts word τ ↔ ∃ rest, τ = word.map .inl ++ rest := by
  induction word generalizing τ
  case nil => simp [starts]
  case cons c word ih =>
    obtain _ | ⟨d | j, τ⟩ := τ <;> simp [starts, ih]
    tauto

theorem isPrefixOf_write (hw : quoteMark ∉ word) : word.isPrefixOf (write val τ) = starts word τ := by
  induction word generalizing τ
  case nil => simp [starts]
  case cons c word ih =>
    obtain ⟨hc, hw⟩ := not_or.mp (mem_cons.not.mp hw)
    obtain _ | ⟨d | j, τ⟩ := τ
    · rfl
    · rw [write_inl, List.isPrefixOf, starts, ih hw]
    · have hne : (c == quoteMark) = false := by simpa using Ne.symm hc
      rw [write_inr, literal, cons_append, List.isPrefixOf, hne, Bool.false_and]
      rfl

theorem drop_write (h : starts word τ) :
    (write val τ).drop word.length = write val (τ.drop word.length) := by
  obtain ⟨rest, rfl⟩ := starts_iff.mp h
  rw [write_append, write_map_inl, drop_left, ← length_map (f := Sum.inl), drop_left]

-- Puts another draft in the place of a word.
def replaceFirst (old : List Char) (new : Draft ι) : Draft ι → Draft ι
  | []     => []
  | x :: τ =>
    if starts old (x :: τ) then new ++ (x :: τ).drop old.length else x :: replaceFirst old new τ

theorem replaceFirstChars_literal {new : List Char} (hn : word ≠ []) (hw : quoteMark ∉ word)
    (hv : ¬word <:+: v) : replaceFirstChars word new (literal v ++ cs)
      = literal v ++ replaceFirstChars word new cs := by
  have hquote {cs : List Char} : replaceFirstChars word new (quoteMark :: cs)
      = quoteMark :: replaceFirstChars word new cs := by
    have hp : word.isPrefixOf (quoteMark :: cs) = false := by
      obtain ⟨c, word, rfl⟩ := exists_cons_of_ne_nil hn
      have hc : c ≠ quoteMark := fun hc => hw (by simp [hc])
      simp [List.isPrefixOf, hc]
    rw [replaceFirstChars, hp]
    rfl
  have hinside : replaceFirstChars word new (v ++ quoteMark :: cs)
      = v ++ quoteMark :: replaceFirstChars word new cs := by
    induction v
    case nil => exact hquote
    case cons c v ih =>
      have hp : word.isPrefixOf (c :: v ++ quoteMark :: cs) = false := by
        rw [isPrefixOf_append_cons hw, Bool.eq_false_iff, Ne, isPrefixOf_iff_prefix]
        exact fun hp => hv hp.isInfix
      have ih := ih fun hi => hv (hi.trans (suffix_cons c v).isInfix)
      rw [cons_append] at hp ⊢
      rw [replaceFirstChars, hp, if_neg (by simp), ih]
      rfl
  simp [literal, hquote, hinside]

theorem write_replaceFirst {new : Draft ι} (hn : word ≠ []) (hw : quoteMark ∉ word)
    (hv : ∀ i, ¬word <:+: val i) : write val (replaceFirst word new τ)
      = replaceFirstChars word (write val new) (write val τ) := by
  induction τ
  case nil => simp [replaceFirst, replaceFirstChars, hn]
  case cons x τ ih =>
    have hp : word.isPrefixOf (write val (x :: τ)) = starts word (x :: τ) := isPrefixOf_write hw
    obtain c | i := x
    case inl =>
      rw [write_inl] at hp
      rw [replaceFirst, write_inl, replaceFirstChars, hp]
      split
      case isTrue h => rw [write_append, ← drop_write h, write_inl]
      case isFalse  => rw [write_inl, ih]
    case inr =>
      rw [replaceFirst, write_inr, replaceFirstChars_literal hn hw (hv i), if_neg, write_inr, ih]
      obtain ⟨c, word, rfl⟩ := exists_cons_of_ne_nil hn
      simp [starts]

-- Writes a mark before every occurrence of a word that a digit follows.
def markNumbered (word mark : List Char) : Draft ι → Draft ι
  | []     => []
  | x :: τ =>
    if starts word (x :: τ) &&
        ((x :: τ).drop word.length).head?.any (Sum.elim Char.isDigit fun _ => false) then
      mark.map .inl ++ x :: markNumbered word mark τ
    else x :: markNumbered word mark τ

theorem digit_write : (write val τ).head?.any Char.isDigit
    = τ.head?.any (Sum.elim Char.isDigit fun _ => false) := by
  obtain _ | ⟨c | i, τ⟩ := τ <;> rfl

theorem write_markNumbered {mark : List Char} (hn : word ≠ []) (hw : quoteMark ∉ word)
    (hv : ∀ i, ¬Numbered word (val i)) : write val (markNumbered word mark τ)
      = Text.markNumbered word mark (write val τ) := by
  induction τ
  case nil => rfl
  case cons x τ ih =>
    have hp : word.isPrefixOf (write val (x :: τ)) = starts word (x :: τ) := isPrefixOf_write hw
    obtain c | i := x
    case inl =>
      have hd : starts word (.inl c :: τ) = true →
          ((write val (.inl c :: τ)).drop word.length).head?.any Char.isDigit
            = ((.inl c :: τ).drop word.length).head?.any (Sum.elim Char.isDigit fun _ => false) :=
        fun h => by rw [drop_write h, digit_write]
      rw [write_inl] at hp hd
      rw [markNumbered, write_inl, Text.markNumbered, hp]
      cases hs : starts word (.inl c :: τ)
      case false => simp [ih]
      case true =>
        rw [hd hs]
        split <;> simp [ih, write_map_inl]
    case inr =>
      have hs : starts word (.inr i :: τ) = false := by
        obtain ⟨c, word, rfl⟩ := exists_cons_of_ne_nil hn
        rfl
      rw [markNumbered, write_inr, markNumbered_literal hn hw, markNumbered_eq_self (hv i), hs, ← ih]
      simp

end Words

section Shapes

variable {word mark : List Char} {new : Draft ι} {x : Char ⊕ ι}

theorem Bare.append (hτ : τ.Bare) (hυ : υ.Bare) : (τ ++ υ).Bare := by
  intro c hc
  exact (mem_append.mp hc).elim (hτ c) (hυ c)

theorem bare_map_inl (h : quoteMark ∉ cs) : Bare (cs.map Sum.inl : Draft ι) := by
  rintro c hc rfl
  exact h (by simpa using hc)

theorem mem_replaceFirst (h : x ∈ replaceFirst word new τ) : x ∈ new ∨ x ∈ τ := by
  induction τ
  case nil => simp [replaceFirst] at h
  case cons y τ ih =>
    rw [replaceFirst] at h
    split at h
    · exact (mem_append.mp h).imp_right mem_of_mem_drop
    · obtain rfl | h := mem_cons.mp h
      · simp
      · exact (ih h).imp_right (mem_cons_of_mem y)

theorem Bare.replaceFirst (hτ : τ.Bare) (hn : new.Bare) : (replaceFirst word new τ).Bare :=
  fun c hc => (mem_replaceFirst hc).elim (hn c) (hτ c)

theorem mem_markNumbered (h : x ∈ markNumbered word mark τ) : x ∈ mark.map .inl ∨ x ∈ τ := by
  induction τ
  case nil => simp [markNumbered] at h
  case cons y τ ih =>
    rw [markNumbered] at h
    split at h
    all_goals
      simp only [mem_append, mem_cons] at h ⊢
      tauto

theorem Bare.markNumbered (hτ : τ.Bare) (hm : quoteMark ∉ mark) :
    (markNumbered word mark τ).Bare :=
  fun c hc => (mem_markNumbered hc).elim (bare_map_inl hm c) (hτ c)

def Led (τ : Draft ι) : Prop :=
  ∀ x ∈ τ.head?, x.isLeft

theorem parted_inl : Parted (.inl c :: τ) ↔ τ.Parted := by
  simp [Parted, isChain_cons]

theorem parted_inr : Parted (.inr i :: τ) ↔ τ.Led ∧ τ.Parted := by
  simp [Parted, Led, isChain_cons]

theorem parted_map_inl_append : Parted (cs.map .inl ++ τ) ↔ τ.Parted := by
  induction cs
  case nil          => rfl
  case cons c cs ih => rw [map_cons, cons_append, parted_inl, ih]

theorem Led.append (hτ : τ.Led) (hυ : υ.Led) : (τ ++ υ).Led := by
  cases τ
  case nil  => exact hυ
  case cons => exact hτ

theorem Parted.append (hτ : τ.Parted) (hυ : υ.Parted) (hl : υ.Led) : (τ ++ υ).Parted := by
  refine isChain_append.mpr ⟨hτ, hυ, fun x _ y hy => .inr (hl y hy)⟩

theorem led_map_inl : Led (cs.map Sum.inl : Draft ι) := by
  cases cs <;> simp [Led]

theorem Led.markNumbered (hτ : τ.Led) : (markNumbered word mark τ).Led := by
  cases τ
  case nil => exact hτ
  case cons x τ =>
    rw [Draft.markNumbered]
    split
    · exact led_map_inl.append hτ
    · exact hτ

theorem Parted.markNumbered (hτ : τ.Parted) : (markNumbered word mark τ).Parted := by
  induction τ
  case nil => exact hτ
  case cons x τ ih =>
    have hx : Parted (x :: Draft.markNumbered word mark τ) := by
      obtain c | i := x
      · exact parted_inl.mpr (ih (parted_inl.mp hτ))
      · obtain ⟨hl, hp⟩ := parted_inr.mp hτ
        exact parted_inr.mpr ⟨hl.markNumbered, ih hp⟩
    rw [Draft.markNumbered]
    split
    · exact parted_map_inl_append.mpr hx
    · exact hx

-- A literal only follows an underscore.
def Follows (x y : Char ⊕ ι) : Prop :=
  y.isLeft ∨ x = .inl '_'

structure Rooted (τ : Draft ι) : Prop where
  led   : τ.Led
  chain : τ.IsChain Follows

theorem Rooted.parted (h : τ.Rooted) : τ.Parted := by
  refine h.chain.imp fun x y hxy => hxy.symm.imp_left ?_
  rintro rfl
  rfl

theorem Rooted.append (hτ : τ.Rooted) (hυ : υ.Rooted) : (τ ++ υ).Rooted where
  led   := hτ.led.append hυ.led
  chain := isChain_append.mpr ⟨hτ.chain, hυ.chain, fun _ _ y hy => .inl (hυ.led y hy)⟩

theorem rooted_map_inl : Rooted (cs.map Sum.inl : Draft ι) where
  led   := led_map_inl
  chain := by
    induction cs
    case nil          => exact .nil
    case cons c cs ih => exact isChain_cons.mpr ⟨fun y hy => .inl (led_map_inl y hy), ih⟩

theorem rooted_place (i : ι) : Rooted [.inl '_', .inr i] where
  led   := by simp [Led]
  chain := by simp [Follows]

theorem rooted_iff : τ.Rooted ↔ List.IsChain Follows (.inl '.' :: τ) := by
  simp only [isChain_cons, Follows, Sum.inl.injEq, Char.reduceEq, or_false]
  exact ⟨fun h => ⟨h.led, h.chain⟩, fun h => ⟨h.1, h.2⟩⟩

theorem rooted_of_append (hn : word ≠ []) (hw : word.getLast? ≠ some '_')
    (h : List.IsChain Follows (word.map .inl ++ τ)) : τ.Rooted := by
  obtain ⟨_, hchain, hjoin⟩ := isChain_append.mp h
  obtain ⟨init, c, rfl⟩ := (eq_nil_or_concat' word).resolve_left hn
  refine ⟨fun y hy => (hjoin (.inl c) (by simp) y hy).resolve_right fun he => hw ?_, hchain⟩
  simp [Sum.inl.inj he]

theorem Rooted.replaceFirst (hτ : τ.Rooted) (hnew : new.Rooted) (hn : word ≠ [])
    (hw : word.getLast? ≠ some '_') : (replaceFirst word new τ).Rooted := by
  rw [rooted_iff] at hτ ⊢
  -- the induction goes over the rest of a draft, whatever comes before it
  generalize (.inl '.' : Char ⊕ ι) = p at hτ
  induction τ generalizing p
  case nil => exact hτ
  case cons x τ ih =>
    obtain ⟨hp, hx⟩ := isChain_cons.mp hτ
    rw [Draft.replaceFirst]
    split
    case isTrue h =>
      obtain ⟨rest, hrest⟩ := starts_iff.mp h
      rw [hrest] at hx ⊢
      rw [← length_map (f := Sum.inl), drop_left]
      have hr := hnew.append (rooted_of_append hn hw hx)
      exact isChain_cons.mpr ⟨fun y hy => .inl (hr.led y hy), hr.chain⟩
    case isFalse => exact isChain_cons.mpr ⟨hp, ih x hx⟩

end Shapes

end Draft

end Text
end Inquiry
