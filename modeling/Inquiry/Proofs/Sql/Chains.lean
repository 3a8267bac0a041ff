import Mathlib
import Inquiry.Proofs.Sql.ListComposition

/-!
Chains of links. Each link to a table is followed from the column that was reached before it, under
a name that is made of the columns so far. A chain can be followed at once, or in parts that start
from tables of their own. Main statement: both come to the same if the chain is `Unbroken`.
-/

namespace Inquiry

open List Text

namespace Text

theorem replaceFirst_of_not_infix {old s : String} (new : String)
    (h : ¬old.toList <:+: s.toList) : replaceFirst old new s = s := by
  have key (cs : List Char) (h : ¬old.toList <:+: cs) :
      replaceFirstChars old.toList new.toList cs = cs := by
    induction cs
    case nil =>
      have hn : old.toList ≠ [] := fun he => h (by simp [he])
      simp [replaceFirstChars, hn]
    case cons c cs ih =>
      have hp : ¬old.toList <+: c :: cs := fun hp => h hp.isInfix
      have hi : ¬old.toList <:+: cs := fun hi => h (hi.trans (suffix_cons c cs).isInfix)
      simp [replaceFirstChars, isPrefixOf_iff_prefix, hp, ih hi]
  simp [replaceFirst, key _ h]

theorem replaceFirst_append {old : String} (new s : String) (h : old.isEmpty = false) :
    replaceFirst old new (old ++ s) = new ++ s := by
  cases hc : old.toList
  case nil => simp_all
  case cons c cs =>
    have hp : (c :: cs).isPrefixOf (c :: (cs ++ s.toList)) :=
      isPrefixOf_iff_prefix.mpr ⟨s.toList, rfl⟩
    rw [← String.toList_inj]
    simp only [replaceFirst, String.toList_append, hc, cons_append, replaceFirstChars, hp,
      if_true, String.toList_ofList, length_cons, drop_succ_cons, drop_left]

theorem replaceFirst_empty {old : String} (new : String) (h : old.isEmpty = false) :
    replaceFirst old new "" = "" :=
  replaceFirst_of_not_infix new (by simp_all)

end Text

namespace Sql

-- What a link of a chain reads: a stored column, one value for all rows of a table, or a constant.
inductive Piece where
  | stored (table column : String)
  | counted (table value : String)
  | fixed (code : String)
  deriving DecidableEq

namespace Piece

def table : Piece → String
  | stored t _ | counted t _ => t
  | fixed _                  => ""

def isStored : Piece → Bool
  | stored .. => true
  | _         => false

def isFixed : Piece → Bool
  | fixed _ => true
  | _       => false

theorem exists_of_isFixed {p : Piece} (h : p.isFixed) : ∃ c, p = .fixed c := by
  cases p <;> simp [isFixed] at h
  exact ⟨_, rfl⟩

-- The column that is joined to, and the one that is given where the table has a name.
def domain : Piece → String × String
  | stored t _ | counted t _ => (t, identifierColumn t)
  | fixed _                  => ("", "'*'")

def out (name : String) : Piece → String × String
  | stored _ c  => (name, c)
  | counted _ v => ("", v)
  | fixed c     => ("", "'" ++ c ++ "'")

end Piece

-- A name of a table that is neither empty nor temporary, and has no dot.
structure Stored (table : String) : Prop where
  given     : table.isEmpty = false
  permanent : isTemporary table = false
  undotted  : '.' ∉ table.toList

def Piece.Named : Piece → Prop
  | stored t n | counted t n => Stored t ∧ '.' ∉ n.toList
  | fixed _                  => True

instance Stored.decidable (t : String) : Decidable (Stored t) :=
  decidable_of_iff (t.isEmpty = false ∧ isTemporary t = false ∧ '.' ∉ t.toList)
    ⟨fun h => ⟨h.left, h.right.left, h.right.right⟩, fun h => ⟨h.given, h.permanent, h.undotted⟩⟩

instance Piece.Named.decidable : (p : Piece) → Decidable p.Named
  | .stored .. | .counted .. => inferInstanceAs (Decidable (_ ∧ _))
  | .fixed _                 => .isTrue trivial

-- What is read along a chain: a table, the column of its rows, the hops, and the column at the end.
@[ext]
structure Trail where
  table  : String := ""
  domain : String × String := ("", "")
  hops   : List Hop := []
  out    : String × String := ("", "")
  deriving DecidableEq

namespace Trail

def name (τ : Trail) : String :=
  τ.out.1 ++ "_" ++ τ.out.2

def next (τ : Trail) : Piece → Trail
  | .fixed c => { τ with out := Piece.out "" (.fixed c) }
  | p        => { τ with hops := τ.hops ++ [⟨τ.out.1, τ.out.2, p.table⟩], out := p.out τ.name }

theorem next_of_table {p : Piece} (τ : Trail) (hp : p.isFixed = false) : τ.next p
    = { τ with hops := τ.hops ++ [⟨τ.out.1, τ.out.2, p.table⟩], out := p.out τ.name } := by
  cases p
  case fixed => simp [Piece.isFixed] at hp
  all_goals rfl

end Trail

def Piece.start (p : Piece) : Trail :=
  ⟨p.table, p.domain, [], p.out p.table⟩

-- The last piece is read first.
def trail : List Piece → Trail
  | []      => {}
  | [p]     => p.start
  | p :: ps => (trail ps).next p

theorem trail_cons {p : Piece} {ps : List Piece} (h : ps ≠ []) :
    trail (p :: ps) = (trail ps).next p := by
  cases ps
  case nil  => exact absurd rfl h
  case cons => rfl

-- What has to hold of a chain for its parts to fit together.
structure Unbroken (ps : List Piece) : Prop where
  -- A constant leads on to a table at the start of the chain only.
  constants : ∀ p c q, [p, .fixed c, q] <:+: ps → p.isFixed
  -- Wherever one starts, no link seems to lead to the row that it starts from.
  onward    : ∀ p qs, p :: qs <:+: ps → qs ≠ [] → p.isFixed = false →
    (trail qs).out ≠ (p.table, identifierColumn p.table)
  -- A name that does not go back to the table at the start does not mention this table.
  apart     : ∀ p qs q, p :: (qs ++ [q]) <:+: ps → p.isFixed = false → q.isFixed = false →
    (qs ++ [q]).all Piece.isStored ∨ ¬q.table.toList <:+: (trail (qs ++ [q])).name.toList

def fixedBehindOne : List Piece → Bool
  | [.fixed _, _] => true
  | _             => false

-- All that has to hold of a piece that is read behind some others.
def Piece.suits (p : Piece) (qs : List Piece) : Bool :=
  p.isFixed || qs.isEmpty ||
    !fixedBehindOne qs && (trail qs).out != (p.table, identifierColumn p.table) &&
      qs.getLast?.all fun q => q.isFixed || qs.all isStored ||
        !decide (q.table.toList <:+: (trail qs).name.toList)

theorem Piece.suits_concat {p q : Piece} {qs : List Piece} (hf : p.isFixed = false) :
    p.suits (qs ++ [q]) ↔ fixedBehindOne (qs ++ [q]) = false ∧
      (Sql.trail (qs ++ [q])).out ≠ (p.table, identifierColumn p.table) ∧ (q.isFixed = false →
        (qs ++ [q]).all isStored ∨ ¬q.table.toList <:+: (Sql.trail (qs ++ [q])).name.toList) := by
  rw [suits, hf, getLast?_concat, Option.all_some]
  cases q.isFixed <;> simp [and_assoc]

theorem Unbroken.suits {ps qs : List Piece} {p : Piece} (h : Unbroken ps) (hi : p :: qs <:+: ps) :
    p.suits qs := by
  cases hf : p.isFixed
  case true => simp [Piece.suits, hf]
  case false =>
    obtain rfl | ⟨qs, q, rfl⟩ := eq_nil_or_concat' qs
    · simp [Piece.suits]
    · refine (Piece.suits_concat hf).mpr ⟨?_, h.onward p _ hi (by simp) hf, h.apart p qs q hi hf⟩
      unfold fixedBehindOne
      split
      case h_1 c r he =>
        have := h.constants p c r (he ▸ hi)
        simp [hf] at this
      case h_2 => rfl

theorem unbroken_iff {ps : List Piece} : Unbroken ps ↔
    ∀ rs ∈ ps.tails, ∀ qs ∈ rs.inits, qs.head?.all fun p => p.suits qs.tail := by
  simp only [mem_tails, mem_inits]
  constructor
  · intro h rs hrs qs hqs
    have hi : qs <:+: ps := hqs.isInfix.trans hrs.isInfix
    cases qs with
    | nil => rfl
    | cons p qs => exact h.suits hi
  · intro h
    have suits {p : Piece} {qs : List Piece} (hi : p :: qs <:+: ps) : p.suits qs := by
      have ⟨rs, hp, hs⟩ := infix_iff_prefix_suffix.mp hi
      exact h rs hs _ hp
    refine ⟨fun p c q hi => ?_, fun p qs hi hne hf => ?_, fun p qs q hi hf => ?_⟩
    · simpa [Piece.suits, fixedBehindOne] using suits hi
    · obtain ⟨qs, q, rfl⟩ := (eq_nil_or_concat' qs).resolve_left hne
      exact ((Piece.suits_concat hf).mp (suits hi)).right.left
    · exact ((Piece.suits_concat hf).mp (suits hi)).right.right

instance Unbroken.decidable (ps : List Piece) : Decidable (Unbroken ps) :=
  decidable_of_iff' _ unbroken_iff

namespace Unbroken

variable {ps qs rs : List Piece}

theorem mono (h : Unbroken ps) (hs : qs <:+: ps) : Unbroken qs where
  constants p c q hi := h.constants p c q (hi.trans hs)
  onward p qs hi     := h.onward p qs (hi.trans hs)
  apart p qs q hi    := h.apart p qs q (hi.trans hs)

theorem tail {p : Piece} (h : Unbroken (p :: ps)) : Unbroken ps :=
  h.mono (suffix_cons p ps).isInfix

theorem isFixed_of_fixed {c : String} (h : Unbroken (qs ++ .fixed c :: rs)) (hr : rs ≠ []) :
    ∀ p ∈ qs, p.isFixed := by
  obtain ⟨r, rs, rfl⟩ := exists_cons_of_ne_nil hr
  induction qs
  case nil => simp
  case cons p qs ih =>
    have hqs := ih h.tail
    refine forall_mem_cons.mpr ⟨?_, hqs⟩
    cases qs with
    | nil => exact h.constants p c r ⟨[], rs, by simp⟩
    | cons q qs =>
      obtain ⟨d, rfl⟩ := Piece.exists_of_isFixed (hqs q (by simp))
      have ⟨q', qs', he⟩ := exists_cons_of_ne_nil
        (show qs ++ .fixed c :: r :: rs ≠ [] by simp)
      exact h.constants p d q' ⟨[], qs', by simp [he]⟩

end Unbroken

def Hop.move (old new : String) (h : Hop) : Hop :=
  { h with base := replaceFirst old new h.base }

-- A trail from a table, and the same trail where the table is known under another name and read
-- behind `τ`.
structure Relocated (τ : Trail) (old new : String) (a b : Trail) : Prop where
  table  : b.table = τ.table
  domain : b.domain = τ.domain
  hops   : b.hops = τ.hops ++ a.hops.map (Hop.move old new)
  out    : b.out = (replaceFirst old new a.out.1, a.out.2)
  names  : ∀ h ∈ a.hops, replaceFirst old new h.name = (h.move old new).name

namespace Relocated

variable {τ a b : Trail} {old new : String}

theorem next_fixed {c : String} (h : Relocated τ old new a b) (ho : old.isEmpty = false) :
    Relocated τ old new (a.next (.fixed c)) (b.next (.fixed c)) where
  table  := h.table
  domain := h.domain
  hops   := h.hops
  out    := by simp [Trail.next, Piece.out, replaceFirst_empty new ho]
  names  := h.names

theorem next {p : Piece} (h : Relocated τ old new a b) (ho : old.isEmpty = false)
    (hp : p.isFixed = false) (hn : replaceFirst old new a.name = b.name) :
    Relocated τ old new (a.next p) (b.next p) := by
  rw [Trail.next_of_table a hp, Trail.next_of_table b hp]
  refine ⟨h.table, h.domain, by simp [h.hops, h.out, Hop.move], ?_, ?_⟩
  · cases p
    case stored  => simp [Piece.out, hn]
    case counted => simp [Piece.out, replaceFirst_empty new ho]
    case fixed   => simp [Piece.isFixed] at hp
  · simp only [mem_append, mem_singleton]
    rintro _ (hm | rfl)
    · exact h.names _ hm
    · rw [Trail.name, Trail.name, h.out] at hn
      exact hn

theorem replaceFirst_name (h : Relocated τ old new a b) (ho : old.isEmpty = false)
    (hn : (∃ n, a.out.1 = old ++ n) ∨ ¬old.toList <:+: a.name.toList) :
    replaceFirst old new a.name = b.name := by
  have hb : b.name = replaceFirst old new a.out.1 ++ "_" ++ a.out.2 := by
    rw [Trail.name, h.out]
  rw [hb]
  cases hn
  case inl hn =>
    have ⟨n, hn⟩ := hn
    simp only [Trail.name, hn, String.append_assoc, replaceFirst_append _ _ ho]
  case inr hn =>
    have hi : a.out.1.toList <:+: a.name.toList := by
      simp only [Trail.name, String.toList_append, append_assoc]
      exact (prefix_append _ _).isInfix
    rw [Text.replaceFirst_of_not_infix _ hn,
      Text.replaceFirst_of_not_infix _ fun ho => hn (ho.trans hi), Trail.name]

end Relocated

variable {ps qs : List Piece} {p q : Piece}

-- Along stored columns, a name goes back to the table at the start.
theorem exists_out_of_stored (h : (ps ++ [q]).all Piece.isStored) :
    ∃ n, (trail (ps ++ [q])).out.1 = q.table ++ n := by
  induction ps
  case nil =>
    cases q <;> simp [Piece.isStored] at h
    exact ⟨"", by simp [trail, Piece.start, Piece.out, Piece.table]⟩
  case cons p ps ih =>
    have ⟨hp, hps⟩ := Bool.and_eq_true_iff.mp (all_cons.symm.trans h)
    have ⟨n, hn⟩ := ih hps
    cases p <;> simp [Piece.isStored] at hp
    refine ⟨n ++ "_" ++ (trail (ps ++ [q])).out.2, ?_⟩
    rw [cons_append, trail_cons (by simp)]
    simp [Trail.next, Piece.out, Trail.name, hn, String.append_assoc]

theorem relocated (hu : Unbroken (ps ++ [q])) (hq : q.isFixed = false)
    (ht : q.table.isEmpty = false) (hs : qs ≠ []) : Relocated ((trail qs).next q) q.table
      (trail qs).name (trail (ps ++ [q])) (trail (ps ++ q :: qs)) := by
  induction ps
  case nil =>
    rw [nil_append, nil_append, trail_cons hs]
    refine ⟨rfl, rfl, by simp [trail, Piece.start], ?_, by simp [trail, Piece.start]⟩
    cases q
    case stored =>
      simp [Trail.next, trail, Piece.start, Piece.out, replaceFirst_whole _ ht]
    case counted =>
      simp [Trail.next, trail, Piece.start, Piece.out, replaceFirst_empty _ ht]
    case fixed => simp [Piece.isFixed] at hq
  case cons p ps ih =>
    have h := ih hu.tail
    rw [cons_append, cons_append, trail_cons (by simp), trail_cons (by simp)]
    cases hp : p.isFixed
    case true =>
      cases p <;> simp [Piece.isFixed] at hp
      exact h.next_fixed ht
    case false =>
      refine h.next ht hp (h.replaceFirst_name ht ?_)
      exact (hu.apart p ps q (infix_refl _) hp hq).imp_left exists_out_of_stored

-- The first dot of a text ends the table.
theorem qualified_inj {t n t' n' : String} (ht : t.isEmpty = false) (ht' : t'.isEmpty = false)
    (hd : '.' ∉ t.toList) (hd' : '.' ∉ t'.toList) (h : qualified t n = qualified t' n') :
    t = t' ∧ n = n' := by
  have hsplit {cs cs' ds ds' : List Char} (hc : '.' ∉ cs) (hc' : '.' ∉ cs')
      (he : cs ++ '.' :: ds = cs' ++ '.' :: ds') : cs = cs' ∧ ds = ds' := by
    induction cs generalizing cs'
    case nil =>
      cases cs'
      case nil       => exact ⟨rfl, (List.cons.inj he).right⟩
      case cons c' _ => exact absurd (by rw [← (List.cons.inj he).left]; simp) hc'
    case cons c cs ih =>
      cases cs'
      case nil => exact absurd (by rw [(List.cons.inj he).left]; simp) hc
      case cons c' cs' =>
        simp only [cons_append, List.cons.injEq] at he
        obtain ⟨hcs, hds⟩ := ih (by simp_all) (show '.' ∉ cs' by simp_all) he.right
        exact ⟨by rw [he.left, hcs], hds⟩
  simp only [qualified, ht, ht', Bool.false_eq_true, if_false, ← String.toList_inj,
    String.toList_append] at h
  have hdot : ".".toList = ['.'] := rfl
  simp only [hdot, append_assoc, singleton_append] at h
  obtain ⟨h₁, h₂⟩ := hsplit hd hd' h
  exact ⟨String.toList_inj.mp h₁, String.toList_inj.mp h₂⟩

theorem qualified_inj_of_undotted {t n t' n' : String} (ht : '.' ∉ t.toList) (hn : '.' ∉ n.toList)
    (ht' : '.' ∉ t'.toList) (hn' : '.' ∉ n'.toList) (h : qualified t n = qualified t' n') :
    t = t' ∧ n = n' := by
  have hdot (t n : String) : '.' ∈ (t ++ "." ++ n).toList := by simp [String.toList_append]
  cases he : t.isEmpty <;> cases he' : t'.isEmpty
  case false.false => exact qualified_inj he he' ht ht' h
  case true.true   => simp_all [qualified]
  case true.false  =>
    simp only [qualified, he, he', if_true, Bool.false_eq_true, if_false] at h
    exact absurd (h ▸ hdot t' n') hn
  case false.true  =>
    simp only [qualified, he, he', if_true, Bool.false_eq_true, if_false] at h
    exact absurd (h ▸ hdot t n) hn'

-- What reads like the identifier of a stored table is this identifier, unless it is a value.
theorem eq_of_qualified_eq {t n u : String} (hu : Stored u) (ht : t.isEmpty = false)
    (h : qualified t n = qualified u (identifierColumn u)) : (t, n) = (u, identifierColumn u) := by
  have hc : '.' ∉ (identifierColumn u).toList := by
    simp [identifierColumn, String.toList_append, hu.undotted]
  have hcount := congrArg (·.toList.count '.') h
  have hdot : (".".toList).count '.' = 1 := rfl
  simp only [qualified, ht, hu.given, Bool.false_eq_true, if_false, String.toList_append,
    count_append, hdot, count_eq_zero.mpr hu.undotted,
    count_eq_zero.mpr hc] at hcount
  have ht' : '.' ∉ t.toList := count_eq_zero.mp (by omega)
  obtain ⟨he, he'⟩ := qualified_inj ht hu.given ht' hu.undotted h
  rw [he, he']

theorem Trail.name_isEmpty (τ : Trail) : τ.name.isEmpty = false := by
  simp [name]

theorem exists_out (p : Piece) (ps : List Piece) :
    ∃ n, (trail (p :: ps)).out = p.out n ∧ (n = p.table ∨ n.isEmpty = false) := by
  cases ps with
  | nil => exact ⟨p.table, rfl, .inl rfl⟩
  | cons q qs =>
    rw [trail_cons (by simp)]
    cases p
    case fixed c => exact ⟨"", rfl, .inl rfl⟩
    all_goals exact ⟨(trail (q :: qs)).name, rfl, .inr (Trail.name_isEmpty _)⟩

theorem out_value (hp : p.Named) (h : (trail (p :: ps)).out.1.isEmpty) :
    '.' ∉ (trail (p :: ps)).out.2.toList ∨ ∃ c, (trail (p :: ps)).out.2 = "'" ++ c ++ "'" := by
  have ⟨n, ho, hne⟩ := exists_out p ps
  rw [ho] at h ⊢
  cases p
  case counted => exact .inl hp.right
  case fixed c => exact .inr ⟨c, rfl⟩
  case stored  =>
    have hg := hp.left.given
    cases hne <;> simp_all [Piece.out, Piece.table]

theorem qualified_out_ne (hu : Unbroken (p :: q :: qs)) (hn : q.Named) (hp : p.isFixed = false)
    (ht : Stored p.table) : qualified (trail (q :: qs)).out.1 (trail (q :: qs)).out.2
      ≠ qualified p.table (identifierColumn p.table) := by
  intro h
  cases he : (trail (q :: qs)).out.1.isEmpty
  case false =>
    exact hu.onward p _ (infix_refl _) (by simp) hp (eq_of_qualified_eq ht he h)
  case true =>
    simp only [qualified, he, ht.given, if_true, Bool.false_eq_true, if_false] at h
    cases out_value hn he
    case inl hv => exact hv (h ▸ by simp [String.toList_append])
    case inr hv =>
      -- A literal ends with its quote.
      obtain ⟨c, hv⟩ := hv
      have hl := congrArg (·.toList.reverse.head?) (hv.symm.trans h)
      simp [identifierColumn, String.toList_append] at hl

-- A table or name, and a column, without dots.
def Undotted (o : String × String) : Prop :=
  '.' ∉ o.1.toList ∧ '.' ∉ o.2.toList

def Trail.HopsUndotted (τ : Trail) : Prop :=
  ∀ h ∈ τ.hops, Undotted (h.base, h.link.column)

theorem Trail.next_undotted {τ : Trail} (h : τ.HopsUndotted) (ho : Undotted τ.out) (hp : p.Named)
    (hf : p.isFixed = false) : (τ.next p).HopsUndotted ∧ Undotted (τ.next p).out := by
  have hn : '.' ∉ τ.name.toList := by simp [Trail.name, String.toList_append, ho.left, ho.right]
  rw [Trail.next_of_table τ hf]
  refine ⟨?_, ?_⟩
  · simp only [HopsUndotted, mem_append, mem_singleton]
    rintro _ (hm | rfl)
    · exact h _ hm
    · exact ho
  · cases p
    case stored  => exact ⟨hn, hp.right⟩
    case counted => exact ⟨by simp [Piece.out], hp.right⟩
    case fixed   => simp [Piece.isFixed] at hf

-- The codes of constants may have dots, but within a chain no name is made of them.
theorem trail_undotted (hu : Unbroken (ps ++ [q])) (hn : ∀ p ∈ ps ++ [q], p.Named)
    (hq : q.isFixed = false) : (trail (ps ++ [q])).HopsUndotted ∧
      ((∃ p ∈ (ps ++ [q]).head?, p.isFixed) ∨ Undotted (trail (ps ++ [q])).out) := by
  induction ps
  case nil =>
    have hq' := hn q (by simp)
    refine ⟨by simp [Trail.HopsUndotted, trail, Piece.start], .inr ?_⟩
    cases q
    case stored  => exact ⟨hq'.left.undotted, hq'.right⟩
    case counted => exact ⟨by simp [trail, Piece.start, Piece.out], hq'.right⟩
    case fixed   => simp [Piece.isFixed] at hq
  case cons p ps ih =>
    have ⟨hp, hn⟩ := forall_mem_cons.mp hn
    have ⟨hh, ho⟩ := ih hu.tail hn
    rw [cons_append, trail_cons (by simp)]
    cases hf : p.isFixed
    case true =>
      have ⟨c, hc⟩ := Piece.exists_of_isFixed hf
      exact ⟨hc ▸ hh, .inl ⟨p, rfl, hf⟩⟩
    case false =>
      suffices ho : Undotted (trail (ps ++ [q])).out from
        (Trail.next_undotted hh ho hp hf).imp_right .inr
      refine ho.resolve_left ?_
      rintro ⟨i, hi, hif⟩
      have ⟨c, hc⟩ := Piece.exists_of_isFixed hif
      cases ps with
      | nil => simp_all
      | cons j ps =>
        obtain ⟨q', qs', he⟩ := exists_cons_of_ne_nil (show ps ++ [q] ≠ [] by simp)
        have hj : j = .fixed c := by simp_all
        have := hu.constants p c q' ⟨[], qs', by simp [he, hj]⟩
        simp [hf] at this

theorem Hop.key_inj {h h' : Hop} (hu : Undotted (h.base, h.link.column))
    (hu' : Undotted (h'.base, h'.link.column)) (hk : h.key = h'.key) : h = h' := by
  have ⟨ht, hq⟩ := Prod.mk.inj hk
  have ⟨hb, hc⟩ := qualified_inj_of_undotted hu.left hu.right hu'.left hu'.right hq
  obtain ⟨_, _, _⟩ := h
  obtain ⟨_, _, _⟩ := h'
  simp_all

def Trail.compose (l q : Trail) : Trail :=
  if l.table.isEmpty then { q with out := l.out }
  else
    { q with
      hops := q.hops ++ ⟨q.out.1, q.out.2, l.table⟩ :: l.hops.map (Hop.move l.table q.name)
      out  := (replaceFirst l.table q.name l.out.1, l.out.2) }

-- The later part is joined by its table, and its names can be told from each other and changed.
structure Trail.Fits (l q : Trail) : Prop where
  permanent : isTemporary l.table = false
  domain    : l.domain = (l.table, identifierColumn l.table)
  onward    : qualified q.out.1 q.out.2 ≠ qualified l.table (identifierColumn l.table)
  names     : ∀ h ∈ l.hops, replaceFirst l.table q.name h.name = (h.move l.table q.name).name
  keys      : ∀ h ∈ l.hops, ∀ h' ∈ l.hops, h.key = h'.key → h = h'

theorem trail_start (ps : List Piece) (q : Piece) :
    (trail (ps ++ [q])).table = q.table ∧ (trail (ps ++ [q])).domain = q.domain := by
  induction ps
  case nil => exact ⟨rfl, rfl⟩
  case cons p ps ih =>
    rw [cons_append, trail_cons (by simp)]
    cases p <;> exact ih

theorem trail_append_fixed (hf : ∀ p ∈ ps, p.isFixed) (hp : ps ≠ []) (hq : qs ≠ []) :
    trail (ps ++ qs) = { trail qs with out := (trail ps).out } := by
  induction ps
  case nil => exact absurd rfl hp
  case cons p ps ih =>
    have ⟨hf, hfs⟩ := forall_mem_cons.mp hf
    obtain ⟨c, rfl⟩ := Piece.exists_of_isFixed hf
    rw [cons_append, trail_cons (by simp [hq])]
    cases ps with
    | nil => rfl
    | cons p' ps =>
      rw [ih hfs (by simp)]
      rfl

theorem Piece.Named.table (h : p.Named) (hf : p.isFixed = false) :
    Stored p.table ∧ p.domain = (p.table, identifierColumn p.table) := by
  cases p
  case fixed => simp [isFixed] at hf
  all_goals exact ⟨h.left, rfl⟩

theorem trail_fits (hu : Unbroken (ps ++ q :: qs)) (hn : ∀ p ∈ ps ++ q :: qs, p.Named)
    (hf : q.isFixed = false) (hs : qs ≠ []) : (trail (ps ++ [q])).Fits (trail qs) := by
  have ⟨ht, hd⟩ := (hn q (by simp)).table hf
  have ⟨htable, hdomain⟩ := trail_start ps q
  have hi : ps ++ [q] <:+: ps ++ q :: qs := ⟨[], qs, by simp⟩
  refine ⟨htable ▸ ht.permanent, by rw [hdomain, htable, hd], ?_, ?_, fun h hh h' hh' => ?_⟩
  · obtain ⟨q', qs, rfl⟩ := exists_cons_of_ne_nil hs
    rw [htable]
    exact qualified_out_ne (hu.mono (suffix_append ps _).isInfix) (hn q' (by simp)) hf ht
  · rw [htable]
    exact (relocated (hu.mono hi) hf ht.given hs).names
  · have hundot := (trail_undotted (hu.mono hi) (fun p hp => hn p (hi.subset hp)) hf).left
    exact Hop.key_inj (hundot h hh) (hundot h' hh')

-- Following a chain in two parts comes to the same as following it at once.
theorem trail_append (hu : Unbroken (ps ++ qs)) (hn : ∀ p ∈ ps ++ qs, p.Named) (hp : ps ≠ [])
    (hq : qs ≠ []) : trail (ps ++ qs) = (trail ps).compose (trail qs) ∧
      ((trail ps).table.isEmpty = false → (trail ps).Fits (trail qs)) := by
  obtain ⟨ps, q, rfl⟩ := (eq_nil_or_concat' ps).resolve_left hp
  rw [append_assoc, singleton_append] at hu hn
  have ⟨ht, _⟩ := trail_start ps q
  cases hf : q.isFixed
  case true =>
    obtain ⟨c, rfl⟩ := Piece.exists_of_isFixed hf
    have hfs : ∀ p ∈ ps ++ [.fixed c], p.isFixed := by
      simpa [or_imp, forall_and, hf] using hu.isFixed_of_fixed hq
    rw [trail_append_fixed hfs hp hq, Trail.compose, ht]
    simp [Piece.table]
  case false =>
    have hg := ((hn q (by simp)).table hf).left.given
    have hi : ps ++ [q] <:+: ps ++ q :: qs := ⟨[], qs, by simp⟩
    have h := relocated (hu.mono hi) hf hg hq
    have hnext := Trail.next_of_table (trail qs) hf
    refine ⟨?_, fun _ => trail_fits hu hn hf hq⟩
    rw [Trail.compose, ht, append_assoc, singleton_append]
    simp only [hg, Bool.false_eq_true, if_false]
    refine Trail.ext (h.table.trans (by rw [hnext])) (h.domain.trans (by rw [hnext])) ?_ h.out
    rw [h.hops, hnext]
    simp

end Sql
end Inquiry
