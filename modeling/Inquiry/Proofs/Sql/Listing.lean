import Mathlib
import Inquiry.Proofs.Sql.Database

/-!
Lists: for each row of a table that meets some conditions, the values that routes of identifiers
lead to. A query for a list joins a table for each step of a route. It gives the list from every
database exactly if different joins have different names.
-/

namespace Inquiry

open List

namespace Sql

section Firsts

variable {α κ : Type} [DecidableEq κ] (key : α → κ) {as bs seen : List α} {a : α}

def addFirst (seen : List α) (a : α) : List α :=
  if seen.any fun b => key b = key a then seen else seen ++ [a]

-- The entries that have a key that was not there before.
def firsts (as : List α) : List α :=
  as.foldl (addFirst key) []

theorem addFirst_cases (seen : List α) (a : α) : ((∃ b ∈ seen, key b = key a) ∧ addFirst key seen a = seen) ∨
    ((∀ b ∈ seen, key b ≠ key a) ∧ addFirst key seen a = seen ++ [a]) := by
  by_cases h : seen.any fun b => key b = key a
  case pos => exact .inl ⟨by simpa using h, by simp [addFirst, h]⟩
  case neg => exact .inr ⟨by simpa using h, by simp [addFirst, h]⟩

theorem subset_addFirst : seen ⊆ addFirst key seen a := by
  cases addFirst_cases key seen a
  case inl h => simp [h.right]
  case inr h => simp [h.right]

theorem exists_key_addFirst (seen : List α) (a : α) : ∃ b ∈ addFirst key seen a, key b = key a := by
  cases addFirst_cases key seen a
  case inl h => rw [h.right]; exact h.left
  case inr h => exact ⟨a, by simp [h.right], rfl⟩

theorem subset_foldl_addFirst : seen ⊆ as.foldl (addFirst key) seen := by
  induction as generalizing seen
  case nil          => simp
  case cons a as ih => exact fun b hb => ih (subset_addFirst key hb)

theorem exists_key_foldl_addFirst (seen : List α) (h : a ∈ as) :
    ∃ b ∈ as.foldl (addFirst key) seen, key b = key a := by
  induction as generalizing seen
  case nil => simp at h
  case cons c as ih =>
    cases mem_cons.mp h
    case inr h => exact ih _ h
    case inl h =>
      have ⟨b, hb, hk⟩ := exists_key_addFirst key seen c
      exact ⟨b, by simpa using subset_foldl_addFirst key hb, by rw [hk, h]⟩

theorem mem_of_mem_foldl_addFirst (h : a ∈ as.foldl (addFirst key) seen) : a ∈ seen ∨ a ∈ as := by
  induction as generalizing seen
  case nil => exact .inl h
  case cons c as ih =>
    cases ih h
    case inr h => exact .inr (mem_cons_of_mem c h)
    case inl h =>
      cases addFirst_cases key seen c
      case inl hc => exact .inl (hc.right ▸ h)
      case inr hc =>
        simp only [hc.right, mem_append, mem_singleton] at h
        exact h.imp_right fun h => by simp [h]

theorem foldl_addFirst_firsts :
    (firsts key as).foldl (addFirst key) seen = as.foldl (addFirst key) seen := by
  induction as using List.reverseRecOn
  case nil => rfl
  case append_singleton as a ih =>
    simp only [firsts, foldl_append, foldl_cons, foldl_nil] at ih ⊢
    cases addFirst_cases key (as.foldl (addFirst key) []) a
    case inr h => simp [h.right, ih]
    case inl h =>
      have ⟨⟨b, hb, hk⟩, h⟩ := h
      have ⟨c, hc, hkc⟩ := exists_key_foldl_addFirst key seen hb
      rw [h, ih]
      cases addFirst_cases key (as.foldl (addFirst key) seen) a
      case inl h' => exact h'.right.symm
      case inr h' => exact absurd (hkc.trans hk) (h'.left c (ih ▸ hc))

theorem firsts_append : firsts key (as ++ bs) = bs.foldl (addFirst key) (firsts key as) :=
  foldl_append

theorem firsts_firsts_append : firsts key (firsts key as ++ bs) = firsts key (as ++ bs) := by
  rw [firsts_append, firsts_append, firsts, foldl_addFirst_firsts, firsts]

theorem firsts_firsts : firsts key (firsts key as) = firsts key as :=
  foldl_addFirst_firsts key

theorem firsts_append_firsts : firsts key (as ++ firsts key bs) = firsts key (as ++ bs) := by
  rw [firsts_append, firsts_append, foldl_addFirst_firsts]

theorem firsts_flatMap_firsts {f : β → List α} {xs : List β} :
    firsts key (xs.flatMap fun x => firsts key (f x)) = firsts key (xs.flatMap f) := by
  have h : ∀ seen, (xs.flatMap fun x => firsts key (f x)).foldl (addFirst key) seen
      = (xs.flatMap f).foldl (addFirst key) seen := by
    induction xs
    case nil          => simp
    case cons x xs ih => simp [foldl_append, foldl_addFirst_firsts, ih]
  exact h []

theorem mem_firsts_iff (hi : ∀ a ∈ as, ∀ b ∈ as, key a = key b → a = b) :
    a ∈ firsts key as ↔ a ∈ as := by
  constructor
  case mp => exact fun h => (mem_of_mem_foldl_addFirst key h).resolve_left (by simp)
  case mpr =>
    intro h
    have ⟨b, hb, hk⟩ := exists_key_foldl_addFirst key [] h
    have hm := (mem_of_mem_foldl_addFirst key hb).resolve_left (by simp)
    exact hi b hm a h hk ▸ hb

theorem nodup_foldl_addFirst (h : (seen.map key).Nodup) :
    ((as.foldl (addFirst key) seen).map key).Nodup := by
  induction as generalizing seen
  case nil => exact h
  case cons a as ih =>
    refine ih ?_
    cases addFirst_cases key seen a
    case inl ha => rwa [ha.right]
    case inr ha =>
      rw [ha.right, map_append, nodup_append]
      exact ⟨h, by simp, by simpa using ha.left⟩

theorem nodup_firsts : (firsts key as).Nodup :=
  List.Nodup.of_map key (nodup_foldl_addFirst key (by simp))

end Firsts

-- A column that holds identifiers of the rows of a table.
structure Link where
  column : String
  table  : String
  deriving DecidableEq

-- Links that are followed, the last one first in the list, and the column that is read at the end.
structure Route where
  links  : List Link
  column : String

structure Listing where
  table      : String
  outputs    : List Route
  -- what is to be found at the end of a route
  conditions : List (Route × String)

-- The row that links lead to.
def Database.follow (db : Database) (r : Row) : List Link → Option Row
  | []      => some r
  | k :: ks => do db.find k.table ((← db.follow r ks) k.column)

def Route.value (db : Database) (r : Row) (p : Route) : Option Cell :=
  (db.follow r p.links).map (· p.column)

namespace Listing

-- What a list says of a row, if the row is part of the list at all.
def answer (db : Database) (l : Listing) (r : Row) : Option (List Cell) :=
  if l.conditions.all fun (p, v) => p.value db r == some (some v) then
    (l.outputs.mapM (Route.value db r)).map (r (identifierColumn l.table) :: ·)
  else none

def answers (db : Database) (l : Listing) : List (List Cell) :=
  (db l.table).filterMap (l.answer db)

end Listing

def qualified (table column : String) : String :=
  if table.isEmpty then column else table ++ "." ++ column

-- Read from `base`, the link seems to lead to the row that it starts from.
def Link.isLoop (k : Link) (base : String) : Bool :=
  qualified base k.column == qualified k.table (identifierColumn k.table)

-- The table of the row that links lead to, and the name that stands for the row.
def tableAfter (start : String) : List Link → String
  | []     => start
  | k :: _ => k.table

def nameAfter (start : String) : List Link → String
  | []      => start
  | k :: ks =>
    if k.isLoop (nameAfter start ks) then nameAfter start ks
    else nameAfter start ks ++ "_" ++ k.column

-- A link, followed from the row that a name stands for.
structure Hop where
  base : String
  link : Link
  deriving DecidableEq

namespace Hop

def name (h : Hop) : String :=
  h.base ++ "_" ++ h.link.column

def key (h : Hop) : String × String :=
  (h.link.table, qualified h.base h.link.column)

theorem name_ne_base (h : Hop) : h.name ≠ h.base := by
  intro he
  have := congrArg String.length he
  simp only [name, String.length_append] at this
  have : "_".length = 1 := rfl
  omega

theorem name_ne_empty (h : Hop) : h.name.isEmpty = false := by
  simp [name]

end Hop

def hops (start : String) : List Link → List Hop
  | []      => []
  | k :: ks =>
    hops start ks ++ if k.isLoop (nameAfter start ks) then [] else [⟨nameAfter start ks, k⟩]

-- A column that is to have a value.
structure Test where
  base   : String
  column : String
  value  : String
  deriving DecidableEq

def Test.text (t : Test) : String :=
  "(" ++ qualified t.base t.column ++ " = " ++ ("'" ++ t.value ++ "'") ++ ")"

def testOf (table : String) (c : Route × String) : Test :=
  ⟨nameAfter table c.1.links, c.1.column, c.2⟩

namespace Listing

def routes (l : Listing) : List Route :=
  l.conditions.map (·.1) ++ l.outputs

def hops (l : Listing) : List Hop :=
  l.routes.flatMap fun p => Sql.hops l.table p.links

theorem hops_eq (l : Listing) : l.hops = (l.conditions.flatMap fun c => Sql.hops l.table c.1.links)
    ++ l.outputs.flatMap fun p => Sql.hops l.table p.links := by
  simp [hops, routes, flatMap_map]

def tests (l : Listing) : List Test :=
  l.conditions.map (testOf l.table)

-- The links are followed in the list, on the way or to an end.
def Follows (l : Listing) (ks : List Link) : Prop :=
  ∃ p ∈ l.routes, ks <:+ p.links

-- What reads alike is alike.
structure Legible (l : Listing) : Prop where
  loops : ∀ k ks, l.Follows (k :: ks) → k.isLoop (nameAfter l.table ks) →
    k.table = tableAfter l.table ks ∧ k.column = identifierColumn k.table
  hops  : ∀ h ∈ l.hops, ∀ h' ∈ l.hops, h.key = h'.key → h = h'
  tests : ∀ t ∈ l.tests, ∀ t' ∈ l.tests, t.text = t'.text → t = t'

def Apart (l : Listing) : Prop :=
  ∀ h ∈ l.hops, ∀ h' ∈ l.hops, h.name = h'.name → h = h'

end Listing
end Sql
end Inquiry
